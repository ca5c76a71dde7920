import Hspp.ForwarderCustody

/-! # When `tap_main` is blocked

`tap_main` reads the host interfaces in turn, and a `read` with nothing waiting blocks; the
frames of the other ports have to wait meanwhile (`fwd_main`, in contrast, asks each ring and
each NIC without blocking).  It serves a port with a waiting frame and a free mbuf as long as
no action is an untimely one: to go into `read` for an idle port while another port waits, or
to let another port begin to wait meanwhile (`tapServes_of_prompt`).  After any other action it
does not (`tapServes_iff_prompt`). -/

namespace Hspp

open Transition

/-- A frame waits at the host interface of the port, and the pool has a free mbuf for it. -/
def Waits (s : State) (pid : ℕ) : Prop := (s.ports pid).hostif ≠ [] ∧ (s.ports pid).mp ≠ []

/-- `tap_main` is in `read` for the port, and no frame waits there. -/
def ReadsIdle (s : State) (pid : ℕ) : Prop :=
  (∃ m, s.tap = .read pid (some m)) ∧ (s.ports pid).hostif = []

/-- While some port waits, `tap_main` is not blocked. -/
def TapServes (n : ℕ) (s : State) : Prop :=
  s.status = .running → ∀ pid < n, Waits s pid → ∃ a s', tapStep n s a = some s'

/-- The action neither makes `tap_main` read an idle port while another port waits, nor makes
another port wait while it does, by a frame or by a free mbuf. -/
structure Prompt (n : ℕ) (s : State) (a : Act) : Prop where
  alloc : ∀ m pid, a = .tapAlloc (some m) → s.tap = .alloc pid → (s.ports pid).hostif = [] →
    ∀ j < n, j ≠ pid → ¬ Waits s j
  send : ∀ pid frame, a = .hostSend pid frame → (s.ports pid).mp ≠ [] →
    ∀ j, j ≠ pid → ¬ ReadsIdle s j
  free : ∀ m ∈ frees s a, m.pool < n → (s.ports m.pool).hostif ≠ [] →
    ∀ j, j ≠ m.pool → ¬ ReadsIdle s j

/-- No port waits while `tap_main` reads an idle one. -/
def Unblocked (n : ℕ) (s : State) : Prop := ∀ j, ReadsIdle s j → ∀ pid < n, ¬ Waits s pid

/-- `tap_main` is at one of the ports. -/
def TapInRange (n : ℕ) (s : State) : Prop := 0 < n → s.tap.pid < n

variable {n : ℕ} {s s' : State} {a : Act}

/-! ### What a step changes -/

/-- Only `tap_main` takes frames from a host interface, and only the host puts some there. -/
theorem hostif_of_steps (h : Steps n s a s') (pid : ℕ) :
    (s'.ports pid).hostif = (s.ports pid).hostif ∨
      (a = .tapRead true ∧ (s.ports pid).hostif ≠ []) ∨
        ∃ frame, a = .hostSend pid frame ∧
          (s'.ports pid).hostif = (s.ports pid).hostif ++ [frame] := by
  have hfree (chain : List Mbuf) (t : State) :
      ((t.free chain).ports pid).hostif = (t.ports pid).hostif :=
    free_congr Port.hostif (fun _ _ => rfl) pid chain t
  cases h with
  | @tapRead j m frame frames _ hwait =>
      obtain rfl | hne := eq_or_ne pid j
      · exact .inr (.inl ⟨rfl, by simp [hwait]⟩)
      · exact .inl (congrArg Port.hostif (Function.update_of_ne hne ..))
  | @hostSend j frame =>
      obtain rfl | hne := eq_or_ne pid j
      · exact .inr (.inr ⟨frame, rfl, by simp⟩)
      · exact .inl (congrArg Port.hostif (Function.update_of_ne hne ..))
  | @fwdTxFree j mbufs i m =>
      refine .inl (Eq.trans ?_ (hfree [m] s))
      exact update_congr Port.hostif (by rfl) pid
  | fwdFree => exact .inl (hfree _ s)
  | @driverFree j m =>
      refine .inl ((hfree [m] _).trans ?_)
      exact update_congr Port.hostif (by rfl) pid
  | tapAllocNone => exact .inl rfl
  | tapReadNull => exact .inl rfl
  | tapReadFail => exact .inl rfl
  | tapEnqueueFull => exact .inl rfl
  | fwdRingEmpty => exact .inl rfl
  | fwdInput => exact .inl rfl
  | fwdWriteFail => exact .inl rfl
  | driverWrite => exact .inl rfl
  | _ => exact .inl (update_congr Port.hostif (by rfl) pid)

theorem mem_mp_free (pid : ℕ) (m : Mbuf) : ∀ (chain : List Mbuf) (s : State),
    m ∈ ((s.free chain).ports pid).mp ↔ m ∈ (s.ports pid).mp ∨ m ∈ chain ∧ m.pool = pid
  | [], s => by simp [State.free]
  | m' :: chain, s => by
      have hseg : m ∈ ((s.freeSeg m').ports pid).mp ↔
          m ∈ (s.ports pid).mp ∨ m = m' ∧ m'.pool = pid := by
        obtain rfl | hne := eq_or_ne pid m'.pool
        · simp [State.freeSeg, or_comm]
        · rw [State.freeSeg, modifyPort_of_ne s hne]
          simp [hne.symm]
      have ih := mem_mp_free pid m chain (s.freeSeg m')
      rw [State.free] at ih ⊢
      rw [List.foldl_cons, ih, hseg, List.mem_cons]
      constructor
      · rintro ((h | ⟨rfl, h⟩) | ⟨h, h'⟩)
        · exact .inl h
        · exact .inr ⟨.inl rfl, h⟩
        · exact .inr ⟨.inr h, h'⟩
      · rintro (h | ⟨rfl | h, h'⟩)
        · exact .inl (.inl h)
        · exact .inl (.inr ⟨rfl, h'⟩)
        · exact .inr ⟨h, h'⟩

/-- A pool gets the mbufs that are freed, and no others. -/
theorem mp_of_steps (h : Steps n s a s') {pid : ℕ} {m : Mbuf} (hm : m ∈ (s'.ports pid).mp) :
    m ∈ (s.ports pid).mp ∨ m ∈ frees s a ∧ m.pool = pid := by
  have hsub {j : ℕ} {p : Port} (hp : p.mp ⊆ (s.ports j).mp)
      (hmem : m ∈ (Function.update s.ports j p pid).mp) : m ∈ (s.ports pid).mp := by
    obtain rfl | hne := eq_or_ne pid j
    · rw [Function.update_self] at hmem
      exact hp hmem
    · rwa [Function.update_of_ne hne] at hmem
  cases h with
  | @fwdTxFree j mbufs i m' hpc hi =>
      have hmem : m ∈ ((s.free [m']).ports pid).mp := by
        convert hm using 1
        exact (update_congr Port.mp (by rfl) pid).symm
      rw [mem_mp_free] at hmem
      simpa [frees, hpc, hi] using hmem
  | @fwdFree j bufs i chain hpc hi =>
      rw [setFwd_ports, mem_mp_free] at hm
      simpa [frees, hpc, hi] using hm
  | @driverFree j m' _ =>
      rw [mem_mp_free] at hm
      exact hm.imp_left (hsub (by simp))
  | tapAllocNone => exact .inl hm
  | tapReadNull => exact .inl hm
  | tapReadFail => exact .inl hm
  | tapEnqueueFull => exact .inl hm
  | fwdRingEmpty => exact .inl hm
  | fwdInput => exact .inl hm
  | fwdWriteFail => exact .inl hm
  | driverWrite => exact .inl hm
  | tapAlloc => exact .inl (hsub (by simp [List.erase_subset]) hm)
  | driverTake => exact .inl (hsub (by simp [List.erase_subset]) hm)
  | _ => exact .inl (hsub (by simp) hm)

/-- What a step frees is in the pool afterwards, and `tap_main` stays where it is. -/
theorem mem_mp_of_frees (h : Steps n s a s') {m : Mbuf} (hm : m ∈ frees s a) :
    m ∈ (s'.ports m.pool).mp ∧ s'.tap = s.tap ∧ s'.status = s.status := by
  cases h with
  | @fwdTxFree j mbufs i m' hpc hi =>
      have hmem : m = m' := by simpa [frees, hpc, hi] using hm
      refine ⟨?_, free_tap s [m'], free_status s [m']⟩
      have hfree : m ∈ ((s.free [m']).ports m.pool).mp := by
        rw [mem_mp_free, hmem]
        exact .inr ⟨.head _, rfl⟩
      convert hfree using 1
      exact update_congr Port.mp (by rfl) m.pool
  | @fwdFree j bufs i chain hpc hi =>
      have hmem : m ∈ chain := by simpa [frees, hpc, hi] using hm
      refine ⟨?_, free_tap s chain, free_status s chain⟩
      rw [setFwd_ports, mem_mp_free]
      exact .inr ⟨hmem, rfl⟩
  | @driverFree j m' _ =>
      refine ⟨?_, free_tap _ [m'], free_status _ [m']⟩
      rw [mem_mp_free]
      exact .inr ⟨hm, rfl⟩
  | _ => exact absurd hm List.not_mem_nil

/-- `tap_main` goes into `read` after an allocation. -/
theorem tap_of_steps (h : Steps n s a s') {pid : ℕ} {m : Mbuf}
    (hpc : s'.tap = .read pid (some m)) :
    (a = .tapAlloc (some m) ∧ s.tap = .alloc pid) ∨
      (a ≠ .tapRead true ∧ s.tap = .read pid (some m)) := by
  cases h with
  | tapAllocNone => simp at hpc
  | tapAlloc hpc' _ =>
      simp only [setTap_tap, TapPc.read.injEq, Option.some.injEq] at hpc
      obtain ⟨rfl, rfl⟩ := hpc
      exact .inl ⟨rfl, hpc'⟩
  | tapReadNull hpc' =>
      have : s.tap = .read pid (some m) := hpc
      simp [hpc'] at this
  | tapRead => simp at hpc
  | tapReadFail hpc' => exact .inr ⟨by simp, hpc⟩
  | tapEnqueue => simp at hpc
  | tapEnqueueFull => simp at hpc
  | fwdFree => exact .inr ⟨by simp, by simpa using hpc⟩
  | _ => exact .inr ⟨by simp, hpc⟩

/-! ### Blocked and not -/

theorem tapStep_of_readsIdle {pid : ℕ} (h : ReadsIdle s pid) (a : Act) :
    tapStep n s a = none := by
  obtain ⟨⟨m, hpc⟩, hidle⟩ := h
  cases a <;> simp [tapStep, hpc, hidle]

theorem exists_tapStep (hpid : s.tap.pid < n) (h : ∀ j, ¬ ReadsIdle s j) :
    ∃ a, (tapStep n s a).isSome := by
  unfold tapStep
  cases hpc : s.tap with
  | alloc pid =>
      rw [hpc, TapPc.pid] at hpid
      cases hmp : (s.ports pid).mp with
      | nil => exact ⟨.tapAlloc none, by simp [hpid, hmp]⟩
      | cons m _ => exact ⟨.tapAlloc (some m), by simp [hpid, hmp]⟩
  | read pid m =>
      cases m with
      | none => exact ⟨.tapRead true, rfl⟩
      | some m =>
          cases hwait : (s.ports pid).hostif with
          | nil => exact absurd ⟨⟨m, hpc⟩, hwait⟩ (h pid)
          | cons frame frames => exact ⟨.tapRead true, by simp [hwait]⟩
  | enqueue pid m =>
      refine ⟨.tapEnqueue, ?_⟩
      by_cases hroom : (s.ports pid).fromHostif.length < ringSize - 1
      · simp [hroom]
      · simp [hroom]

theorem tapServes_iff (hrange : TapInRange n s) (hrun : s.status = .running) :
    TapServes n s ↔ Unblocked n s := by
  constructor
  · intro h j hj pid hpid hw
    obtain ⟨a, s', hs⟩ := h hrun pid hpid hw
    rw [tapStep_of_readsIdle hj] at hs
    cases hs
  · intro h _ pid hpid hw
    obtain ⟨a, ha⟩ :=
      exists_tapStep (hrange (Nat.zero_lt_of_lt hpid)) fun j hj => h j hj pid hpid hw
    exact ⟨a, Option.isSome_iff_exists.mp ha⟩

/-! ### Steps -/

/-- A port begins to wait with a frame or with a free mbuf. -/
theorem waits_of_steps (h : Steps n s a s') {pid : ℕ} (hw : Waits s' pid) :
    Waits s pid ∨ (∃ frame, a = .hostSend pid frame ∧ (s.ports pid).mp ≠ []) ∨
      ∃ m ∈ frees s a, m.pool = pid ∧ (s.ports pid).hostif ≠ [] := by
  obtain ⟨hwait, hmp⟩ := hw
  obtain ⟨m, hm⟩ := List.exists_mem_of_ne_nil _ hmp
  have hhostif : (s.ports pid).hostif ≠ [] ∨ ∃ frame, a = .hostSend pid frame := by
    rcases hostif_of_steps h pid with heq | ⟨-, hne⟩ | ⟨frame, ha, -⟩
    · exact .inl (heq ▸ hwait)
    · exact .inl hne
    · exact .inr ⟨frame, ha⟩
  rcases mp_of_steps h hm with hm | ⟨hm, hpool⟩
  · rcases hhostif with hne | ⟨frame, ha⟩
    · exact .inl ⟨hne, List.ne_nil_of_mem hm⟩
    · exact .inr (.inl ⟨frame, ha, List.ne_nil_of_mem hm⟩)
  · rcases hhostif with hne | ⟨frame, rfl⟩
    · exact .inr (.inr ⟨m, hm, hpool, hne⟩)
    · exact absurd hm List.not_mem_nil

/-- `tap_main` begins to read an idle port after an allocation. -/
theorem readsIdle_of_steps (h : Steps n s a s') {pid : ℕ} (hidle : ReadsIdle s' pid) :
    (∃ m, a = .tapAlloc (some m) ∧ s.tap = .alloc pid ∧ (s.ports pid).hostif = []) ∨
      ReadsIdle s pid := by
  obtain ⟨⟨m, hpc⟩, hnil⟩ := hidle
  have hhostif (ha : a ≠ .tapRead true) : (s.ports pid).hostif = [] := by
    rcases hostif_of_steps h pid with heq | ⟨hread, -⟩ | ⟨frame, -, happ⟩
    · exact heq ▸ hnil
    · exact absurd hread ha
    · simp [happ] at hnil
  rcases tap_of_steps h hpc with ⟨rfl, hpc'⟩ | ⟨ha, hpc'⟩
  · exact .inl ⟨m, rfl, hpc', hhostif (by simp)⟩
  · exact .inr ⟨⟨m, hpc'⟩, hhostif ha⟩

theorem unblocked_step (h : Steps n s a s') (hok : Prompt n s a) (hs : Unblocked n s) :
    Unblocked n s' := by
  intro j hj pid hpid hw
  have hne : pid ≠ j := fun heq => hw.1 (heq ▸ hj.2)
  rcases waits_of_steps h hw with hw | ⟨frame, rfl, hmp⟩ | ⟨m, hm, rfl, hwait⟩
  · rcases readsIdle_of_steps h hj with ⟨m, ha, hpc, hnil⟩ | hj
    · exact hok.alloc m j ha hpc hnil pid hpid hne hw
    · exact hs j hj pid hpid hw
  · rcases readsIdle_of_steps h hj with ⟨m, ha, -⟩ | hj
    · cases ha
    · exact hok.send pid frame rfl hmp j hne.symm hj
  · rcases readsIdle_of_steps h hj with ⟨m', rfl, -⟩ | hj
    · exact absurd hm List.not_mem_nil
    · exact hok.free m hm hpid hwait j hne.symm hj

/-- After an untimely action some port waits while `tap_main` is blocked. -/
theorem prompt_of_unblocked (hs : step n s a = some s') (h : Unblocked n s') : Prompt n s a := by
  have hsteps := (steps_of_step hs).2
  refine ⟨?_, ?_, ?_⟩
  · rintro m pid rfl hpc hnil j hj hne ⟨hwait, hmp⟩
    cases hsteps with
    | @tapAlloc pid' _ hpc' _ =>
        obtain rfl : pid' = pid := by
          rw [hpc] at hpc'
          exact (TapPc.alloc.inj hpc').symm
        refine h pid' ⟨⟨m, rfl⟩, by simpa using hnil⟩ j hj ?_
        unfold Waits
        rw [setTap_ports, modifyPort_of_ne s hne]
        exact ⟨hwait, hmp⟩
  · rintro pid frame rfl hmp j hne ⟨hread, hnil⟩
    have hpid : pid < n := by
      by_contra hge
      simp [step, tapStep, fwdStep, envStep, hge] at hs
    cases hsteps with
    | hostSend =>
        refine h j ⟨hread, ?_⟩ pid hpid ⟨by simp, by simpa using hmp⟩
        rw [modifyPort_of_ne s hne]
        exact hnil
  · rintro m hm hpid hwait j hne ⟨⟨m', hread⟩, hnil⟩
    obtain ⟨hmem, htap, -⟩ := mem_mp_of_frees hsteps hm
    have hhostif (k : ℕ) : (s'.ports k).hostif = (s.ports k).hostif := by
      rcases hostif_of_steps hsteps k with heq | ⟨rfl, -⟩ | ⟨frame, rfl, -⟩
      · exact heq
      · exact absurd hm List.not_mem_nil
      · exact absurd hm List.not_mem_nil
    refine h j ⟨⟨m', by rw [htap, hread]⟩, by rw [hhostif, hnil]⟩ m.pool hpid ⟨?_, ?_⟩
    · rwa [hhostif]
    · exact List.ne_nil_of_mem hmem

theorem tapInRange_step (h : Steps n s a s') (hs : TapInRange n s) : TapInRange n s' := by
  intro hn
  have hpid := hs hn
  have hnext (pid : ℕ) : nextPid n pid < n := by
    unfold nextPid
    split_ifs <;> omega
  cases h with
  | tapAllocNone hpc _ => rwa [hpc] at hpid
  | tapAlloc hpc _ => rwa [hpc] at hpid
  | tapRead hpc _ => rwa [hpc] at hpid
  | tapEnqueue => exact hnext _
  | tapEnqueueFull => exact hnext _
  | fwdFree => simpa using hpid
  | _ => exact hpid

/-! ### Runs -/

theorem mem_initPort_zero (pid : ℕ) : (⟨pid, 0⟩ : Mbuf) ∈ (initPort pid).mp :=
  mem_initPort.mpr ⟨rfl, Nat.zero_lt_succ _⟩

theorem mp_initState_ne_nil (mbufs : Mbuf → MbufData) (pid : ℕ) :
    ((initState mbufs).ports pid).mp ≠ [] :=
  List.ne_nil_of_mem (mem_initPort_zero pid)

theorem waits_hostSend {pid : ℕ} (hmp : (s.ports pid).mp ≠ []) (frame : Frame) :
    Waits (s.modifyPort pid fun p => { p with hostif := p.hostif ++ [frame] }) pid :=
  ⟨by simp, by simpa using hmp⟩

theorem tapInRange {ok : State → Act → Prop} {mbufs : Mbuf → MbufData}
    (h : Reachable (step n) ok (initState mbufs) s) : TapInRange n s := by
  refine h.induct (I := TapInRange n) (fun hn => hn) fun t a t' _ ht _ hs => ?_
  exact tapInRange_step (steps_of_step hs).2 ht

/-- **Enabledness**: in a run in which `tap_main` does not begin to read an idle port while
another port waits, and no other port begins to wait while it does, it is never blocked while
some port waits. -/
theorem tapServes_of_prompt {mbufs : Mbuf → MbufData}
    (h : Reachable (step n) (Prompt n) (initState mbufs) s) : TapServes n s := by
  intro hrun
  have hinv : Unblocked n s := by
    refine h.induct (I := Unblocked n) ?_ fun t a t' _ ht hok hs => ?_
    · rintro j ⟨⟨m, hpc⟩, -⟩
      cases hpc
    · exact unblocked_step (steps_of_step hs).2 hok ht
  exact (tapServes_iff (tapInRange h) hrun).mpr hinv hrun

/-- A run in which a frame waits for `tap_main` at the second of two ports. -/
theorem tapServes_of_prompt_send : ∃ s, Reachable (step 2) (Prompt 2)
    (initState fun _ => ⟨fun _ => 0, 0, 0⟩) s ∧ s.status = .running ∧ Waits s 1 ∧
      TapServes 2 s := by
  have hprompt : Prompt 2 (initState fun _ => ⟨fun _ => 0, 0, 0⟩) (.hostSend 1 arpRequest) := by
    refine ⟨?_, ?_, ?_⟩
    · rintro m pid ha
      cases ha
    · rintro pid frame - - j - ⟨⟨m, hpc⟩, -⟩
      cases hpc
    · rintro m hm
      cases hm
  have hsend := (Reachable.refl _).tail hprompt (step_hostSend rfl Nat.one_lt_two arpRequest)
  refine ⟨_, hsend, rfl, ?_, tapServes_of_prompt hsend⟩
  exact waits_hostSend (mp_initState_ne_nil _ 1) arpRequest

/-- The condition is exact at each step. -/
theorem tapServes_iff_prompt {mbufs : Mbuf → MbufData}
    (h : Reachable (step n) Always (initState mbufs) s) (hserves : TapServes n s)
    (hs : step n s a = some s') (hrun : s'.status = .running) :
    TapServes n s' ↔ Prompt n s a := by
  have hsteps := steps_of_step hs
  rw [tapServes_iff (tapInRange h) hsteps.1] at hserves
  rw [tapServes_iff (tapInRange (h.tail trivial hs)) hrun]
  constructor
  · exact prompt_of_unblocked hs
  · intro hok
    exact unblocked_step hsteps.2 hok hserves

/-- With one port `tap_main` is never blocked while a frame waits. -/
theorem tapServes_of_le_one {mbufs : Mbuf → MbufData} (hn : n ≤ 1)
    (h : Reachable (step n) Always (initState mbufs) s) : TapServes n s := by
  intro hrun
  refine (tapServes_iff (tapInRange h) hrun).mpr ?_ hrun
  rintro j ⟨⟨m, hpc⟩, hnil⟩ pid hpid ⟨hwait, -⟩
  have hj := tapInRange h (Nat.zero_lt_of_lt hpid)
  rw [hpc, TapPc.pid] at hj
  obtain rfl : pid = j := by omega
  exact hwait hnil

/-- With two ports it can be: it waits at the first one, and a frame comes to the second. -/
theorem not_tapServes : ∃ s, Reachable (step 2) Always (initState fun _ => ⟨fun _ => 0, 0, 0⟩) s ∧
    s.status = .running ∧ Waits s 1 ∧ ¬ TapServes 2 s := by
  have hinit : Reachable (step 2) Always (initState fun _ => ⟨fun _ => 0, 0, 0⟩) _ := .refl _
  have halloc := hinit.tail trivial (step_tapAlloc rfl rfl Nat.two_pos (mem_initPort_zero 0))
  have hsend := halloc.tail trivial (step_hostSend rfl Nat.one_lt_two arpRequest)
  refine ⟨_, hsend, rfl, ?_, ?_⟩
  · apply waits_hostSend
    rw [setTap_ports, modifyPort_of_ne _ Nat.one_ne_zero]
    exact mp_initState_ne_nil _ 1
  · rw [tapServes_iff (tapInRange hsend) rfl]
    intro hunblocked
    refine hunblocked 0 ⟨⟨⟨0, 0⟩, rfl⟩, ?_⟩ 1 Nat.one_lt_two (waits_hostSend ?_ _)
    · rw [modifyPort_of_ne _ Nat.zero_ne_one, setTap_ports, modifyPort_self]
      rfl
    · rw [setTap_ports, modifyPort_of_ne _ Nat.one_ne_zero]
      exact mp_initState_ne_nil _ 1

end Hspp
