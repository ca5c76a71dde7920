import Hspp.ForwarderCustody

/-! # When a pool runs dry

`tap_recv` uses what `rte_pktmbuf_alloc` returned without a look at it.  The pool of a port
is empty exactly when all its mbufs are in the ring, with the driver or in the burst of
`fwd_main` (`mp_eq_nil_iff`), and nothing holds `tap_main` back while they pile up there: if
`fwd_main` does not run, 8191 frames from the host are enough for a crash (`not_nullSafe`).
In runs in which `tap_main` only allocates while some mbuf is left, there is none
(`nullSafe_of_backed`). -/

namespace Hspp

open Custody Transition

/-- The mbufs of port `pid` that wait in its ring, that its driver owns, or that `fwd_main`
works on. -/
def outstanding (s : State) (pid : ℕ) : ℕ :=
  (s.ports pid).fromHostif.length + (s.ports pid).driver.length +
    s.fwd.held.countP (·.pool = pid)

/-- `tap_recv` did not use a null mbuf, and is not about to. -/
def NullSafe (s : State) : Prop := s.status ≠ .crashed ∧ ∀ pid, s.tap ≠ .read pid none

/-- If the action is an allocation, not all mbufs of the port are outstanding. -/
def Backed (s : State) (a : Act) : Prop :=
  ∀ m pid, a = .tapAlloc m → s.tap = .alloc pid → outstanding s pid < numMbufs

variable {n : ℕ} {s s' : State} {a : Act}

theorem mp_eq_nil_iff (h : Accounted s) {pid : ℕ} (hpc : s.tap = .alloc pid) :
    (s.ports pid).mp = [] ↔ outstanding s pid = numMbufs := by
  have htotal := h.total pid
  rw [hpc, TapPc.held, List.countP_nil] at htotal
  rw [← List.length_eq_zero_iff, outstanding]
  omega

/-! ### Runs that leave an mbuf -/

theorem nullSafe_step (hacc : Accounted s) (hok : Backed s a) (hsafe : NullSafe s)
    (h : Steps n s a s') : NullSafe s' := by
  cases h with
  | tapAllocNone hpc hempty =>
      have hlt := hok _ _ rfl hpc
      rw [(mp_eq_nil_iff hacc hpc).mp hempty] at hlt
      exact absurd hlt (lt_irrefl _)
  | tapAlloc => exact ⟨hsafe.1, by simp⟩
  | tapReadNull hpc => exact absurd hpc (hsafe.2 _)
  | tapRead => exact ⟨hsafe.1, by simp⟩
  | tapReadFail => exact ⟨by simp [State.setStatus], hsafe.2⟩
  | tapEnqueue => exact ⟨hsafe.1, by simp⟩
  | tapEnqueueFull => exact ⟨hsafe.1, by simp⟩
  | fwdWriteFail => exact ⟨by simp [State.setStatus], hsafe.2⟩
  | @fwdFree pid bufs i chain =>
      have hsame : (s.free chain).status = s.status ∧ (s.free chain).tap = s.tap := by simp
      unfold NullSafe at hsafe
      rwa [← hsame.1, ← hsame.2] at hsafe
  | _ => exact hsafe

/-- **Null safety**: in a run in which `tap_main` allocates for a port only while fewer than
`numMbufs` of its mbufs are outstanding, `tap_recv` never uses a null mbuf. -/
theorem nullSafe_of_backed {mbufs : Mbuf → MbufData}
    (h : Reachable (step n) Backed (initState mbufs) s) : NullSafe s := by
  refine h.induct (I := NullSafe) ⟨by simp [initState], by simp [initState]⟩ ?_
  exact fun t a t' hr hsafe hok hs =>
    nullSafe_step (accounted hr) hok hsafe (steps_of_step hs).2

/-- A run with an allocation. -/
theorem nullSafe_of_backed_alloc : ∃ s, Reachable (step 1) Backed
    (initState fun _ => ⟨fun _ => 0, 0, 0⟩) s ∧ s.tap = .read 0 (some ⟨0, 0⟩) ∧ NullSafe s := by
  have hm : (⟨0, 0⟩ : Mbuf) ∈ (initPort 0).mp := mem_initPort.mpr ⟨rfl, by decide⟩
  have hbacked : Backed (initState fun _ => ⟨fun _ => 0, 0, 0⟩) (.tapAlloc (some ⟨0, 0⟩)) := by
    rintro _ pid - -
    exact Nat.zero_lt_succ _
  have halloc := (Reachable.refl _).tail hbacked (step_tapAlloc (n := 1) rfl rfl Nat.one_pos hm)
  exact ⟨_, halloc, rfl, nullSafe_of_backed halloc⟩

/-! ### Runs that leave none -/

theorem step_tapAlloc_none {pid : ℕ} (hrun : s.status = .running) (hpc : s.tap = .alloc pid)
    (hpid : pid < n) (hempty : (s.ports pid).mp = []) :
    step n s (.tapAlloc none) = some (s.setTap (.read pid none)) := by
  simp [step, tapStep, hrun, hpc, hpid, hempty]

theorem step_tapRead_none {pid : ℕ} (hrun : s.status = .running) (hpc : s.tap = .read pid none)
    (ok : Bool) : step n s (.tapRead ok) = some (s.setStatus .crashed) := by
  simp [step, tapStep, hrun, hpc]

/-- The bound on the mbufs outstanding is exact. -/
theorem nullSafe_tapAlloc_iff {mbufs : Mbuf → MbufData} {pid : ℕ}
    (h : Reachable (step n) Always (initState mbufs) s) (hrun : s.status = .running)
    (hpc : s.tap = .alloc pid) (hpid : pid < n) :
    (∀ m s', step n s (.tapAlloc m) = some s' → NullSafe s') ↔ outstanding s pid < numMbufs := by
  have hacc := accounted h
  constructor
  · intro hsafe
    have hle := hacc.total pid
    by_contra hlt
    have hempty : (s.ports pid).mp = [] := by
      rw [mp_eq_nil_iff hacc hpc]
      unfold outstanding at hlt ⊢
      omega
    exact (hsafe _ _ (step_tapAlloc_none hrun hpc hpid hempty)).2 pid rfl
  · intro hlt m s' hs
    refine nullSafe_step hacc ?_ ⟨by simp [hrun], by simp [hpc]⟩ (steps_of_step hs).2
    rintro _ j - hj
    rw [hpc] at hj
    cases hj
    exact hlt

/-- As long as `fwd_main` does not run, every frame from the host takes another mbuf. -/
theorem reachable_rounds (mbufs : Mbuf → MbufData) : ∀ k, k ≤ numMbufs →
    ∃ s, Reachable (step 1) Always (initState mbufs) s ∧ s.status = .running ∧
      s.tap = .alloc 0 ∧ (s.ports 0).mp = (initPort 0).mp.drop k ∧
      (s.ports 0).fromHostif.length = k ∧ (s.ports 0).hostif = []
  | 0, _ => ⟨_, .refl _, rfl, rfl, rfl, rfl, rfl⟩
  | k + 1, hk => by
      obtain ⟨s, hs, hrun, hpc, hmp, hring, hwait⟩ := reachable_rounds mbufs k (by omega)
      have hlen : k < (initPort 0).mp.length := by
        rw [initPort, List.length_map, List.length_range]
        omega
      rw [List.drop_eq_getElem_cons hlen] at hmp
      have hroom : (s.ports 0).fromHostif.length < ringSize - 1 := by
        rw [hring]
        unfold numMbufs at hk
        unfold ringSize
        omega
      obtain ⟨t, ht, hrun', hpc', -, hmp', hring', hwait'⟩ :=
        reachable_tapRound hrun hpc Nat.one_pos (by rw [hmp]; exact .head _) hwait hroom arpRequest
      refine ⟨t, hs.trans ht, hrun', hpc', ?_, ?_, hwait'⟩
      · rw [hmp', hmp, List.erase_cons_head]
      · rw [hring', List.length_append, hring, List.length_singleton]

/-- After as many frames as there are mbufs `tap_recv` uses a null mbuf. -/
theorem not_nullSafe : ∃ s, Reachable (step 1) Always (initState fun _ => ⟨fun _ => 0, 0, 0⟩) s ∧
    s.status = .crashed ∧ ¬ NullSafe s := by
  obtain ⟨s, hs, hrun, hpc, hmp, -⟩ :=
    reachable_rounds (fun _ => ⟨fun _ => 0, 0, 0⟩) numMbufs le_rfl
  have hempty : (s.ports 0).mp = [] := by
    rw [hmp, List.drop_eq_nil_iff, initPort, List.length_map, List.length_range]
  have halloc := hs.tail trivial (step_tapAlloc_none hrun hpc Nat.one_pos hempty)
  have hread := halloc.tail trivial (step_tapRead_none (s := s.setTap (.read 0 none)) hrun rfl true)
  exact ⟨_, hread, rfl, fun hsafe => hsafe.1 rfl⟩

end Hspp
