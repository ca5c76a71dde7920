import Hspp.Lib.Custody
import Hspp.Forwarder

/-! # Where the mbufs are

The lists of a state and the variables of the threads are places of mbufs (`view`), and
every step moves some mbufs from one place to another of the same port (`moved_of_steps`):
the system refines the tokens of `Custody`.  This needs that the ring has room when
`tap_main` enqueues, which follows from the numbers: the mbufs in the ring and the one in
hand are different mbufs of a pool of 8191, and the ring has 8191 places.

So each mbuf is in one place at every moment, a thread only touches mbufs it holds, and the
unchecked enqueue never fails (`forwarder_custody`). -/

namespace Hspp

open Custody Transition

/-- The places of mbufs. -/
inductive Place where
  | pool (pid : ℕ)
  | ring (pid : ℕ)
  | driver (pid : ℕ)
  | tap
  | fwd
deriving DecidableEq, Repr

/-- The mbufs that `tap_main` holds. -/
def TapPc.held : TapPc → List Mbuf
  | .alloc _ => []
  | .read _ m => m.toList
  | .enqueue _ m => [m]

/-- The mbufs that `fwd_main` holds: what is left of its burst. -/
def FwdPc.held : FwdPc → List Mbuf
  | .ringEmpty _ => []
  | .dequeueBurst _ => []
  | .txBurst _ mbufs i => mbufs.drop i
  | .txFree _ mbufs i => mbufs.drop i
  | .rxBurst _ => []
  | .input _ bufs i => (bufs.drop i).flatten
  | .write _ bufs i => (bufs.drop i).flatten
  | .free _ bufs i => (bufs.drop i).flatten

def TapPc.pid : TapPc → ℕ
  | .alloc pid => pid
  | .read pid _ => pid
  | .enqueue pid _ => pid

def FwdPc.pid : FwdPc → ℕ
  | .ringEmpty pid => pid
  | .dequeueBurst pid => pid
  | .txBurst pid _ _ => pid
  | .txFree pid _ _ => pid
  | .rxBurst pid => pid
  | .input pid _ _ => pid
  | .write pid _ _ => pid
  | .free pid _ _ => pid

/-- What is where in a state. -/
def view (s : State) : Place → Multiset Mbuf
  | .pool pid => (s.ports pid).mp
  | .ring pid => (s.ports pid).fromHostif
  | .driver pid => (s.ports pid).driver
  | .tap => s.tap.held
  | .fwd => s.fwd.held

/-- The port a place belongs to, or that a thread works on. -/
def Place.port (s : State) : Place → ℕ
  | .pool pid => pid
  | .ring pid => pid
  | .driver pid => pid
  | .tap => s.tap.pid
  | .fwd => s.fwd.pid

/-- Every mbuf is in the hands of its own port. -/
def Home (s : State) : Prop := ∀ place, ∀ m ∈ view s place, m.pool = place.port s

/-- The ring has room for what `tap_main` enqueues. -/
def HasRoom (s : State) : Prop :=
  ∀ pid m, s.tap = .enqueue pid m → (s.ports pid).fromHostif.length < ringSize - 1

variable {n : ℕ} {s s' : State} {a : Act}

/-! ### Freeing -/

theorem free_frame : ∀ (chain : List Mbuf) (s : State), (s.free chain).tap = s.tap ∧
    (s.free chain).mbufs = s.mbufs ∧ (s.free chain).status = s.status
  | [], _ => ⟨rfl, rfl, rfl⟩
  | m :: chain, s => free_frame chain (s.freeSeg m)

@[simp] theorem free_tap (s : State) (chain : List Mbuf) : (s.free chain).tap = s.tap :=
  (free_frame chain s).1

@[simp] theorem free_mbufs (s : State) (chain : List Mbuf) : (s.free chain).mbufs = s.mbufs :=
  (free_frame chain s).2.1

@[simp] theorem free_status (s : State) (chain : List Mbuf) :
    (s.free chain).status = s.status := (free_frame chain s).2.2

/-- Freeing changes nothing of a port but its pool. -/
theorem free_congr {β : Type*} (field : Port → β)
    (hfield : ∀ (p : Port) (mp : List Mbuf), field { p with mp := mp } = field p) (pid : ℕ) :
    ∀ (chain : List Mbuf) (s : State), field ((s.free chain).ports pid) = field (s.ports pid)
  | [], _ => rfl
  | m :: chain, s =>
      (free_congr field hfield pid chain (s.freeSeg m)).trans (update_congr field (hfield _ _) pid)

/-- Freeing mbufs of port `pid` puts them into its pool. -/
theorem free_eq {pid : ℕ} : ∀ (chain : List Mbuf) (s : State), (∀ m ∈ chain, m.pool = pid) →
    s.free chain = s.modifyPort pid fun p => { p with mp := chain.reverse ++ p.mp }
  | [], s, _ => by
      simp [State.free, State.modifyPort]
  | m :: chain, s, h => by
      have hm := h m (.head _)
      have ih := free_eq chain (s.freeSeg m) fun m' hm' => h m' (.tail _ hm')
      rw [State.free] at ih ⊢
      rw [List.foldl_cons, ih]
      simp [State.freeSeg, State.modifyPort, hm]

/-! ### The places of a thread -/

@[simp] theorem held_txLoop (pid : ℕ) (mbufs : List Mbuf) (i : ℕ) :
    (txLoop pid mbufs i).held = mbufs.drop i := by
  unfold txLoop
  split_ifs with h
  · rfl
  · exact (List.drop_eq_nil_of_le (by omega)).symm

@[simp] theorem held_inputLoop (n pid : ℕ) (bufs : List (List Mbuf)) (i : ℕ) :
    (inputLoop n pid bufs i).held = (bufs.drop i).flatten := by
  unfold inputLoop
  split_ifs with h
  · rfl
  · rw [List.drop_eq_nil_of_le (by omega)]
    rfl

@[simp] theorem pid_txLoop (pid : ℕ) (mbufs : List Mbuf) (i : ℕ) :
    (txLoop pid mbufs i).pid = pid := by
  unfold txLoop
  split_ifs <;> rfl

theorem pid_inputLoop (n pid : ℕ) (bufs : List (List Mbuf)) (i : ℕ) :
    (inputLoop n pid bufs i).pid = pid ∨ (inputLoop n pid bufs i).held = [] := by
  unfold inputLoop
  split_ifs
  · exact .inl rfl
  · exact .inr rfl

/-- A thread only turns to another port with empty hands. -/
theorem pid_of_steps (h : Steps n s a s') :
    (s'.tap.pid = s.tap.pid ∨ s'.tap.held = []) ∧ (s'.fwd.pid = s.fwd.pid ∨ s'.fwd.held = []) := by
  cases h with
  | tapAllocNone hpc _ => exact ⟨.inl (by rw [hpc]; rfl), .inl rfl⟩
  | tapAlloc hpc _ => exact ⟨.inl (by rw [hpc]; rfl), .inl rfl⟩
  | tapRead hpc _ => exact ⟨.inl (by rw [hpc]; rfl), .inl rfl⟩
  | tapEnqueue => exact ⟨.inr rfl, .inl rfl⟩
  | tapEnqueueFull => exact ⟨.inr rfl, .inl rfl⟩
  | fwdRingEmpty hpc hnext =>
      refine ⟨.inl rfl, .inl ?_⟩
      rcases hnext with rfl | rfl <;> rw [hpc] <;> rfl
  | fwdDequeueBurst hpc => exact ⟨.inl rfl, .inl (by rw [hpc]; exact pid_txLoop ..)⟩
  | fwdTxBurst hpc _ => exact ⟨.inl rfl, .inl (by rw [hpc]; exact pid_txLoop ..)⟩
  | fwdTxBurstFail hpc _ => exact ⟨.inl rfl, .inl (by rw [hpc]; rfl)⟩
  | fwdTxFree hpc _ => exact ⟨.inl rfl, .inl (by rw [hpc]; exact pid_txLoop ..)⟩
  | fwdRxBurst hpc _ => exact ⟨.inl rfl, by rw [hpc]; exact pid_inputLoop ..⟩
  | fwdInput hpc _ hnext =>
      refine ⟨.inl rfl, .inl ?_⟩
      subst hnext
      rw [hpc, setFwd_fwd]
      split_ifs <;> rfl
  | fwdWrite hpc _ => exact ⟨.inl rfl, .inl (by rw [hpc]; rfl)⟩
  | fwdFree hpc _ => exact ⟨.inl (by simp), by rw [hpc]; exact pid_inputLoop ..⟩
  | _ => exact ⟨.inl rfl, .inl rfl⟩

/-! ### Every step is a move -/

theorem drop_of_getElem? {α : Type*} {l : List α} {i : ℕ} {x : α} (h : l[i]? = some x) :
    l.drop i = x :: l.drop (i + 1) := by
  obtain ⟨hi, rfl⟩ := List.getElem?_eq_some_iff.mp h
  exact List.drop_eq_getElem_cons hi

theorem coe_eq_erase_add {α : Type*} [DecidableEq α] {l : List α} {x : α} (h : x ∈ l) :
    (l : Multiset α) = ↑(l.erase x) + {x} := by
  rw [← Multiset.coe_erase, add_comm, Multiset.singleton_add, Multiset.cons_erase (by simpa)]

theorem coe_cons_eq_add {α : Type*} (x : α) (l : List α) :
    ((x :: l : List α) : Multiset α) = ↑l + {x} := by
  rw [← Multiset.cons_coe, add_comm, Multiset.singleton_add]

theorem coe_eq_diff_add {α : Type*} [DecidableEq α] {l l' : List α} (h : l'.Subperm l) :
    (l : Multiset α) = ↑(l.diff l') + ↑l' := by
  rw [add_comm, Multiset.coe_add, Multiset.coe_eq_coe]
  exact (List.subperm_append_diff_self_of_count_le (List.subperm_ext_iff.mp h)).symm

/-- Some mbufs went from one place to another, of the same port. -/
def Moved (s s' : State) : Prop :=
  ∃ p q ts, Moves (view s) (view s') p q ts ∧ p.port s = q.port s

/-- The places that a step for port `pid` can change. -/
def places (pid : ℕ) : List Place := [.pool pid, .ring pid, .driver pid, .tap, .fwd]

theorem view_of_not_mem {pid : ℕ} (hports : ∀ j, j ≠ pid → s'.ports j = s.ports j) {r : Place}
    (hr : r ∉ places pid) : view s' r = view s r := by
  simp only [places, List.mem_cons, List.not_mem_nil, or_false, not_or] at hr
  obtain ⟨hpool, hring, hdriver, htap, hfwd⟩ := hr
  cases r with
  | pool j => simp only [view, hports j fun h => hpool (h ▸ rfl)]
  | ring j => simp only [view, hports j fun h => hring (h ▸ rfl)]
  | driver j => simp only [view, hports j fun h => hdriver (h ▸ rfl)]
  | tap => exact absurd rfl htap
  | fwd => exact absurd rfl hfwd

theorem moved_of_port (pid : ℕ) (p q : Place) (ts : Multiset Mbuf)
    (hports : ∀ j, j ≠ pid → s'.ports j = s.ports j) (hne : p ≠ q) (hpid : p.port s = q.port s)
    (hsource : view s p = view s' p + ts) (htarget : view s' q = view s q + ts)
    (hother : ∀ r ∈ places pid, r ≠ p → r ≠ q → view s' r = view s r) : Moved s s' := by
  refine ⟨p, q, ts, ⟨hne, hsource, htarget, fun r hp hq => ?_⟩, hpid⟩
  by_cases hr : r ∈ places pid
  · exact hother r hr hp hq
  · exact view_of_not_mem hports hr

theorem moved_of_same (pid : ℕ) (hports : ∀ j, j ≠ pid → s'.ports j = s.ports j)
    (hsame : ∀ r ∈ places pid, view s' r = view s r) : Moved s s' := by
  refine ⟨.pool 0, .ring 0, 0, Moves.of_eq (by simp) (funext fun r => ?_), rfl⟩
  by_cases hr : r ∈ places pid
  · exact hsame r hr
  · exact view_of_not_mem hports hr

/-- `fwd_main` frees some of the mbufs it holds. -/
theorem moved_free (pid : ℕ) {chain rest : List Mbuf} (hheld : s.fwd.held = chain ++ rest)
    (hpid : s.fwd.pid = pid) (hports : ∀ j, j ≠ pid → s'.ports j = s.ports j)
    (hmp : (s'.ports pid).mp = chain.reverse ++ (s.ports pid).mp)
    (hring : (s'.ports pid).fromHostif = (s.ports pid).fromHostif)
    (hdriver : (s'.ports pid).driver = (s.ports pid).driver) (htap : s'.tap = s.tap)
    (hrest : s'.fwd.held = rest) : Moved s s' := by
  apply moved_of_port pid .fwd (.pool pid) (chain : List Mbuf) hports (by simp) hpid
  · simp only [view, hheld, hrest]
    rw [← Multiset.coe_add, add_comm]
  · simp only [view, hmp]
    rw [← Multiset.coe_add, Multiset.coe_reverse, add_comm]
  · simp [places, view, hring, hdriver, htap]

/-- **Refinement**: every step moves mbufs from one place of a port to another. -/
theorem moved_of_steps (hhome : Home s) (hroom : HasRoom s) (h : Steps n s a s') :
    Moved s s' := by
  cases h with
  | tapAllocNone hpc hempty =>
      exact moved_of_same 0 (fun _ _ => rfl) (by simp [places, view, hpc, TapPc.held])
  | @tapAlloc pid m hpc hm =>
      refine moved_of_port pid (.pool pid) .tap {m} ?_ (by simp)
        (by simp [Place.port, hpc, TapPc.pid]) ?_ ?_ (by simp [places, view])
      · exact fun j hj => Function.update_of_ne hj ..
      · simp only [view, setTap_ports, modifyPort_self]
        exact coe_eq_erase_add hm
      · simp [view, hpc, TapPc.held]
  | tapReadNull hpc => exact moved_of_same 0 (fun _ _ => rfl) (fun _ _ => rfl)
  | @tapRead pid m frame frames hpc hwait =>
      apply moved_of_same pid (fun j hj => Function.update_of_ne hj ..)
      simp [places, view, hpc, TapPc.held]
  | tapReadFail hpc => exact moved_of_same 0 (fun _ _ => rfl) (fun _ _ => rfl)
  | @tapEnqueue pid m hpc _ =>
      refine moved_of_port pid .tap (.ring pid) {m} ?_ (by simp)
        (by simp [Place.port, hpc, TapPc.pid]) ?_ ?_ (by simp [places, view])
      · exact fun j hj => Function.update_of_ne hj ..
      · simp [view, hpc, TapPc.held]
      · simp only [view, setTap_ports, modifyPort_self]
        exact (Multiset.coe_add _ [m]).symm
  | tapEnqueueFull hpc hfull => exact absurd (hroom _ _ hpc) hfull
  | fwdRingEmpty hpc hnext =>
      refine moved_of_same 0 (fun _ _ => rfl) ?_
      rcases hnext with rfl | rfl <;> simp [places, view, hpc, FwdPc.held]
  | @fwdDequeueBurst pid hpc =>
      have hheld : s.fwd.held = [] := by rw [hpc]; rfl
      refine moved_of_port pid (.ring pid) .fwd
        ((s.ports pid).fromHostif.take burstSize : List Mbuf) ?_ (by simp)
        (by simp [Place.port, hpc, FwdPc.pid]) ?_ ?_ (by simp [places, view])
      · exact fun j hj => Function.update_of_ne hj ..
      · simp only [view, setFwd_ports, modifyPort_self]
        rw [add_comm, Multiset.coe_add, List.take_append_drop]
      · simp [view, hheld]
  | @fwdTxBurst pid mbufs i m hpc hm =>
      have hheld : s.fwd.held = m :: mbufs.drop (i + 1) := by
        rw [hpc]
        exact drop_of_getElem? hm
      refine moved_of_port pid .fwd (.driver pid) {m} ?_ (by simp)
        (by simp [Place.port, hpc, FwdPc.pid]) ?_ ?_ (by simp [places, view])
      · exact fun j hj => Function.update_of_ne hj ..
      · simp only [view, hheld, setFwd_fwd, held_txLoop]
        exact coe_cons_eq_add m _
      · simp only [view, setFwd_ports, modifyPort_self]
        exact coe_cons_eq_add m _
  | @fwdTxBurstFail pid mbufs i m hpc hm =>
      apply moved_of_same pid (fun j hj => Function.update_of_ne hj ..)
      simp [places, view, hpc, FwdPc.held]
  | @fwdTxFree pid mbufs i m hpc hm =>
      have hheld : s.fwd.held = [m] ++ mbufs.drop (i + 1) := by
        rw [hpc]
        exact drop_of_getElem? hm
      have hpool : m.pool = pid := by
        have := hhome .fwd m (by simp [view, hheld])
        rwa [Place.port, hpc] at this
      rw [free_eq [m] s (by simpa)]
      refine moved_free pid hheld (by rw [hpc]; rfl) (fun j hj => ?_) (by simp) (by simp) (by simp)
        ?_ (by simp)
      · rw [setFwd_ports, modifyPort_of_ne _ hj, modifyPort_of_ne _ hj]
      · rfl
  | @fwdRxBurst pid bufs hpc hbufs =>
      have hheld : s.fwd.held = [] := by rw [hpc]; rfl
      refine moved_of_port pid (.driver pid) .fwd
        (bufs.flatten : List Mbuf) ?_ (by simp) (by simp [Place.port, hpc, FwdPc.pid])
        ?_ ?_ (by simp [places, view])
      · exact fun j hj => Function.update_of_ne hj ..
      · simp only [view, setFwd_ports, modifyPort_self]
        exact coe_eq_diff_add hbufs.2.2
      · simp [view, hheld]
  | fwdInput hpc hm hnext =>
      refine moved_of_same 0 (fun _ _ => rfl) ?_
      subst hnext
      split_ifs <;> simp [places, view, hpc, FwdPc.held]
  | @fwdWrite pid bufs i m segs hpc hm =>
      apply moved_of_same pid (fun j hj => Function.update_of_ne hj ..)
      simp [places, view, hpc, FwdPc.held]
  | fwdWriteFail hpc => exact moved_of_same 0 (fun _ _ => rfl) (fun _ _ => rfl)
  | @fwdFree pid bufs i chain hpc hm =>
      have hheld : s.fwd.held = chain ++ (bufs.drop (i + 1)).flatten := by
        rw [hpc, FwdPc.held, drop_of_getElem? hm, List.flatten_cons]
      have hpool : ∀ m ∈ chain, m.pool = pid := by
        intro m hm
        have := hhome .fwd m (by simp [view, hheld, hm])
        rwa [Place.port, hpc] at this
      rw [free_eq chain s hpool]
      refine moved_free pid hheld (by rw [hpc]; rfl) (fun j hj => ?_) (by simp) (by simp) (by simp)
        ?_ (by simp)
      · rw [setFwd_ports, modifyPort_of_ne _ hj]
      · rfl
  | @hostSend pid frame =>
      apply moved_of_same pid (fun j hj => Function.update_of_ne hj ..)
      simp [places, view]
  | @driverTake pid m hm =>
      refine moved_of_port pid (.pool pid) (.driver pid) {m} ?_
        (by simp) rfl ?_ ?_ (by simp [places, view])
      · exact fun j hj => Function.update_of_ne hj ..
      · simp only [view, modifyPort_self]
        exact coe_eq_erase_add hm
      · simp only [view, modifyPort_self]
        exact coe_cons_eq_add m _
  | @driverFree pid m hm =>
      have hpool : m.pool = pid := hhome (.driver pid) m hm
      rw [free_eq [m] _ (by simpa)]
      refine moved_of_port pid (.driver pid) (.pool pid) {m} ?_
        (by simp) rfl ?_ ?_ (by simp [places, view])
      · intro j hj
        rw [modifyPort_of_ne _ hj, modifyPort_of_ne _ hj]
      · simp only [view, modifyPort_self]
        exact coe_eq_erase_add hm
      · simp only [view, modifyPort_self]
        exact coe_cons_eq_add m _
  | driverWrite hm => exact moved_of_same 0 (fun _ _ => rfl) (fun _ _ => rfl)

/-! ### The invariant -/

/-- The mbufs of the pools are in one place each, of their own port, and there are no
others. -/
structure Accounted (s : State) : Prop where
  sole : ∀ m : Mbuf, m.idx < numMbufs → ∃ r, Sole (view s) m r
  real : ∀ r, ∀ m ∈ view s r, m.idx < numMbufs
  home : Home s

/-- The mbufs of the pool of a port. -/
def poolMbufs (pid : ℕ) : Finset Mbuf := (Finset.range numMbufs).image (Mbuf.mk pid)

theorem card_poolMbufs (pid : ℕ) : (poolMbufs pid).card = numMbufs := by
  rw [poolMbufs, Finset.card_image_of_injective _ fun _ _ h => (Mbuf.mk.inj h).2,
    Finset.card_range]

theorem mem_poolMbufs {pid : ℕ} {m : Mbuf} :
    m ∈ poolMbufs pid ↔ m.pool = pid ∧ m.idx < numMbufs := by
  simp only [poolMbufs, Finset.mem_image, Finset.mem_range]
  constructor
  · rintro ⟨i, hi, rfl⟩
    exact ⟨rfl, hi⟩
  · rintro ⟨rfl, hi⟩
    exact ⟨m.idx, hi, rfl⟩

theorem Accounted.sole_of_pool (h : Accounted s) {pid : ℕ} {m : Mbuf} (hm : m ∈ poolMbufs pid) :
    ∃ r, Sole (view s) m r := by
  rw [mem_poolMbufs] at hm
  exact h.sole m hm.2

theorem Accounted.sole_of_mem (h : Accounted s) {r : Place} {m : Mbuf} (hm : m ∈ view s r) :
    Sole (view s) m r := by
  obtain ⟨r', hr'⟩ := h.sole m (h.real r m hm)
  rwa [hr'.eq_of_mem hm]

/-- The mbufs of a place that belong to port `pid`. -/
theorem Accounted.filter_view (h : Accounted s) (pid : ℕ) (r : Place) :
    (view s r).filter (· ∈ poolMbufs pid) = (view s r).filter (·.pool = pid) := by
  refine Multiset.filter_congr fun m hm => ?_
  rw [mem_poolMbufs]
  exact ⟨fun hmem => hmem.1, fun hpool => ⟨hpool, h.real r m hm⟩⟩

theorem Accounted.filter_eq_self (h : Accounted s) (pid : ℕ) {r : Place} (hr : r.port s = pid) :
    (view s r).filter (· ∈ poolMbufs pid) = view s r := by
  rw [h.filter_view, Multiset.filter_eq_self]
  exact fun m hm => (h.home r m hm).trans hr

/-- **Conservation**: the mbufs of port `pid` in its pool, its ring, its driver and the two
threads are always as many as the pool had. -/
theorem Accounted.total (h : Accounted s) (pid : ℕ) :
    (s.ports pid).mp.length + (s.ports pid).fromHostif.length + (s.ports pid).driver.length +
      s.tap.held.countP (·.pool = pid) + s.fwd.held.countP (·.pool = pid) = numMbufs := by
  have hsole : ∀ m ∈ poolMbufs pid,
      ∃ r ∈ ({.pool pid, .ring pid, .driver pid, .tap, .fwd} : Finset Place),
        Sole (view s) m r := by
    intro m hm
    obtain ⟨r, hr⟩ := h.sole_of_pool hm
    have hport : r.port s = pid := by
      rw [← h.home r m hr.mem, (mem_poolMbufs.mp hm).1]
    refine ⟨r, ?_, hr⟩
    cases r <;> simp_all [Place.port]
  have hsum := sum_card hsole
  rw [card_poolMbufs, Finset.sum_insert (by simp), Finset.sum_insert (by simp),
    Finset.sum_insert (by simp), Finset.sum_insert (by simp), Finset.sum_singleton,
    h.filter_eq_self pid (r := .pool pid) rfl, h.filter_eq_self pid (r := .ring pid) rfl,
    h.filter_eq_self pid (r := .driver pid) rfl, h.filter_view pid .tap, h.filter_view pid .fwd,
    ← Multiset.countP_eq_card_filter, ← Multiset.countP_eq_card_filter] at hsum
  simp only [view, Multiset.coe_card, Multiset.coe_countP] at hsum
  rw [← hsum]
  simp only [add_assoc]

/-- The ring never fills up: it and `tap_main` share the mbufs of one pool. -/
theorem Accounted.hasRoom (h : Accounted s) : HasRoom s := by
  intro pid m hpc
  have hpool : m.pool = pid := by
    have := h.home .tap m (by simp [view, hpc, TapPc.held])
    rwa [Place.port, hpc] at this
  have htotal := h.total pid
  simp only [hpc, TapPc.held, List.countP_singleton, hpool] at htotal
  simp only [decide_true, if_true, numMbufs] at htotal
  unfold ringSize
  omega

theorem mem_initPort {pid : ℕ} {m : Mbuf} :
    m ∈ (initPort pid).mp ↔ m.pool = pid ∧ m.idx < numMbufs := by
  simp only [initPort, List.mem_map, List.mem_range]
  constructor
  · rintro ⟨i, hi, rfl⟩
    exact ⟨rfl, hi⟩
  · rintro ⟨rfl, hi⟩
    exact ⟨m.idx, hi, rfl⟩

theorem nodup_initPort (pid : ℕ) : (initPort pid).mp.Nodup := by
  have hinj : Function.Injective fun idx => (⟨pid, idx⟩ : Mbuf) := fun _ _ h => (Mbuf.mk.inj h).2
  simp only [initPort]
  exact List.Nodup.map hinj List.nodup_range

theorem view_initState (mbufs : Mbuf → MbufData) (r : Place) :
    view (initState mbufs) r = match r with
      | .pool pid => ((initPort pid).mp : Multiset Mbuf)
      | _ => 0 := by
  cases r <;> rfl

theorem mem_view_initState {mbufs : Mbuf → MbufData} {r : Place} {m : Mbuf}
    (hm : m ∈ view (initState mbufs) r) : r = .pool m.pool ∧ m.idx < numMbufs := by
  rw [view_initState] at hm
  cases r with
  | pool pid =>
      rw [Multiset.mem_coe, mem_initPort] at hm
      exact ⟨by rw [hm.1], hm.2⟩
  | _ => exact absurd hm (Multiset.notMem_zero m)

theorem accounted_init (mbufs : Mbuf → MbufData) : Accounted (initState mbufs) := by
  refine ⟨fun m hm => ⟨.pool m.pool, ?_, fun r hr => ?_⟩,
    fun r m hm => (mem_view_initState hm).2, fun r m hm => ?_⟩
  · have hmem : m ∈ (initPort m.pool).mp := by
      rw [mem_initPort]
      exact ⟨rfl, hm⟩
    rw [view_initState]
    exact Multiset.count_eq_one_of_mem (nodup_initPort m.pool) hmem
  · exact Multiset.count_eq_zero.mpr fun hmem => hr (mem_view_initState hmem).1
  · rw [(mem_view_initState hm).1]
    rfl

/-- A place keeps its port as long as it is not empty. -/
theorem port_of_steps (h : Steps n s a s') {r : Place} {m : Mbuf} (hm : m ∈ view s' r) :
    r.port s' = r.port s := by
  have hpid := pid_of_steps h
  cases r with
  | tap =>
      rcases hpid.1 with hsame | hnil
      · exact hsame
      · simp [view, hnil] at hm
  | fwd =>
      rcases hpid.2 with hsame | hnil
      · exact hsame
      · simp [view, hnil] at hm
  | _ => rfl

theorem Accounted.of_steps (h : Accounted s) (hs : Steps n s a s') : Accounted s' := by
  obtain ⟨p, q, ts, hmoves, hport⟩ := moved_of_steps h.home h.hasRoom hs
  refine ⟨fun m hm => ?_, fun r m hm => ?_, fun r m hm => ?_⟩
  · obtain ⟨r, hr⟩ := h.sole m hm
    exact ⟨_, hmoves.sole hr⟩
  · rcases hmoves.mem hm with hm | ⟨-, hm⟩
    · exact h.real r m hm
    · exact h.real p m hm
  · rw [port_of_steps hs hm]
    rcases hmoves.mem hm with hm | ⟨rfl, hm⟩
    · exact h.home r m hm
    · rw [h.home p m hm, hport]

theorem accounted {ok : State → Act → Prop} {mbufs : Mbuf → MbufData}
    (h : Reachable (step n) ok (initState mbufs) s) : Accounted s :=
  h.induct (accounted_init mbufs) fun _ _ _ _ hinv _ hs => hinv.of_steps (steps_of_step hs).2

/-! ### What the threads do with the mbufs -/

/-- The mbufs that the next call of `tap_main` reads, writes or hands on. -/
def TapPc.uses : TapPc → List Mbuf
  | .alloc _ => []
  | .read _ m => m.toList
  | .enqueue _ m => [m]

/-- The mbufs that the next call of `fwd_main` reads, hands on or frees. -/
def FwdPc.uses : FwdPc → List Mbuf
  | .txBurst _ mbufs i => mbufs[i]?.toList
  | .txFree _ mbufs i => mbufs[i]?.toList
  | .input _ bufs i => bufs[i]?.getD []
  | .write _ bufs i => bufs[i]?.getD []
  | .free _ bufs i => bufs[i]?.getD []
  | _ => []

/-- The mbufs that a call frees. -/
def frees (s : State) : Act → List Mbuf
  | .fwdTxFree => match s.fwd with
      | .txFree _ mbufs i => mbufs[i]?.toList
      | _ => []
  | .fwdFree => match s.fwd with
      | .free _ bufs i => bufs[i]?.getD []
      | _ => []
  | .driverFree _ m => [m]
  | _ => []

theorem flatten_getD_sublist (bufs : List (List Mbuf)) (i : ℕ) :
    (bufs[i]?.getD []).Sublist (bufs.drop i).flatten := by
  cases hi : bufs[i]? with
  | none => exact List.nil_sublist _
  | some chain =>
      rw [drop_of_getElem? hi, List.flatten_cons]
      exact List.sublist_append_left ..

theorem toList_sublist (mbufs : List Mbuf) (i : ℕ) : mbufs[i]?.toList.Sublist (mbufs.drop i) := by
  cases hi : mbufs[i]? with
  | none => exact List.nil_sublist _
  | some m =>
      rw [drop_of_getElem? hi]
      exact (List.nil_sublist _).cons_cons m

theorem TapPc.uses_sublist (pc : TapPc) : pc.uses.Sublist pc.held := by
  cases pc <;> exact List.Sublist.refl _

theorem FwdPc.uses_sublist (pc : FwdPc) : pc.uses.Sublist pc.held := by
  cases pc with
  | txBurst pid mbufs i => exact toList_sublist mbufs i
  | txFree pid mbufs i => exact toList_sublist mbufs i
  | input pid bufs i => exact flatten_getD_sublist bufs i
  | write pid bufs i => exact flatten_getD_sublist bufs i
  | free pid bufs i => exact flatten_getD_sublist bufs i
  | _ => exact List.nil_sublist _

theorem Accounted.sole_tap (h : Accounted s) {m : Mbuf} (hm : m ∈ s.tap.uses) :
    Sole (view s) m .tap :=
  h.sole_of_mem (r := .tap) (s.tap.uses_sublist.subset hm)

theorem Accounted.sole_fwd (h : Accounted s) {m : Mbuf} (hm : m ∈ s.fwd.uses) :
    Sole (view s) m .fwd :=
  h.sole_of_mem (r := .fwd) (s.fwd.uses_sublist.subset hm)

theorem Accounted.nodup_fwd (h : Accounted s) : s.fwd.uses.Nodup := by
  refine List.Nodup.sublist s.fwd.uses_sublist (List.nodup_iff_count_le_one.mpr fun m => ?_)
  by_cases hm : m ∈ s.fwd.held
  · have hsole := h.sole_of_mem (r := .fwd) hm
    rw [← Multiset.coe_count]
    exact hsole.1.le
  · rw [List.count_eq_zero.mpr hm]
    exact Nat.zero_le 1

/-- What is freed is in the hands of `fwd_main` or of a driver, once. -/
theorem Accounted.frees (h : Accounted s) (hs : Steps n s a s') :
    (frees s a).Nodup ∧ ∀ m ∈ frees s a, ∀ pid, m ∉ (s.ports pid).mp := by
  have hpool {m : Mbuf} {r : Place} (hm : Sole (view s) m r) (hr : ∀ pid, r ≠ .pool pid)
      (pid : ℕ) : m ∉ (s.ports pid).mp := by
    intro hmem
    have hmem' : m ∈ view s (.pool pid) := hmem
    exact hr pid (hm.eq_of_mem hmem').symm
  have hfwd : (s.fwd.uses).Nodup ∧ ∀ m ∈ s.fwd.uses, ∀ pid, m ∉ (s.ports pid).mp :=
    ⟨h.nodup_fwd, fun m hm => hpool (h.sole_fwd hm) (by simp)⟩
  cases hs with
  | fwdTxFree hpc _ => simpa only [Hspp.frees, hpc, FwdPc.uses] using hfwd
  | fwdFree hpc _ => simpa only [Hspp.frees, hpc, FwdPc.uses] using hfwd
  | @driverFree pid m hm =>
      refine ⟨List.nodup_singleton m, fun m' hm' => ?_⟩
      rw [List.mem_singleton.mp hm']
      exact hpool (h.sole_of_mem (r := .driver pid) hm) (by simp)
  | _ => exact ⟨List.nodup_nil, fun m hm => absurd hm List.not_mem_nil⟩

/-- **Custody**: in every reachable state each mbuf is in one place of its own port; what a
thread is about to touch is in its hands and nowhere else; no step frees an mbuf twice, or
one that is free; and the ring has room for what `tap_main` is about to enqueue. -/
theorem forwarder_custody {mbufs : Mbuf → MbufData}
    (h : Reachable (step n) Always (initState mbufs) s) :
    (∀ m : Mbuf, m.idx < numMbufs → ∃ r, Sole (view s) m r ∧ r.port s = m.pool) ∧
      (∀ m ∈ s.tap.uses, Sole (view s) m .tap) ∧ (∀ m ∈ s.fwd.uses, Sole (view s) m .fwd) ∧
      (∀ a s', step n s a = some s' →
        (frees s a).Nodup ∧ ∀ m ∈ frees s a, ∀ pid, m ∉ (s.ports pid).mp) ∧
      ∀ pid m, s.tap = .enqueue pid m → (s.ports pid).fromHostif.length < ringSize - 1 := by
  have hinv := accounted h
  refine ⟨fun m hm => ?_, fun m hm => hinv.sole_tap hm, fun m hm => hinv.sole_fwd hm,
    fun a s' hs => hinv.frees (steps_of_step hs).2, hinv.hasRoom⟩
  obtain ⟨r, hr⟩ := hinv.sole m hm
  exact ⟨r, hr, (hinv.home r m hr.mem).symm⟩

/-- A run in which `tap_main` has just read a frame. -/
theorem forwarder_custody_enqueue : ∃ s, Reachable (step 1) Always
    (initState fun _ => ⟨fun _ => 0, 0, 0⟩) s ∧ s.tap = .enqueue 0 ⟨0, 0⟩ ∧
      Sole (view s) ⟨0, 0⟩ .tap ∧ (s.ports 0).fromHostif.length < ringSize - 1 := by
  have hm : (⟨0, 0⟩ : Mbuf) ∈ (initPort 0).mp := mem_initPort.mpr ⟨rfl, by decide⟩
  obtain ⟨s, hs, -, hpc, -⟩ := reachable_enqueue (n := 1)
    (s := initState fun _ => ⟨fun _ => 0, 0, 0⟩) rfl rfl Nat.one_pos hm rfl arpRequest
  obtain ⟨-, htap, -, -, hroom⟩ := forwarder_custody hs
  exact ⟨s, hs, hpc, htap ⟨0, 0⟩ (by simp [hpc, TapPc.uses]), hroom 0 ⟨0, 0⟩ hpc⟩

end Hspp
