import Hspp.Lib.Rotation
import Hspp.ForwarderBlocking
import Hspp.ForwarderHostif
import Hspp.ForwarderOrder

/-! # The rounds of `fwd_main`

`fwd_main` takes the ports in turns.  In the turn of a port it offers up to `BURST_SIZE`
packets of the ring to the NIC and then hands what the NIC received to the host.  None of its
calls blocks, and a turn is over after a fixed number of them (`fwdTurn`), so packets that
wait in a ring are offered after a number of calls that is known beforehand, whatever
`tap_main`, the host and the drivers do meanwhile (`fwd_latency`).

A run is logged with the calls of `fwd_main`; the call of `rte_eth_rx_burst` counts as the
turn of its port, as it comes once in each. -/

namespace Hspp

open Fifo Rotation Transition

/-- The calls of `fwd_main` that come back: `some pid` for `rte_eth_rx_burst`, `none` for the
others.  Those that only print are not counted. -/
def fwdCalls (s : State) : Act → List (Option ℕ)
  | .fwdRxBurst _ => [some s.fwd.pid]
  | .fwdRingEmpty | .fwdDequeueBurst | .fwdTxBurst _ | .fwdTxFree | .fwdInput | .fwdWrite true
  | .fwdFree => [none]
  | _ => []

/-- The turns among the calls. -/
def served (log : List (Option ℕ)) : List ℕ := log.filterMap id

/-- The mbufs of port `pid` that `fwd_main` can offer: in its burst and in the ring. -/
def queue (s : State) (pid : ℕ) : List Mbuf := s.fwd.toSend pid ++ (s.ports pid).fromHostif

/-- The port whose NIC `fwd_main` asks next. -/
def FwdPc.toServe (n : ℕ) : FwdPc → ℕ
  | .ringEmpty pid => pid
  | .dequeueBurst pid => pid
  | .txBurst pid _ _ => pid
  | .txFree pid _ _ => pid
  | .rxBurst pid => pid
  | .input pid _ _ => nextPid n pid
  | .write pid _ _ => nextPid n pid
  | .free pid _ _ => nextPid n pid

/-- `fwd_main` has looked at the ring of port `pid` in this turn, and not yet at the NIC. -/
def FwdPc.drains (pid : ℕ) : FwdPc → ℕ
  | .txBurst j _ _ => if j = pid then 1 else 0
  | .txFree j _ _ => if j = pid then 1 else 0
  | .rxBurst j => if j = pid then 1 else 0
  | _ => 0

/-- The port is one of the ports, and the index is inside the burst. -/
def FwdPc.InBurst (n : ℕ) : FwdPc → Prop
  | .ringEmpty pid => pid < n
  | .dequeueBurst pid => pid < n
  | .txBurst pid mbufs i => pid < n ∧ i < mbufs.length ∧ mbufs.length ≤ burstSize
  | .txFree pid mbufs i => pid < n ∧ i < mbufs.length ∧ mbufs.length ≤ burstSize
  | .rxBurst pid => pid < n
  | .input pid bufs i =>
      pid < n ∧ i < bufs.length ∧ bufs.length ≤ burstSize ∧ ∀ chain ∈ bufs, chain ≠ []
  | .write pid bufs i =>
      pid < n ∧ i < bufs.length ∧ bufs.length ≤ burstSize ∧ ∀ chain ∈ bufs, chain ≠ []
  | .free pid bufs i =>
      pid < n ∧ i < bufs.length ∧ bufs.length ≤ burstSize ∧ ∀ chain ∈ bufs, chain ≠ []

/-- The calls of a turn at most: the ring, two for each packet sent, three for each packet
received, and `rte_eth_rx_burst`. -/
def fwdTurn : ℕ := 2 + 2 * burstSize + 1 + 3 * burstSize

/-- The calls until the next `rte_eth_rx_burst` at most. -/
def FwdPc.callsLeft : FwdPc → ℕ
  | .ringEmpty _ => 3 + 2 * burstSize
  | .dequeueBurst _ => 2 + 2 * burstSize
  | .txBurst _ mbufs i => 2 * (mbufs.length - i) + 1
  | .txFree _ mbufs i => 2 * (mbufs.length - i)
  | .rxBurst _ => 1
  | .input _ bufs i => 3 * (bufs.length - i) + (3 + 2 * burstSize)
  | .write _ bufs i => 3 * (bufs.length - i) + (2 + 2 * burstSize)
  | .free _ bufs i => 3 * (bufs.length - i) + (1 + 2 * burstSize)

variable {n : ℕ} {s s' : State} {a : Act} {log : List (Option ℕ)}

/-! ### The order of the turns -/

theorem nextPid_eq_mod {pid : ℕ} (h : pid < n) : nextPid n pid = (pid + 1) % n := by
  unfold nextPid
  split_ifs with hlt
  · exact (Nat.mod_eq_of_lt hlt).symm
  · rw [show pid + 1 = n by omega, Nat.mod_self]

@[simp] theorem toServe_txLoop (pid : ℕ) (mbufs : List Mbuf) (i : ℕ) :
    (txLoop pid mbufs i).toServe n = pid := by
  unfold txLoop
  split_ifs <;> rfl

@[simp] theorem toServe_inputLoop (pid : ℕ) (bufs : List (List Mbuf)) (i : ℕ) :
    (inputLoop n pid bufs i).toServe n = nextPid n pid := by
  unfold inputLoop
  split_ifs <;> rfl

theorem inBurst_txLoop {pid : ℕ} {mbufs : List Mbuf} (i : ℕ) (hpid : pid < n)
    (hlen : mbufs.length ≤ burstSize) : (txLoop pid mbufs i).InBurst n := by
  unfold txLoop
  split_ifs with hi
  · exact ⟨hpid, hi, hlen⟩
  · exact hpid

theorem inBurst_inputLoop {pid : ℕ} {bufs : List (List Mbuf)} (i : ℕ) (hpid : pid < n)
    (hlen : bufs.length ≤ burstSize) (hne : ∀ chain ∈ bufs, chain ≠ []) :
    (inputLoop n pid bufs i).InBurst n := by
  unfold inputLoop
  split_ifs with hi
  · exact ⟨hpid, hi, hlen, hne⟩
  · exact (nextPid_eq_mod hpid).trans_lt (Nat.mod_lt _ (Nat.zero_lt_of_lt hpid))

/-- `fwd_main` stays in its burst. -/
theorem inBurst_step (h : Steps n s a s') (hs : s.fwd.InBurst n) : s'.fwd.InBurst n := by
  cases h with
  | fwdRingEmpty hpc hnext =>
      rw [hpc] at hs
      rcases hnext with rfl | rfl <;> exact hs
  | fwdDequeueBurst hpc =>
      rw [hpc] at hs
      exact inBurst_txLoop 0 hs (List.length_take_le _ _)
  | fwdTxBurst hpc _ =>
      rw [hpc] at hs
      exact inBurst_txLoop _ hs.1 hs.2.2
  | fwdTxBurstFail hpc _ =>
      rw [hpc] at hs
      exact hs
  | fwdTxFree hpc _ =>
      rw [hpc] at hs
      exact inBurst_txLoop _ hs.1 hs.2.2
  | fwdRxBurst hpc hbufs =>
      rw [hpc] at hs
      exact inBurst_inputLoop 0 hs hbufs.1 hbufs.2.1
  | fwdInput hpc _ hnext =>
      rw [hpc] at hs
      subst hnext
      rw [setFwd_fwd]
      split_ifs <;> exact hs
  | fwdWrite hpc _ =>
      rw [hpc] at hs
      exact hs
  | fwdFree hpc _ =>
      rw [hpc] at hs
      exact inBurst_inputLoop _ hs.1 hs.2.2.1 hs.2.2.2
  | _ => exact hs

/-- What an action is for `fwd_main`: no call of it, a call in the turn of a port, or the one
that counts as the turn. -/
inductive Calls (n : ℕ) (pc pc' : FwdPc) : List (Option ℕ) → Prop
  | idle (hpc : pc' = pc) : Calls n pc pc' []
  | call (hserve : pc'.toServe n = pc.toServe n) (hleft : pc'.callsLeft + 1 ≤ pc.callsLeft) :
      Calls n pc pc' [none]
  | turn (hserve : pc'.toServe n = nextPid n (pc.toServe n)) (hleft : pc.callsLeft = 1)
      (hleft' : pc'.callsLeft ≤ fwdTurn) : Calls n pc pc' [some (pc.toServe n)]

theorem callsLeft_txLoop_le (pid : ℕ) (mbufs : List Mbuf) (i : ℕ) :
    (txLoop pid mbufs i).callsLeft ≤ 2 * (mbufs.length - i) + 1 := by
  unfold txLoop
  split_ifs with hi
  · exact le_rfl
  · exact Nat.le_add_left 1 _

theorem callsLeft_inputLoop_le (pid : ℕ) (bufs : List (List Mbuf)) (i : ℕ) :
    (inputLoop n pid bufs i).callsLeft ≤ 3 * (bufs.length - i) + (3 + 2 * burstSize) := by
  unfold inputLoop
  split_ifs with hi
  · exact le_rfl
  · exact Nat.le_add_left _ _

theorem calls_of_steps (h : Steps n s a s') (hin : s.fwd.InBurst n) :
    Calls n s.fwd s'.fwd (fwdCalls s a) := by
  cases h with
  | fwdRingEmpty hpc hnext =>
      rw [hpc]
      rcases hnext with rfl | rfl
      · exact .call rfl (show 1 + 1 ≤ 3 + 2 * burstSize by omega)
      · exact .call rfl (show 2 + 2 * burstSize + 1 ≤ 3 + 2 * burstSize by omega)
  | @fwdDequeueBurst pid hpc =>
      have hleft := callsLeft_txLoop_le pid ((s.ports pid).fromHostif.take burstSize) 0
      have hlen := List.length_take_le burstSize (s.ports pid).fromHostif
      rw [hpc]
      refine .call (toServe_txLoop ..) ?_
      change _ ≤ 2 + 2 * burstSize
      exact (Nat.add_le_add_right hleft 1).trans (by omega)
  | @fwdTxBurst pid mbufs i m hpc _ =>
      have hleft := callsLeft_txLoop_le pid mbufs (i + 1)
      rw [hpc] at hin ⊢
      refine .call (toServe_txLoop ..) ?_
      obtain ⟨-, hi, -⟩ := hin
      change _ ≤ 2 * (mbufs.length - i) + 1
      exact (Nat.add_le_add_right hleft 1).trans (by omega)
  | fwdTxBurstFail hpc _ =>
      rw [hpc]
      exact .call rfl le_rfl
  | @fwdTxFree pid mbufs i m hpc _ =>
      have hleft := callsLeft_txLoop_le pid mbufs (i + 1)
      rw [hpc] at hin ⊢
      refine .call (toServe_txLoop ..) ?_
      obtain ⟨-, hi, -⟩ := hin
      change _ ≤ 2 * (mbufs.length - i)
      exact (Nat.add_le_add_right hleft 1).trans (by omega)
  | @fwdRxBurst pid bufs hpc hbufs =>
      have hleft := callsLeft_inputLoop_le (n := n) pid bufs 0
      have hlog : fwdCalls s (.fwdRxBurst bufs) = [some (s.fwd.toServe n)] := by
        simp [fwdCalls, hpc, FwdPc.pid, FwdPc.toServe]
      rw [hlog, hpc]
      refine .turn (toServe_inputLoop ..) rfl ?_
      obtain ⟨hlen, -, -⟩ := hbufs
      exact hleft.trans (by unfold fwdTurn; omega)
  | @fwdInput pid bufs i m segs pc hpc _ hnext =>
      rw [hpc]
      subst hnext
      rw [setFwd_fwd]
      rw [hpc] at hin
      obtain ⟨-, hi, -⟩ := hin
      split_ifs
      · exact .call rfl (by simp only [FwdPc.callsLeft]; omega)
      · exact .call rfl (by simp only [FwdPc.callsLeft]; omega)
  | fwdWrite hpc _ =>
      rw [hpc]
      exact .call rfl (by simp only [setFwd_fwd, FwdPc.callsLeft]; omega)
  | @fwdFree pid bufs i chain hpc _ =>
      have hleft := callsLeft_inputLoop_le (n := n) pid bufs (i + 1)
      rw [hpc] at hin ⊢
      refine .call (toServe_inputLoop ..) ?_
      obtain ⟨-, hi, -⟩ := hin
      change _ ≤ 3 * (bufs.length - i) + (1 + 2 * burstSize)
      exact (Nat.add_le_add_right hleft 1).trans (by omega)
  | _ => exact .idle rfl

/-- Where the turns are after some calls that began at `pc`. -/
structure InTurn (n : ℕ) (pc : FwdPc) (s : State) (log : List (Option ℕ)) : Prop where
  inBurst : s.fwd.InBurst n
  served : served log = turns n (pc.toServe n) (served log).length
  next : s.fwd.toServe n = (pc.toServe n + (Hspp.served log).length) % n
  calls : log.length + s.fwd.callsLeft ≤ fwdTurn * ((Hspp.served log).length + 1)

theorem toServe_lt {pc : FwdPc} (h : pc.InBurst n) : pc.toServe n < n := by
  have hnext {pid : ℕ} (hpid : pid < n) : nextPid n pid < n :=
    (nextPid_eq_mod hpid).trans_lt (Nat.mod_lt _ (Nat.zero_lt_of_lt hpid))
  cases pc with
  | ringEmpty pid => exact h
  | dequeueBurst pid => exact h
  | rxBurst pid => exact h
  | txBurst pid mbufs i => exact h.1
  | txFree pid mbufs i => exact h.1
  | input pid bufs i => exact hnext h.1
  | write pid bufs i => exact hnext h.1
  | free pid bufs i => exact hnext h.1

theorem callsLeft_le {pc : FwdPc} (h : pc.InBurst n) : pc.callsLeft ≤ fwdTurn := by
  cases pc with
  | txBurst pid mbufs i =>
      obtain ⟨-, -, hlen⟩ := h
      simp only [FwdPc.callsLeft, fwdTurn]
      omega
  | txFree pid mbufs i =>
      obtain ⟨-, -, hlen⟩ := h
      simp only [FwdPc.callsLeft, fwdTurn]
      omega
  | input pid bufs i =>
      obtain ⟨-, -, hlen, -⟩ := h
      simp only [FwdPc.callsLeft, fwdTurn]
      omega
  | write pid bufs i =>
      obtain ⟨-, -, hlen, -⟩ := h
      simp only [FwdPc.callsLeft, fwdTurn]
      omega
  | free pid bufs i =>
      obtain ⟨-, -, hlen, -⟩ := h
      simp only [FwdPc.callsLeft, fwdTurn]
      omega
  | _ => simp only [FwdPc.callsLeft, fwdTurn]; omega

theorem one_le_callsLeft {pc : FwdPc} (h : pc.InBurst n) : 1 ≤ pc.callsLeft := by
  cases pc with
  | txFree pid mbufs i =>
      obtain ⟨-, hi, -⟩ := h
      simp only [FwdPc.callsLeft]
      omega
  | _ => simp only [FwdPc.callsLeft]; omega

theorem InTurn.start (h : s.fwd.InBurst n) : InTurn n s.fwd s [] where
  inBurst := h
  served := rfl
  next := (Nat.mod_eq_of_lt (toServe_lt h)).symm
  calls := by simpa [Hspp.served] using callsLeft_le h

theorem InTurn.step {pc : FwdPc} (h : InTurn n pc s log) (hs : Steps n s a s') :
    InTurn n pc s' (log ++ fwdCalls s a) := by
  obtain ⟨hin, hserved, hnext, hcalls⟩ := h
  have hin' := inBurst_step hs hin
  have hstep := calls_of_steps hs hin
  generalize fwdCalls s a = evs at hstep
  cases hstep with
  | idle hpc =>
      rw [List.append_nil]
      exact ⟨hin', hserved, by rw [hpc, hnext], by rwa [hpc]⟩
  | call hserve hleft =>
      have hlog : Hspp.served (log ++ [none]) = Hspp.served log := by simp [Hspp.served]
      refine ⟨hin', by rw [hlog, ← hserved], by rw [hlog, hserve, hnext], ?_⟩
      rw [hlog, List.length_append, List.length_singleton]
      omega
  | turn hserve hleft hleft' =>
      have hlog : Hspp.served (log ++ [some (s.fwd.toServe n)]) =
          Hspp.served log ++ [s.fwd.toServe n] := by simp [Hspp.served]
      refine ⟨hin', ?_, ?_, ?_⟩
      · rw [hlog, List.length_append, List.length_singleton, turns_succ, ← hserved, hnext]
      · rw [hlog, hserve, nextPid_eq_mod (toServe_lt hin), hnext, Nat.mod_add_mod,
          List.length_append, List.length_singleton, add_assoc]
      · rw [hlog, List.length_append, List.length_append, List.length_singleton,
          List.length_singleton, Nat.mul_succ]
        omega

/-! ### What a turn does to the queue of its port -/

/-- What a step does to the queue of port `pid`: it lets it be or grow, it begins the turn of
the port with a burst of the ring, it offers a packet, or it is done with the burst. -/
inductive Drains (s s' : State) (pid : ℕ) : List (Option ℕ) → Prop
  | stay {evs : List (Option ℕ)} (hlog : (served evs).count pid = 0)
      (hoffered : (s'.ports pid).offered = (s.ports pid).offered)
      (hsend : s'.fwd.toSend pid = s.fwd.toSend pid)
      (hdrains : s'.fwd.drains pid = s.fwd.drains pid)
      (hring : (s.ports pid).fromHostif.length ≤ (s'.ports pid).fromHostif.length) :
      Drains s s' pid evs
  | burst (hoffered : (s'.ports pid).offered = (s.ports pid).offered)
      (hsend : s.fwd.toSend pid = []) (hdrains : s.fwd.drains pid = 0)
      (hdrains' : s'.fwd.drains pid = 1) (hqueue : queue s' pid = queue s pid)
      (hburst : min burstSize (queue s pid).length ≤ (s'.fwd.toSend pid).length) :
      Drains s s' pid [none]
  | offer {x : Frame × ℕ} {m : Mbuf}
      (hoffered : (s'.ports pid).offered = (s.ports pid).offered ++ [x])
      (hsend : s.fwd.toSend pid = m :: s'.fwd.toSend pid)
      (hdrains : s'.fwd.drains pid = s.fwd.drains pid)
      (hring : (s'.ports pid).fromHostif = (s.ports pid).fromHostif) : Drains s s' pid [none]
  | done (hoffered : (s'.ports pid).offered = (s.ports pid).offered)
      (hqueue : queue s' pid = queue s pid) (hsend : s.fwd.toSend pid = [])
      (hdrains : s.fwd.drains pid = 1) (hdrains' : s'.fwd.drains pid = 0) :
      Drains s s' pid [some pid]

@[simp] theorem toSend_txLoop (j pid : ℕ) (mbufs : List Mbuf) (i : ℕ) :
    (txLoop j mbufs i).toSend pid = if j = pid then mbufs.drop i else [] :=
  congrArg Prod.fst (sending_txLoop j pid mbufs i)

@[simp] theorem toSend_inputLoop (j pid : ℕ) (bufs : List (List Mbuf)) (i : ℕ) :
    (inputLoop n j bufs i).toSend pid = [] :=
  congrArg Prod.fst (sending_inputLoop j pid bufs i)

@[simp] theorem drains_txLoop (j pid : ℕ) (mbufs : List Mbuf) (i : ℕ) :
    (txLoop j mbufs i).drains pid = if j = pid then 1 else 0 := by
  unfold txLoop
  split_ifs <;> simp [FwdPc.drains, *]

@[simp] theorem drains_inputLoop (j pid : ℕ) (bufs : List (List Mbuf)) (i : ℕ) :
    (inputLoop n j bufs i).drains pid = 0 := by
  unfold inputLoop
  split_ifs <;> rfl

theorem drains_stay {pid : ℕ} {evs : List (Option ℕ)} (hlog : (served evs).count pid = 0)
    (hport : (s'.ports pid).outgoing = (s.ports pid).outgoing)
    (hsend : s'.fwd.toSend pid = s.fwd.toSend pid)
    (hdrains : s'.fwd.drains pid = s.fwd.drains pid) : Drains s s' pid evs := by
  simp only [Port.outgoing, Prod.mk.injEq] at hport
  obtain ⟨-, hoffered, -, hring⟩ := hport
  exact .stay hlog hoffered hsend hdrains (by rw [hring])

/-- The turn of one port lets the queues of the others be. -/
theorem drains_of_ne {j pid : ℕ} {pc pc' : FwdPc} {evs : List (Option ℕ)} (hne : pid ≠ j)
    (hlog : (served evs).count pid = 0)
    (hport : (s'.ports pid).outgoing = (s.ports pid).outgoing) (hpc : s.fwd = pc)
    (hpc' : s'.fwd = pc') (hpid : pc.pid = j) (hpid' : pc'.pid = j) : Drains s s' pid evs := by
  have hzero {pc : FwdPc} (hpid : pc.pid = j) : pc.toSend pid = [] ∧ pc.drains pid = 0 := by
    subst hpid
    refine ⟨congrArg Prod.fst (FwdPc.sending_of_ne hne), ?_⟩
    cases pc <;> simp_all [FwdPc.drains, FwdPc.pid, eq_comm]
  refine drains_stay hlog hport ?_ ?_
  · rw [hpc, hpc', (hzero hpid).1, (hzero hpid').1]
  · rw [hpc, hpc', (hzero hpid).2, (hzero hpid').2]

/-- `fwd_main` goes on to the NIC only when the ring is empty. -/
theorem ring_of_step {pid : ℕ} (h : step n s .fwdRingEmpty = some s')
    (hpc : s.fwd = .ringEmpty pid) (hpc' : s'.fwd = .rxBurst pid) :
    (s.ports pid).fromHostif = [] := by
  by_contra hring
  unfold step at h
  split_ifs at h
  simp only [tapStep, fwdStep, hpc, if_neg hring, Option.orElse_none] at h
  split_ifs at h <;> cases h
  cases hpc'

theorem drains_of_step (h : step n s a = some s') (pid : ℕ) : Drains s s' pid (fwdCalls s a) := by
  cases (steps_of_step h).2 with
  | @tapEnqueue j m hpc _ =>
      refine .stay rfl (update_congr Port.offered (by rfl) pid) rfl rfl ?_
      obtain rfl | hne := eq_or_ne pid j
      · simp
      · rw [setTap_ports, modifyPort_of_ne s hne]
  | @fwdRingEmpty j pc hpc hnext =>
      rcases hnext with rfl | rfl
      · have hring := ring_of_step h hpc rfl
        obtain rfl | hne := eq_or_ne pid j
        · have hqueue : queue s pid = [] := by simp [queue, hpc, hring, FwdPc.toSend]
          refine .burst rfl (by rw [hpc]; rfl) (by rw [hpc]; rfl) (if_pos rfl) ?_ ?_
          · rw [hqueue]
            exact hring
          · rw [hqueue]
            exact Nat.min_le_right _ _
        · exact drains_of_ne hne rfl rfl hpc rfl rfl rfl
      · exact drains_stay rfl rfl (by rw [hpc]; rfl) (by rw [hpc]; rfl)
  | @fwdDequeueBurst j hpc =>
      obtain rfl | hne := eq_or_ne pid j
      · have hqueue : queue s pid = (s.ports pid).fromHostif := by simp [queue, hpc, FwdPc.toSend]
        refine .burst (by simp) (by rw [hpc]; rfl) (by rw [hpc]; rfl) (by simp) ?_ ?_
        · rw [hqueue]
          simp [queue]
        · rw [hqueue]
          simp
      · exact drains_of_ne hne rfl (by rw [setFwd_ports, modifyPort_of_ne s hne]) hpc rfl rfl
          (pid_txLoop ..)
  | @fwdTxBurst j mbufs i m hpc hm =>
      obtain rfl | hne := eq_or_ne pid j
      · refine .offer (x := (s.mbufs m).packet) (m := m) (by simp) ?_ ?_ (by simp)
        · rw [hpc, setFwd_fwd, toSend_txLoop, if_pos rfl, FwdPc.toSend, if_pos rfl,
            drop_of_getElem? hm]
        · rw [hpc, setFwd_fwd, drains_txLoop, FwdPc.drains]
      · exact drains_of_ne hne rfl (by rw [setFwd_ports, modifyPort_of_ne s hne]) hpc rfl rfl
          (pid_txLoop ..)
  | @fwdTxBurstFail j mbufs i m hpc hm =>
      obtain rfl | hne := eq_or_ne pid j
      · refine .offer (x := (s.mbufs m).packet) (m := m) (by simp) ?_ ?_ (by simp)
        · rw [hpc, setFwd_fwd, FwdPc.toSend, if_pos rfl, FwdPc.toSend, if_pos rfl,
            drop_of_getElem? hm]
        · rw [hpc, setFwd_fwd, FwdPc.drains, FwdPc.drains]
      · exact drains_of_ne hne rfl (by rw [setFwd_ports, modifyPort_of_ne s hne]) hpc rfl rfl rfl
  | @fwdTxFree j mbufs i m hpc hm =>
      have hport : ((((s.free [m]).modifyPort j fun p =>
          { p with settled := p.settled ++ [false] }).setFwd
            (txLoop j mbufs (i + 1))).ports pid).fromHostif = (s.ports pid).fromHostif := by
        refine (update_congr Port.fromHostif (by rfl) pid).trans ?_
        exact free_congr Port.fromHostif (fun _ _ => rfl) pid [m] s
      have hoffered : ((((s.free [m]).modifyPort j fun p =>
          { p with settled := p.settled ++ [false] }).setFwd
            (txLoop j mbufs (i + 1))).ports pid).offered = (s.ports pid).offered := by
        refine (update_congr Port.offered (by rfl) pid).trans ?_
        exact free_congr Port.offered (fun _ _ => rfl) pid [m] s
      refine .stay rfl hoffered ?_ ?_ (by rw [hport])
      · rw [hpc, setFwd_fwd, toSend_txLoop, FwdPc.toSend]
      · rw [hpc, setFwd_fwd, drains_txLoop, FwdPc.drains]
  | @fwdRxBurst j bufs hpc hbufs =>
      have hport : ((s.modifyPort j fun p =>
          { p with driver := p.driver.diff bufs.flatten }).ports pid).outgoing =
            (s.ports pid).outgoing := update_congr Port.outgoing (by rfl) pid
      have hlog : fwdCalls s (.fwdRxBurst bufs) = [some j] := by rw [fwdCalls, hpc, FwdPc.pid]
      have hsend : s.fwd.toSend pid = [] := by
        rw [hpc]
        rfl
      have hdrains : s.fwd.drains pid = if j = pid then 1 else 0 := by rw [hpc, FwdPc.drains]
      rw [hlog]
      obtain rfl | hne := eq_or_ne pid j
      · refine .done (by simp) ?_ hsend (hdrains.trans (if_pos rfl)) (by simp)
        simp [queue, hsend]
      · refine drains_stay (by simp [served, hne.symm]) hport ?_ ?_
        · simp [hsend]
        · simp [hdrains, hne.symm]
  | @fwdInput j bufs i m segs pc hpc hm hnext =>
      subst hnext
      refine drains_stay rfl rfl ?_ ?_ <;>
      · rw [hpc, setFwd_fwd]
        split_ifs <;> rfl
  | @fwdWrite j bufs i m segs hpc hm =>
      refine drains_stay rfl ?_ ?_ ?_
      · exact update_congr Port.outgoing (by rfl) pid
      · rw [hpc]
        rfl
      · rw [hpc]
        rfl
  | @fwdFree j bufs i chain hpc hm =>
      refine drains_stay rfl (outgoing_free pid chain s) ?_ ?_
      · rw [hpc, setFwd_fwd, toSend_inputLoop]
        rfl
      · rw [hpc, setFwd_fwd, drains_inputLoop]
        rfl
  | @driverFree j m hm =>
      refine drains_stay rfl ((outgoing_free pid [m] _).trans ?_) rfl rfl
      exact update_congr Port.outgoing (by rfl) pid
  | tapAllocNone => exact drains_stay rfl rfl rfl rfl
  | tapReadNull => exact drains_stay rfl rfl rfl rfl
  | tapReadFail => exact drains_stay rfl rfl rfl rfl
  | tapEnqueueFull => exact drains_stay rfl rfl rfl rfl
  | fwdWriteFail => exact drains_stay rfl rfl rfl rfl
  | driverWrite => exact drains_stay rfl rfl rfl rfl
  | tapRead =>
      refine .stay rfl (update_congr Port.offered (by rfl) pid) rfl rfl ?_
      exact (congrArg List.length (update_congr Port.fromHostif (by rfl) pid)).ge
  | _ => exact drains_stay rfl (update_congr Port.outgoing (by rfl) pid) rfl rfl

/-- How far the queue of port `pid` is drained after some calls that began with `sent` packets
offered and `waiting` in the queue, among them `k` turns of the port: nothing was lost, each turn
but the first has offered a burst, and the one that has begun will. -/
structure Drained (pid sent waiting : ℕ) (s : State) (k : ℕ) : Prop where
  kept : sent + waiting ≤ (s.ports pid).offered.length + (queue s pid).length
  offered : sent + min waiting (burstSize * (k - 1)) ≤ (s.ports pid).offered.length
  begun : s.fwd.drains pid = 1 →
    sent + min waiting (burstSize * k) ≤ (s.ports pid).offered.length + (s.fwd.toSend pid).length

theorem Drained.start (s : State) (pid : ℕ) :
    Drained pid (s.ports pid).offered.length (queue s pid).length s 0 where
  kept := le_rfl
  offered := by simp
  begun _ := by simp

theorem Drained.step {pid sent waiting k : ℕ} {evs : List (Option ℕ)}
    (h : Drained pid sent waiting s k) (hs : Drains s s' pid evs) :
    Drained pid sent waiting s' (k + (served evs).count pid) := by
  obtain ⟨hkept, hoff, hbegun⟩ := h
  have hnone : (served [none]).count pid = 0 := rfl
  have hone : (served [some pid]).count pid = 1 := by simp [served]
  cases hs with
  | stay hlog hoffered hsend hdrains hring =>
      rw [hlog, Nat.add_zero]
      refine ⟨?_, by rwa [hoffered], by rwa [hoffered, hsend, hdrains]⟩
      rw [queue, List.length_append] at hkept ⊢
      rw [hoffered, hsend]
      omega
  | burst hoffered hsend hdrains hdrains' hqueue hburst =>
      rw [hnone, Nat.add_zero]
      refine ⟨by rwa [hoffered, hqueue], by rwa [hoffered], fun _ => ?_⟩
      -- the burst is what the queue holds, or as much as a turn can take
      rw [hoffered]
      unfold burstSize at *
      omega
  | offer hoffered hsend hdrains hring =>
      have hlen : (s.fwd.toSend pid).length = (s'.fwd.toSend pid).length + 1 := by
        rw [hsend, List.length_cons]
      have hgrow : (s'.ports pid).offered.length = (s.ports pid).offered.length + 1 := by
        rw [hoffered, List.length_append, List.length_singleton]
      rw [hnone, Nat.add_zero]
      refine ⟨?_, by omega, fun hbegins => ?_⟩
      · rw [queue, List.length_append] at hkept ⊢
        rw [hring]
        omega
      · have := hbegun (hdrains ▸ hbegins)
        omega
  | done hoffered hqueue hsend hdrains hdrains' =>
      rw [hone]
      refine ⟨by rwa [hoffered, hqueue], ?_, fun hbegins => by omega⟩
      have := hbegun hdrains
      rw [hsend, List.length_nil] at this
      rwa [hoffered]

/-! ### Runs -/

theorem inBurst {mbufs : Mbuf → MbufData} (hn : 0 < n)
    (h : Reachable (step n) Always (initState mbufs) s) : s.fwd.InBurst n := by
  refine h.induct (I := fun t => t.fwd.InBurst n) hn fun t a t' _ ht _ hs => ?_
  exact inBurst_step (steps_of_step hs).2 ht

theorem served_append (log log' : List (Option ℕ)) :
    served (log ++ log') = served log ++ served log' := List.filterMap_append

theorem inTurn (h0 : s.fwd.InBurst n)
    (h : Reachable (logged (step n) fwdCalls) Always (s, []) (s', log)) :
    InTurn n s.fwd s' log := by
  refine h.induct (I := fun x => InTurn n s.fwd x.1 x.2) (.start h0) ?_
  rintro ⟨t, log⟩ a ⟨t', log'⟩ _ ht _ hs
  obtain ⟨hs, rfl⟩ := logged_eq_some.mp hs
  exact ht.step (steps_of_step hs).2

theorem drained (h : Reachable (logged (step n) fwdCalls) Always (s, []) (s', log)) (pid : ℕ) :
    Drained pid (s.ports pid).offered.length (queue s pid).length s' ((served log).count pid) := by
  refine h.induct (I := fun x => Drained pid (s.ports pid).offered.length (queue s pid).length x.1
    ((served x.2).count pid)) (.start s pid) ?_
  rintro ⟨t, log⟩ a ⟨t', log'⟩ _ ht _ hs
  obtain ⟨hs, rfl⟩ := logged_eq_some.mp hs
  have hstep := ht.step (drains_of_step hs pid)
  rwa [← List.count_append, ← served_append] at hstep

/-- What was read and offered stays read and offered, and in this order. -/
theorem read_isPrefix (h : Reachable (step n) Always s s') (hacc : Accounted s) (pid : ℕ) :
    (s.ports pid).read <+: (s'.ports pid).read := by
  have hinv := h.induct (I := fun t => Accounted t ∧ (s.ports pid).read <+: (t.ports pid).read)
    ⟨hacc, List.prefix_rfl⟩ ?_
  · exact hinv.2
  · rintro t a t' _ ⟨hacc, hread⟩ _ hs
    have hsteps := (steps_of_step hs).2
    refine ⟨hacc.of_steps hsteps, ?_⟩
    cases sends_of_steps hacc hsteps pid with
    | stay hread' => rwa [hread']
    | read m got hread' =>
        rw [hread']
        exact hread.trans (List.prefix_append _ _)
    | offer hread' => rwa [hread']
    | free hread' => rwa [hread']

/-- What is in the queue follows, among the frames read, on what was offered. -/
theorem offered_queue_isPrefix {mbufs : Mbuf → MbufData}
    (h : Reachable (step n) Always (initState mbufs) s) (pid : ℕ) :
    (s.ports pid).offered ++ (queue s pid).map (fun m => (s.mbufs m).packet) <+:
      (s.ports pid).read.map asPacket := by
  have hline := line_inOrder h pid
  unfold Line.InOrder line at hline
  simp only at hline
  rw [hline, inFlight, List.map_append, ← List.append_assoc]
  exact List.prefix_append _ _

theorem exists_fwdStep (h : s.fwd.InBurst n) : ∃ a, (fwdStep n s a).isSome := by
  unfold fwdStep
  cases hpc : s.fwd with
  | ringEmpty pid =>
      rw [hpc] at h
      refine ⟨.fwdRingEmpty, ?_⟩
      simp only [if_pos (show pid < n from h)]
      split_ifs <;> rfl
  | dequeueBurst pid => exact ⟨.fwdDequeueBurst, rfl⟩
  | txBurst pid mbufs i =>
      rw [hpc] at h
      exact ⟨.fwdTxBurst true, by simp [List.getElem?_eq_getElem h.2.1]⟩
  | txFree pid mbufs i =>
      rw [hpc] at h
      exact ⟨.fwdTxFree, by simp [List.getElem?_eq_getElem h.2.1]⟩
  | rxBurst pid => exact ⟨.fwdRxBurst [], by simp⟩
  | input pid bufs i =>
      rw [hpc] at h
      obtain ⟨-, hi, -, hne⟩ := h
      obtain ⟨m, segs, hm⟩ := List.exists_cons_of_ne_nil (hne _ (List.getElem_mem hi))
      refine ⟨.fwdInput, ?_⟩
      simp only [List.getElem?_eq_getElem hi, hm]
      split_ifs <;> rfl
  | write pid bufs i =>
      rw [hpc] at h
      obtain ⟨-, hi, -, hne⟩ := h
      obtain ⟨m, segs, hm⟩ := List.exists_cons_of_ne_nil (hne _ (List.getElem_mem hi))
      exact ⟨.fwdWrite true, by simp [List.getElem?_eq_getElem hi, hm]⟩
  | free pid bufs i =>
      rw [hpc] at h
      exact ⟨.fwdFree, by simp [List.getElem?_eq_getElem h.2.1]⟩

theorem step_of_fwdStep (hrun : s.status = .running) (h : fwdStep n s a = some s') :
    step n s a = some s' := by
  have htap : tapStep n s a = none := by
    cases a with
    | tapAlloc m => cases h
    | tapRead ok => cases h
    | tapEnqueue => cases h
    | _ => rfl
  rw [step, if_pos hrun, htap, Option.orElse_none, h, Option.orElse_some]

/-! ### Some turns -/

theorem modifyPort_id (s : State) (pid : ℕ) : (s.modifyPort pid fun p => p) = s := by
  simp only [State.modifyPort, Function.update_eq_self]

theorem step_fwdRxBurst_nil {pid : ℕ} (hrun : s.status = .running) (hpc : s.fwd = .rxBurst pid) :
    step n s (.fwdRxBurst []) = some (s.setFwd (.ringEmpty (nextPid n pid))) := by
  have hport : (s.modifyPort pid fun p => { p with driver := p.driver.diff [] }) = s :=
    modifyPort_id s pid
  simp only [step, tapStep, fwdStep, hrun, hpc, if_true, Option.orElse_none]
  rw [if_pos (by simp), List.flatten_nil, hport]
  rfl

/-- Turns in which the rings are empty and the NICs have nothing. -/
theorem reachable_idle {x : State × List (Option ℕ)} {pid : ℕ} (hrun : s.status = .running)
    (hpc : s.fwd = .ringEmpty pid) (hpid : pid < n) (hring : ∀ j < n, (s.ports j).fromHostif = [])
    (h : Reachable (logged (step n) fwdCalls) Always x (s, log)) : ∀ k, ∃ j log', j < n ∧
      Reachable (logged (step n) fwdCalls) Always x (s.setFwd (.ringEmpty j), log') ∧
      log'.length = log.length + 2 * k ∧ (served log').length = (served log).length + k
  | 0 => ⟨pid, log, hpid, by rwa [← hpc], rfl, rfl⟩
  | k + 1 => by
      obtain ⟨j, log', hj, h', hlen, hserved⟩ := reachable_idle hrun hpc hpid hring h k
      have hlook : step n (s.setFwd (.ringEmpty j)) .fwdRingEmpty = some (s.setFwd (.rxBurst j)) :=
        step_fwdRingEmpty_nil (s := s.setFwd (.ringEmpty j)) hrun rfl hj (hring j hj)
      have hturn := (h'.tail_logged trivial hlook).tail_logged trivial
        (step_fwdRxBurst_nil (s := s.setFwd (.rxBurst j)) hrun rfl)
      refine ⟨nextPid n j, _, ?_, hturn, ?_, ?_⟩
      · exact (nextPid_eq_mod hj).trans_lt (Nat.mod_lt _ (Nat.zero_lt_of_lt hj))
      · rw [List.length_append, List.length_append, hlen]
        rfl
      · rw [served_append, served_append, List.length_append, List.length_append, hserved]
        rfl

/-- A turn in which the one packet in the ring is sent. -/
theorem reachable_sent {pid : ℕ} {m : Mbuf} (hrun : s.status = .running)
    (hpc : s.fwd = .ringEmpty pid) (hpid : pid < n) (hring : (s.ports pid).fromHostif = [m]) :
    ∃ s' log, Reachable (logged (step n) fwdCalls) Always (s, []) (s', log) ∧
      s'.status = .running ∧ s'.fwd = .ringEmpty (nextPid n pid) ∧
      (s'.ports pid).fromHostif = [] := by
  have hstart : Reachable (logged (step n) fwdCalls) Always (s, []) (s, []) := .refl _
  have hlook := hstart.tail_logged trivial (step_fwdRingEmpty hrun hpc hpid (by simp [hring]))
  have hdeq := hlook.tail_logged trivial (step_fwdDequeueBurst hrun rfl)
  have hburst : (s.ports pid).fromHostif.take burstSize = [m] := by rw [hring]; rfl
  have hloop : txLoop pid ((s.ports pid).fromHostif.take burstSize) 0 = .txBurst pid [m] 0 := by
    rw [hburst]
    rfl
  have hsend := hdeq.tail_logged trivial (step_fwdTxBurst hrun hloop rfl)
  have hdone := hsend.tail_logged trivial (step_fwdRxBurst_nil hrun rfl)
  exact ⟨_, _, hdone, hrun, rfl, by simp [hring, burstSize]⟩

/-! ### Main results -/

/-- **Round robin**: in every run `fwd_main` serves the ports in the order 0, 1, .., n - 1, and
again from 0, so that no port is ever more than one turn ahead of another. -/
theorem fwd_roundRobin {mbufs : Mbuf → MbufData} (hn : 0 < n)
    (h : Reachable (logged (step n) fwdCalls) Always (initState mbufs, []) (s, log)) :
    served log = (List.range (served log).length).map (· % n) ∧
      ∀ i < n, ∀ j < n, (served log).count i ≤ (served log).count j + 1 := by
  have hserved := (inTurn (s := initState mbufs) hn h).served
  have hturns : served log = turns n 0 (served log).length := hserved
  constructor
  · simpa only [turns, zero_add] using hturns
  · intro i hi j hj
    rw [hturns]
    have hcount := (count_turns 0 (served log).length hi).2
    exact hcount.trans (Nat.add_le_add_right (count_turns 0 (served log).length hj).1 1)

/-- **Draining**: whatever the others do meanwhile, `k + 1` turns of a port offer what is in
its queue, or `k` bursts of it. -/
theorem fwd_drains (h : Reachable (logged (step n) fwdCalls) Always (s, []) (s', log)) (pid : ℕ) :
    (s.ports pid).offered.length +
        min (queue s pid).length (burstSize * ((served log).count pid - 1)) ≤
      (s'.ports pid).offered.length :=
  (drained h pid).offered

/-- **Latency**: packets that wait for the NIC of a port, at most `k` bursts of them, are
offered, in order, within `fwdTurn * n * (k + 1)` calls of `fwd_main`, whatever `tap_main`,
the host and the drivers do meanwhile. -/
theorem fwd_latency {mbufs : Mbuf → MbufData} {pid k : ℕ} (hpid : pid < n)
    (h0 : Reachable (step n) Always (initState mbufs) s)
    (h : Reachable (logged (step n) fwdCalls) Always (s, []) (s', log))
    (hk : (queue s pid).length ≤ burstSize * k) (hlen : fwdTurn * (n * (k + 1)) ≤ log.length) :
    (s.ports pid).offered ++ (queue s pid).map (fun m => (s.mbufs m).packet) <+:
      (s'.ports pid).offered := by
  have hn : 0 < n := Nat.zero_lt_of_lt hpid
  have hturn := inTurn (inBurst hn h0) h
  -- the calls make `n * (k + 1)` turns, of which `k + 1` are those of the port
  have hserved : n * (k + 1) ≤ (served log).length := by
    have hlt : fwdTurn * (n * (k + 1)) < fwdTurn * ((served log).length + 1) := by
      have hcalls := hturn.calls
      have hleft := one_le_callsLeft hturn.inBurst
      omega
    exact Nat.lt_succ_iff.mp (Nat.lt_of_mul_lt_mul_left hlt)
  have hcount : k + 1 ≤ (served log).count pid := by
    rw [hturn.served]
    refine le_trans ?_ (count_turns _ _ hpid).1
    exact (Nat.le_div_iff_mul_le hn).mpr (by rwa [Nat.mul_comm])
  have hdrains := fwd_drains h pid
  have hall : (queue s pid).length ≤ burstSize * ((served log).count pid - 1) :=
    hk.trans (Nat.mul_le_mul_left _ (Nat.le_sub_of_add_le hcount))
  rw [Nat.min_eq_left hall] at hdrains
  have h' : Reachable (step n) Always s s' := h.of_logged
  refine List.prefix_of_prefix_length_le ?_ (line_inOrder (h0.trans h') pid).left_isPrefix ?_
  · exact (offered_queue_isPrefix h0 pid).trans ((read_isPrefix h' (accounted h0) pid).map _)
  · rw [List.length_append, List.length_map]
    exact hdrains

/-- **No deadlock**: in every running state reached, `fwd_main` has a next call, and `tap_main`
has one unless it reads an interface at which no frame waits. -/
theorem forwarder_enabled {mbufs : Mbuf → MbufData} (hn : 0 < n)
    (h : Reachable (step n) Always (initState mbufs) s) (hrun : s.status = .running) :
    (∃ a s', fwdStep n s a = some s' ∧ step n s a = some s') ∧
      ((∃ a s', tapStep n s a = some s' ∧ step n s a = some s') ↔ ∀ pid, ¬ ReadsIdle s pid) := by
  refine ⟨?_, ?_, fun hidle => ?_⟩
  · obtain ⟨a, ha⟩ := exists_fwdStep (inBurst hn h)
    obtain ⟨s', hs⟩ := Option.isSome_iff_exists.mp ha
    exact ⟨a, s', hs, step_of_fwdStep hrun hs⟩
  · rintro ⟨a, s', hs, -⟩ pid hidle
    rw [tapStep_of_readsIdle hidle] at hs
    cases hs
  · obtain ⟨a, ha⟩ := exists_tapStep (tapInRange h hn) hidle
    obtain ⟨s', hs⟩ := Option.isSome_iff_exists.mp ha
    exact ⟨a, s', hs, by rw [step, if_pos hrun, hs, Option.orElse_some]⟩

/-- A run with three turns of two ports. -/
theorem fwd_roundRobin_idle : ∃ s log, Reachable (logged (step 2) fwdCalls) Always
    (initState fun _ => ⟨fun _ => 0, 0, 0⟩, []) (s, log) ∧ (served log).length = 3 ∧
      served log = (List.range (served log).length).map (· % 2) ∧
      ∀ i < 2, ∀ j < 2, (served log).count i ≤ (served log).count j + 1 := by
  obtain ⟨j, log, -, h, -, hlen⟩ := reachable_idle (n := 2)
    (s := initState fun _ => ⟨fun _ => 0, 0, 0⟩) rfl rfl Nat.two_pos (fun _ _ => rfl)
    (Reachable.refl (_, [])) 3
  exact ⟨_, log, h, hlen, fwd_roundRobin Nat.two_pos h⟩

/-- A run in which a packet waits and is sent. -/
theorem fwd_latency_sent : ∃ s s' log, Reachable (step 1) Always
    (initState fun _ => ⟨fun _ => 0, 0, 0⟩) s ∧
      Reachable (logged (step 1) fwdCalls) Always (s, []) (s', log) ∧ (queue s 0).length = 1 ∧
      fwdTurn * (1 * (1 + 1)) ≤ log.length ∧
      (s.ports 0).offered ++ (queue s 0).map (fun m => (s.mbufs m).packet) <+:
        (s'.ports 0).offered := by
  obtain ⟨s, hs, hrun, -, hfwd, -, hring, -⟩ := reachable_tapRound (n := 1)
    (s := initState fun _ => ⟨fun _ => 0, 0, 0⟩) rfl rfl Nat.one_pos (mem_initPort_zero 0) rfl
    (by decide) arpRequest
  obtain ⟨t, log, ht, hrun', hfwd', hring'⟩ := reachable_sent (n := 1) hrun hfwd Nat.one_pos hring
  have hall : ∀ j < 1, (t.ports j).fromHostif = [] := by
    intro j hj
    rwa [Nat.lt_one_iff.mp hj]
  obtain ⟨j, log', -, h', hlen, -⟩ := reachable_idle (n := 1) hrun' hfwd' Nat.one_pos hall ht 163
  have hqueue : (queue s 0).length = 1 := by
    rw [queue, hfwd, hring]
    rfl
  have hcalls : fwdTurn * (1 * (1 + 1)) ≤ log'.length := by
    rw [hlen]
    exact Nat.le_add_left _ _
  refine ⟨s, _, log', hs, h', hqueue, hcalls, ?_⟩
  exact fwd_latency Nat.one_pos hs h' (by rw [hqueue]; decide) hcalls

/-- A run that comes to a state in which `fwd_main` is in a burst, and `tap_main` is blocked in
`read`. -/
theorem forwarder_enabled_burst : ∃ s, Reachable (step 1) Always
    (initState fun _ => ⟨fun _ => 0, 0, 0⟩) s ∧ s.fwd = .txBurst 0 [⟨0, 0⟩] 0 ∧ ReadsIdle s 0 ∧
      (∃ a s', fwdStep 1 s a = some s' ∧ step 1 s a = some s') ∧
      ((∃ a s', tapStep 1 s a = some s' ∧ step 1 s a = some s') ↔ ∀ pid, ¬ ReadsIdle s pid) := by
  obtain ⟨s, hs, hrun, htap, hfwd, hmp, hring, hwait⟩ := reachable_tapRound (n := 1)
    (s := initState fun _ => ⟨fun _ => 0, 0, 0⟩) rfl rfl Nat.one_pos (mem_initPort_zero 0) rfl
    (by decide) arpRequest
  have hfree : (⟨0, 1⟩ : Mbuf) ∈ (s.ports 0).mp := by
    rw [hmp]
    exact (List.mem_erase_of_ne (by decide)).mpr (mem_initPort.mpr ⟨rfl, by decide⟩)
  have htap : s.tap = .alloc 0 := htap
  have hfwd : s.fwd = .ringEmpty 0 := hfwd
  have hring : (s.ports 0).fromHostif = [⟨0, 0⟩] := hring
  have halloc := hs.tail trivial (step_tapAlloc hrun htap Nat.one_pos hfree)
  have hlook := halloc.tail trivial
    (step_fwdRingEmpty hrun hfwd Nat.one_pos (by simp [hring]))
  have hdeq := hlook.tail trivial (step_fwdDequeueBurst hrun rfl)
  refine ⟨_, hdeq, ?_, ⟨⟨⟨0, 1⟩, rfl⟩, ?_⟩, forwarder_enabled Nat.one_pos hdeq hrun⟩
  · simp [hring, burstSize, txLoop]
  · simp [hwait]

end Hspp
