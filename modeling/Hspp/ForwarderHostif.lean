import Hspp.ForwarderCustody

/-! # What is written to the host interface

`fwd_main` passes each packet that `rte_eth_rx_burst` hands over to `port_input`, which writes
it to the host interface if its type is one of four, and frees it.  The system is run with a
log of the packets handed over and of the chains freed (`rxRecord`); in every run the packets
are taken in order, each is freed once, and what is written is what `tap_send` makes of the
packets of the four types (`rxInv`).

`tap_send` writes `pkt_len` bytes from the data of the first mbuf on.  So what is written is
the packets themselves if and only if behind the data of each first segment there happens to
be that of the other segments (`hostifOk_iff`). -/

namespace Hspp

open Custody Memory Transition

/-- A chain of mbufs, and what is in them. -/
structure Packet where
  chain : List Mbuf
  segs : List MbufData

namespace Packet

/-- `port_input` has a `case` for the type of the packet. -/
def IsForwarded (p : Packet) : Prop :=
  match p.segs with
  | [] => False
  | d :: _ => Forwarded d.etherType

instance : DecidablePred IsForwarded
  | ⟨_, []⟩ => isFalse id
  | ⟨_, d :: _⟩ => inferInstanceAs (Decidable (Forwarded d.etherType))

/-- The data of all segments. -/
def frame (p : Packet) : Frame := (p.segs.map fun d => bytesAt d.data 0 d.dataLen).flatten

/-- What `tap_send` writes. -/
def sent (p : Packet) : Frame :=
  match p.segs with
  | [] => []
  | d :: _ => bytesAt d.data 0 d.pktLen

/-- The first segment has the header, and the lengths of the segments add up. -/
def WellFormed (p : Packet) : Prop :=
  match p.segs with
  | [] => False
  | d :: _ => 14 ≤ d.dataLen ∧ (p.segs.map MbufData.dataLen).sum = d.pktLen

/-- Behind the data of the first segment, in its mbuf, there are the same bytes as in the
other segments. -/
def Contiguous (p : Packet) : Prop :=
  match p.segs with
  | [] => True
  | d :: ds => bytesAt d.data d.dataLen (d.pktLen - d.dataLen) =
      (ds.map fun d => bytesAt d.data 0 d.dataLen).flatten

theorem sent_eq_frame_iff {p : Packet} (h : p.WellFormed) : p.sent = p.frame ↔ p.Contiguous := by
  obtain ⟨chain, segs⟩ := p
  cases segs with
  | nil => exact absurd h id
  | cons d ds =>
      have hlen : d.pktLen = d.dataLen + (d.pktLen - d.dataLen) := by
        have hsum := h.2
        rw [List.map_cons, List.sum_cons] at hsum
        omega
      have hsplit := bytesAt_add d.data d.dataLen 0 (d.pktLen - d.dataLen)
      rw [← hlen, Nat.zero_add] at hsplit
      simp only [sent, frame, Contiguous, List.map_cons, List.flatten_cons]
      rw [hsplit, List.append_cancel_left_eq]

/-- A packet of one segment is written as it is. -/
theorem contiguous_of_single {p : Packet} (h : p.WellFormed) (hone : p.segs.length = 1) :
    p.Contiguous := by
  obtain ⟨chain, segs⟩ := p
  obtain ⟨d, rfl⟩ := List.length_eq_one_iff.mp hone
  have hlen : d.dataLen = d.pktLen := by simpa [WellFormed] using h.2
  simp [Contiguous, hlen]

end Packet

/-! ### The log -/

/-- A packet was handed over by `rte_eth_rx_burst`, or a chain freed, for a port. -/
inductive RxEvent where
  | received (pid : ℕ) (p : Packet)
  | freed (pid : ℕ) (chain : List Mbuf)

def RxEvent.received? (pid : ℕ) : RxEvent → Option Packet
  | .received j p => if j = pid then some p else none
  | .freed _ _ => none

def RxEvent.freed? (pid : ℕ) : RxEvent → Option (List Mbuf)
  | .received _ _ => none
  | .freed j chain => if j = pid then some chain else none

/-- The packets handed over for port `pid`. -/
def rxPackets (pid : ℕ) (log : List RxEvent) : List Packet :=
  log.filterMap (RxEvent.received? pid)

/-- The chains freed for port `pid`. -/
def rxFreed (pid : ℕ) (log : List RxEvent) : List (List Mbuf) :=
  log.filterMap (RxEvent.freed? pid)

def packetOf (s : State) (chain : List Mbuf) : Packet := ⟨chain, chain.map s.mbufs⟩

/-- What `fwd_main` gets from the NIC, and what it frees of it. -/
def rxRecord (s : State) : Act → List RxEvent
  | .fwdRxBurst bufs => match s.fwd with
      | .rxBurst pid => bufs.map fun chain => .received pid (packetOf s chain)
      | _ => []
  | .fwdFree => match s.fwd with
      | .free pid bufs i => bufs[i]?.toList.map (.freed pid)
      | _ => []
  | _ => []

/-- The system with its log. -/
abbrev rxStep (n : ℕ) : State × List RxEvent → Act → Option (State × List RxEvent) :=
  logged (step n) rxRecord

/-- The packets handed over are well formed. -/
def RxOk (x : State × List RxEvent) (a : Act) : Prop :=
  ∀ bufs, a = .fwdRxBurst bufs → ∀ chain ∈ bufs, (packetOf x.1 chain).WellFormed

/-! ### What is still to be done -/

/-- The chains of port `pid` that are not yet through `port_input`, nor written. -/
def FwdPc.toWrite (pid : ℕ) : FwdPc → List (List Mbuf)
  | .input j bufs i => if j = pid then bufs.drop i else []
  | .write j bufs i => if j = pid then bufs.drop i else []
  | .free j bufs i => if j = pid then bufs.drop (i + 1) else []
  | _ => []

/-- The chains of port `pid` that are not yet freed. -/
def FwdPc.toFree (pid : ℕ) : FwdPc → List (List Mbuf)
  | .input j bufs i => if j = pid then bufs.drop i else []
  | .write j bufs i => if j = pid then bufs.drop i else []
  | .free j bufs i => if j = pid then bufs.drop i else []
  | _ => []

/-- What `fwd_main` has still to do for port `pid`. -/
def FwdPc.receiving (pid : ℕ) (pc : FwdPc) : List (List Mbuf) × List (List Mbuf) :=
  (pc.toWrite pid, pc.toFree pid)

/-- The packets of port `pid` that are through `port_input`, but perhaps for being freed. -/
def handled (s : State) (log : List RxEvent) (pid : ℕ) : List Packet :=
  (rxPackets pid log).take ((rxPackets pid log).length - (s.fwd.toWrite pid).length)

/-- What was written for port `pid` are the packets of the four types, in order, each with the
data of all its segments; and every packet is freed once, by the `rte_pktmbuf_free` at the
end of `port_input`. -/
structure HostifOk (n : ℕ) (s : State) (log : List RxEvent) (pid : ℕ) : Prop where
  written : (s.ports pid).written =
    ((handled s log pid).filter (·.IsForwarded)).map Packet.frame
  freed : (rxPackets pid log).map Packet.chain = rxFreed pid log ++ s.fwd.toFree pid
  once : ∀ a s', step n s a = some s' → ∀ m ∈ (s.fwd.toFree pid).flatten, m ∈ frees s a →
    a = .fwdFree

variable {n : ℕ} {s s' : State} {a : Act}

@[simp] theorem rxPackets_append (pid : ℕ) (log log' : List RxEvent) :
    rxPackets pid (log ++ log') = rxPackets pid log ++ rxPackets pid log' :=
  List.filterMap_append ..

@[simp] theorem rxFreed_append (pid : ℕ) (log log' : List RxEvent) :
    rxFreed pid (log ++ log') = rxFreed pid log ++ rxFreed pid log' :=
  List.filterMap_append ..

@[simp] theorem chain_packetOf (s : State) : Packet.chain ∘ packetOf s = id := rfl

theorem packetOf_congr {chain : List Mbuf} (h : ∀ m ∈ chain, s'.mbufs m = s.mbufs m) :
    packetOf s' chain = packetOf s chain := by
  unfold packetOf
  rw [List.map_congr_left h]

/-! ### The chains in a burst -/

theorem receiving_inputLoop (j pid : ℕ) (bufs : List (List Mbuf)) (i : ℕ) :
    (inputLoop n j bufs i).receiving pid =
      if j = pid then (bufs.drop i, bufs.drop i) else ([], []) := by
  unfold inputLoop FwdPc.receiving
  by_cases h : i < bufs.length
  · rw [if_pos h]
    split_ifs with hj
    · exact Prod.ext (if_pos hj) (if_pos hj)
    · exact Prod.ext (if_neg hj) (if_neg hj)
  · rw [if_neg h, List.drop_eq_nil_of_le (by omega), ite_self]
    rfl

theorem receiving_txLoop (j pid : ℕ) (mbufs : List Mbuf) (i : ℕ) :
    (txLoop j mbufs i).receiving pid = ([], []) := by
  unfold txLoop
  split_ifs <;> rfl

/-- What is to be written or freed is in the hands of `fwd_main`. -/
theorem FwdPc.mem_held {pc : FwdPc} {pid : ℕ} {chain : List Mbuf} {m : Mbuf}
    (hchain : chain ∈ pc.toWrite pid ∨ chain ∈ pc.toFree pid) (hm : m ∈ chain) : m ∈ pc.held := by
  have hflat (bufs : List (List Mbuf)) {j i k : ℕ} (hik : i ≤ k)
      (h : chain ∈ if j = pid then bufs.drop k else []) : m ∈ (bufs.drop i).flatten := by
    split_ifs at h
    · exact List.mem_flatten.mpr ⟨chain, (List.drop_sublist_drop_left bufs hik).subset h, hm⟩
    · cases h
  cases pc with
  | input j bufs i => exact hchain.elim (hflat bufs le_rfl) (hflat bufs le_rfl)
  | write j bufs i => exact hchain.elim (hflat bufs le_rfl) (hflat bufs le_rfl)
  | free j bufs i => exact hchain.elim (hflat bufs (Nat.le_succ i)) (hflat bufs le_rfl)
  | _ => rcases hchain with h | h <;> cases h

/-- Nobody else writes to the mbufs that `fwd_main` holds. -/
theorem mbufs_of_steps (hacc : Accounted s) (h : Steps n s a s') {m : Mbuf}
    (hm : m ∈ s.fwd.held) : s'.mbufs m = s.mbufs m := by
  have hsole : Sole (view s) m .fwd := hacc.sole_of_mem (r := .fwd) hm
  cases h with
  | @tapRead j m' frame frames hpc _ =>
      apply Function.update_of_ne
      rintro rfl
      have hmem : m ∈ view s .tap := by simp [view, hpc, TapPc.held]
      cases hsole.eq_of_mem hmem
  | @driverWrite j m' d hm' =>
      apply Function.update_of_ne
      rintro rfl
      have hmem : m ∈ view s (.driver j) := hm'
      cases hsole.eq_of_mem hmem
  | fwdTxFree => simp
  | fwdFree => simp
  | driverFree => simp
  | _ => rfl

/-! ### What a step does with the packets -/

/-- From `s` to `s'` the chains `bufs` are handed over for port `pid`, and the chains `passed`
pass `port_input`; the events `evs` tell of it. -/
structure RxPasses (s s' : State) (evs : List RxEvent) (pid : ℕ) (bufs passed : List (List Mbuf)) :
    Prop where
  packets : rxPackets pid evs = bufs.map (packetOf s)
  toWrite : passed ++ s'.fwd.toWrite pid = s.fwd.toWrite pid ++ bufs
  toFree : rxFreed pid evs ++ s'.fwd.toFree pid = s.fwd.toFree pid ++ bufs
  written : (s'.ports pid).written = (s.ports pid).written ++
    ((passed.map (packetOf s)).filter (·.IsForwarded)).map Packet.sent
  pending : ∀ chain ∈ s'.fwd.toWrite pid, packetOf s' chain = packetOf s chain

/-- What `fwd_main` does not do, or does for another port. -/
theorem passes_stay {pid : ℕ} {evs : List RxEvent} (hpackets : rxPackets pid evs = [])
    (hfreed : rxFreed pid evs = []) (hfwd : s'.fwd.receiving pid = s.fwd.receiving pid)
    (hwritten : (s'.ports pid).written = (s.ports pid).written)
    (hmbufs : ∀ m ∈ s.fwd.held, s'.mbufs m = s.mbufs m) : RxPasses s s' evs pid [] [] := by
  obtain ⟨htoWrite, htoFree⟩ := Prod.mk.inj hfwd
  refine ⟨hpackets, ?_, ?_, ?_, fun chain hchain => ?_⟩
  · rw [htoWrite, List.nil_append, List.append_nil]
  · rw [hfreed, htoFree, List.nil_append, List.append_nil]
  · rw [hwritten, List.map_nil, List.filter_nil, List.map_nil, List.append_nil]
  · rw [htoWrite] at hchain
    exact packetOf_congr fun m hm => hmbufs m (FwdPc.mem_held (.inl hchain) hm)

theorem rxPackets_received (j pid : ℕ) (ps : List Packet) :
    rxPackets pid (ps.map (.received j)) = if j = pid then ps else [] := by
  unfold rxPackets
  rw [List.filterMap_map]
  split_ifs with h
  · have hf : RxEvent.received? pid ∘ RxEvent.received j = some := funext fun _ => if_pos h
    rw [hf, List.filterMap_some]
  · have hf : RxEvent.received? pid ∘ RxEvent.received j = fun _ => none :=
      funext fun _ => if_neg h
    rw [hf, List.filterMap_none]

theorem rxFreed_received (j pid : ℕ) (ps : List Packet) :
    rxFreed pid (ps.map (.received j)) = [] := by
  unfold rxFreed
  rw [List.filterMap_map]
  exact List.filterMap_none ps

/-- A write is of a packet of one of the four types. -/
def Checked (s : State) : Prop :=
  ∀ pid bufs i chain, s.fwd = .write pid bufs i → bufs[i]? = some chain →
    (packetOf s chain).IsForwarded

theorem passes_fwdRxBurst {j : ℕ} {bufs : List (List Mbuf)} (hpc : s.fwd = .rxBurst j)
    (hfwd : s'.fwd = inputLoop n j bufs 0) (hmbufs : s'.mbufs = s.mbufs) (pid : ℕ)
    (hwritten : (s'.ports pid).written = (s.ports pid).written) :
    ∃ bufs' passed, RxPasses s s' (rxRecord s (.fwdRxBurst bufs)) pid bufs' passed := by
  have hrec : rxRecord s (.fwdRxBurst bufs) = (bufs.map (packetOf s)).map (.received j) := by
    simp only [rxRecord, hpc, List.map_map]
    rfl
  have hpackets := rxPackets_received j pid (bufs.map (packetOf s))
  have hfreed := rxFreed_received j pid (bufs.map (packetOf s))
  have hnew := receiving_inputLoop (n := n) j pid bufs 0
  rw [← hrec] at hpackets hfreed
  rw [← hfwd, List.drop_zero] at hnew
  by_cases hj : j = pid
  · rw [if_pos hj] at hpackets hnew
    obtain ⟨htoWrite, htoFree⟩ := Prod.mk.inj hnew
    refine ⟨bufs, [], hpackets, ?_, ?_, by simpa using hwritten, fun chain _ => ?_⟩
    · rw [htoWrite, hpc]
      rfl
    · rw [hfreed, htoFree, hpc]
      rfl
    · exact packetOf_congr fun m _ => by rw [hmbufs]
  · rw [if_neg hj] at hpackets hnew
    refine ⟨[], [], passes_stay hpackets hfreed ?_ hwritten fun m _ => by rw [hmbufs]⟩
    rw [hnew, hpc]
    rfl

theorem passes_fwdFree {j : ℕ} {bufs : List (List Mbuf)} {i : ℕ} {chain : List Mbuf}
    (hpc : s.fwd = .free j bufs i) (hm : bufs[i]? = some chain)
    (hfwd : s'.fwd = inputLoop n j bufs (i + 1)) (hmbufs : s'.mbufs = s.mbufs) (pid : ℕ)
    (hwritten : (s'.ports pid).written = (s.ports pid).written) :
    ∃ bufs' passed, RxPasses s s' (rxRecord s .fwdFree) pid bufs' passed := by
  have hrec : rxRecord s .fwdFree = [.freed j chain] := by simp [rxRecord, hpc, hm]
  have hnew := receiving_inputLoop (n := n) j pid bufs (i + 1)
  rw [← hfwd] at hnew
  by_cases hj : j = pid
  · rw [if_pos hj] at hnew
    obtain ⟨htoWrite, htoFree⟩ := Prod.mk.inj hnew
    have hfreed : rxFreed pid [.freed j chain] = [chain] := by simp [rxFreed, RxEvent.freed?, hj]
    refine ⟨[], [], by rw [hrec]; rfl, ?_, ?_, by simpa using hwritten, fun chain _ => ?_⟩
    · rw [htoWrite, hpc, FwdPc.toWrite, if_pos hj, List.nil_append, List.append_nil]
    · rw [hrec, hfreed, htoFree, hpc, FwdPc.toFree, if_pos hj, drop_of_getElem? hm,
        List.append_nil, List.singleton_append]
    · exact packetOf_congr fun m _ => by rw [hmbufs]
  · rw [if_neg hj] at hnew
    have hfreed : rxFreed pid [.freed j chain] = [] := by simp [rxFreed, RxEvent.freed?, hj]
    refine ⟨[], [], passes_stay (by rw [hrec]; rfl) (by rw [hrec, hfreed]) ?_ hwritten
      fun m _ => by rw [hmbufs]⟩
    rw [hnew, hpc]
    exact (Prod.ext (if_neg hj) (if_neg hj)).symm

/-- The packet before `fwd_main` is passed over, or written. -/
theorem passes_one {j : ℕ} {bufs : List (List Mbuf)} {i : ℕ} {chain : List Mbuf}
    (hpc : s.fwd = .input j bufs i ∨ s.fwd = .write j bufs i) (hm : bufs[i]? = some chain)
    (hfwd : s'.fwd = .free j bufs i) (hmbufs : s'.mbufs = s.mbufs) {evs : List RxEvent}
    (hevs : evs = []) (pid : ℕ)
    (hwritten : (s'.ports pid).written = (s.ports pid).written ++
      if j = pid ∧ (packetOf s chain).IsForwarded then [(packetOf s chain).sent] else []) :
    ∃ bufs' passed, RxPasses s s' evs pid bufs' passed := by
  subst hevs
  have hold : s.fwd.receiving pid = ((FwdPc.input j bufs i).toWrite pid, s'.fwd.toFree pid) := by
    rw [hfwd]
    rcases hpc with hpc | hpc <;> rw [hpc] <;> rfl
  have hnew : s'.fwd.toWrite pid = (FwdPc.free j bufs i).toWrite pid := by rw [hfwd]
  obtain ⟨htoWrite, htoFree⟩ := Prod.mk.inj hold
  by_cases hj : j = pid
  · refine ⟨[], [chain], rfl, ?_, ?_, ?_, fun chain _ => ?_⟩
    · rw [htoWrite, hnew, FwdPc.toWrite, FwdPc.toWrite, if_pos hj, if_pos hj,
        drop_of_getElem? hm, List.append_nil, List.singleton_append]
    · rw [htoFree, List.append_nil]
      rfl
    · rw [hwritten]
      by_cases hf : (packetOf s chain).IsForwarded
      · simp [hf, hj]
      · simp [hf]
    · exact packetOf_congr fun m _ => by rw [hmbufs]
  · refine ⟨[], [], passes_stay rfl rfl ?_ ?_ fun m _ => by rw [hmbufs]⟩
    · rw [hold, FwdPc.receiving, hnew, FwdPc.toWrite, FwdPc.toWrite, if_neg hj, if_neg hj]
    · simpa [hj] using hwritten

/-- Every step is one of these. -/
theorem passes_of_steps (hacc : Accounted s) (hchecked : Checked s) (h : Steps n s a s')
    (pid : ℕ) : ∃ bufs passed, RxPasses s s' (rxRecord s a) pid bufs passed := by
  have hfree (chain : List Mbuf) (t : State) :
      ((t.free chain).ports pid).written = (t.ports pid).written :=
    free_congr Port.written (fun _ _ => rfl) pid chain t
  have hmbufs : ∀ m ∈ s.fwd.held, s'.mbufs m = s.mbufs m := fun m hm => mbufs_of_steps hacc h hm
  have hstay (hrec : rxRecord s a = []) (hfwd : s'.fwd.receiving pid = s.fwd.receiving pid)
      (hwritten : (s'.ports pid).written = (s.ports pid).written) :
      ∃ bufs passed, RxPasses s s' (rxRecord s a) pid bufs passed := by
    rw [hrec]
    exact ⟨[], [], passes_stay rfl rfl hfwd hwritten hmbufs⟩
  cases h with
  | tapAllocNone => exact hstay rfl rfl rfl
  | tapReadNull => exact hstay rfl rfl rfl
  | tapReadFail => exact hstay rfl rfl rfl
  | tapEnqueueFull => exact hstay rfl rfl rfl
  | fwdWriteFail => exact hstay rfl rfl rfl
  | driverWrite => exact hstay rfl rfl rfl
  | fwdRingEmpty hpc hnext =>
      refine hstay rfl ?_ rfl
      rcases hnext with rfl | rfl <;> rw [hpc] <;> rfl
  | @fwdDequeueBurst j hpc =>
      refine hstay rfl ?_ (update_congr Port.written (by rfl) pid)
      rw [setFwd_fwd, receiving_txLoop, hpc]
      rfl
  | @fwdTxBurst j mbufs i m hpc hm =>
      refine hstay rfl ?_ (update_congr Port.written (by rfl) pid)
      rw [setFwd_fwd, receiving_txLoop, hpc]
      rfl
  | @fwdTxBurstFail j mbufs i m hpc hm =>
      refine hstay rfl ?_ (update_congr Port.written (by rfl) pid)
      rw [hpc]
      rfl
  | @fwdTxFree j mbufs i m hpc hm =>
      refine hstay rfl ?_ (Eq.trans ?_ (hfree [m] s))
      · rw [setFwd_fwd, receiving_txLoop, hpc]
        rfl
      · exact update_congr Port.written (by rfl) pid
  | @fwdRxBurst j bufs hpc hbufs =>
      apply passes_fwdRxBurst hpc
      · rw [setFwd_fwd]
      · rw [setFwd_mbufs, modifyPort_mbufs]
      · exact update_congr Port.written (by rfl) pid
  | @fwdInput j bufs i m segs pc hpc hm hnext =>
      subst hnext
      by_cases hf : Forwarded (s.mbufs m).etherType
      · refine hstay rfl ?_ rfl
        rw [setFwd_fwd, if_pos hf, hpc]
        rfl
      · apply passes_one (.inl hpc) hm
        · rw [setFwd_fwd, if_neg hf]
        · rw [setFwd_mbufs]
        · rfl
        · have hnot : ¬ (j = pid ∧ (packetOf s (m :: segs)).IsForwarded) := fun h => hf h.2
          rw [if_neg hnot, List.append_nil, setFwd_ports]
  | @fwdWrite j bufs i m segs hpc hm =>
      have hf := hchecked j bufs i _ hpc hm
      apply passes_one (.inr hpc) hm
      · rw [setFwd_fwd]
      · rw [setFwd_mbufs, modifyPort_mbufs]
      · rfl
      · obtain rfl | hne := eq_or_ne pid j
        · rw [if_pos ⟨rfl, hf⟩, setFwd_ports, modifyPort_self]
          rfl
        · rw [if_neg fun h => hne h.1.symm, List.append_nil, setFwd_ports, modifyPort_of_ne s hne]
  | @fwdFree j bufs i chain hpc hm =>
      apply passes_fwdFree hpc hm
      · rw [setFwd_fwd]
      · rw [setFwd_mbufs, free_mbufs]
      · exact hfree chain s
  | @driverFree j m hm =>
      refine hstay rfl rfl ((hfree [m] _).trans ?_)
      exact update_congr Port.written (by rfl) pid
  | _ => exact hstay rfl rfl (update_congr Port.written (by rfl) pid)

theorem txLoop_ne_write {j pid i k : ℕ} {mbufs : List Mbuf} {bufs : List (List Mbuf)} :
    txLoop j mbufs i ≠ .write pid bufs k := by
  unfold txLoop
  split_ifs <;> simp

theorem inputLoop_ne_write {j pid i k : ℕ} {bufs bufs' : List (List Mbuf)} :
    inputLoop n j bufs i ≠ .write pid bufs' k := by
  unfold inputLoop
  split_ifs <;> simp

/-- The type is looked at before the write, and nobody changes it in between. -/
theorem checked_step (hacc : Accounted s) (hchecked : Checked s) (h : Steps n s a s') :
    Checked s' := by
  intro pid bufs i chain hpc hm
  have hmbufs : ∀ m ∈ s.fwd.held, s'.mbufs m = s.mbufs m := fun m hm => mbufs_of_steps hacc h hm
  have hstay (hfwd : s'.fwd = s.fwd) : (packetOf s' chain).IsForwarded := by
    rw [hfwd] at hpc
    have hheld : ∀ m ∈ chain, m ∈ s.fwd.held := by
      intro m hmem
      rw [hpc, FwdPc.held, drop_of_getElem? hm]
      exact List.mem_flatten.mpr ⟨chain, .head _, hmem⟩
    rw [packetOf_congr fun m hmem => hmbufs m (hheld m hmem)]
    exact hchecked pid bufs i chain hpc hm
  cases h with
  | fwdRingEmpty _ hnext => rcases hnext with rfl | rfl <;> cases hpc
  | fwdDequeueBurst => exact absurd hpc txLoop_ne_write
  | fwdTxBurst => exact absurd hpc txLoop_ne_write
  | fwdTxBurstFail => cases hpc
  | fwdTxFree => exact absurd hpc txLoop_ne_write
  | fwdRxBurst => exact absurd hpc inputLoop_ne_write
  | @fwdInput j bufs' i' m segs pc _ hm' hnext =>
      subst hnext
      rw [setFwd_fwd] at hpc
      split_ifs at hpc with hf
      cases hpc
      rw [hm] at hm'
      cases hm'
      exact hf
  | fwdWrite => cases hpc
  | fwdFree => exact absurd hpc inputLoop_ne_write
  | _ => exact hstay rfl

/-! ### Runs -/

/-- How the log and what was written go together. -/
structure RxInv (s : State) (log : List RxEvent) (pid : ℕ) : Prop where
  packets : rxPackets pid log = handled s log pid ++ (s.fwd.toWrite pid).map (packetOf s)
  written : (s.ports pid).written =
    ((handled s log pid).filter (·.IsForwarded)).map Packet.sent
  freed : (rxPackets pid log).map Packet.chain = rxFreed pid log ++ s.fwd.toFree pid

theorem handled_of_append {pid : ℕ} {log : List RxEvent} {done : List Packet}
    (h : rxPackets pid log = done ++ (s.fwd.toWrite pid).map (packetOf s)) :
    handled s log pid = done := by
  unfold handled
  rw [h, List.length_append, List.length_map, Nat.add_sub_cancel, List.take_left]

theorem rxInv_step {pid : ℕ} {log evs : List RxEvent} {bufs passed : List (List Mbuf)}
    (h : RxPasses s s' evs pid bufs passed) (hinv : RxInv s log pid) :
    RxInv s' (log ++ evs) pid := by
  have hpackets : rxPackets pid (log ++ evs) =
      (handled s log pid ++ passed.map (packetOf s)) ++
        (s'.fwd.toWrite pid).map (packetOf s') := by
    calc rxPackets pid (log ++ evs)
        = handled s log pid ++ (s.fwd.toWrite pid ++ bufs).map (packetOf s) := by
          rw [rxPackets_append, hinv.packets, h.packets, List.map_append, List.append_assoc]
      _ = handled s log pid ++ (passed ++ s'.fwd.toWrite pid).map (packetOf s) := by
          rw [h.toWrite]
      _ = _ := by
          rw [List.map_append, ← List.append_assoc, List.map_congr_left h.pending]
  have hhandled := handled_of_append hpackets
  refine ⟨by rw [hhandled, hpackets], ?_, ?_⟩
  · rw [h.written, hinv.written, hhandled, List.filter_append, List.map_append]
  · rw [rxPackets_append, rxFreed_append, List.map_append, hinv.freed, h.packets, List.map_map,
      chain_packetOf, List.map_id, List.append_assoc, List.append_assoc, h.toFree]

variable {ok : State × List RxEvent → Act → Prop} {mbufs : Mbuf → MbufData} {log : List RxEvent}

/-- **Order**: in every run the packets are handled in the order in which they were handed
over, each is freed once, and what is written is what `tap_send` makes of them. -/
theorem rxInv (h : Reachable (rxStep n) ok (initState mbufs, []) (s, log)) (pid : ℕ) :
    RxInv s log pid := by
  have hinv : Checked s ∧ RxInv s log pid := by
    refine h.induct (I := fun x => Checked x.1 ∧ RxInv x.1 x.2 pid) ?_ ?_
    · refine ⟨?_, rfl, rfl, rfl⟩
      intro pid bufs i chain hpc
      cases hpc
    · rintro ⟨t, log⟩ a ⟨t', log'⟩ hr ⟨hchecked, hinv⟩ - hs
      obtain ⟨hs, rfl⟩ := logged_eq_some.mp hs
      have hsteps := (steps_of_step hs).2
      have hacc := accounted hr.of_logged
      obtain ⟨bufs, passed, hpasses⟩ := passes_of_steps hacc hchecked hsteps pid
      exact ⟨checked_step hacc hchecked hsteps, rxInv_step hpasses hinv⟩
  exact hinv.2

theorem wellFormed_rxRecord {a : Act} (hok : RxOk (s, log) a) (pid : ℕ) :
    ∀ p ∈ rxPackets pid (rxRecord s a), p.WellFormed := by
  intro p hp
  cases a with
  | fwdRxBurst bufs =>
      simp only [rxRecord] at hp
      split at hp
      · rename_i j _
        have hmap : (bufs.map fun chain => RxEvent.received j (packetOf s chain)) =
            (bufs.map (packetOf s)).map (.received j) := (List.map_map ..).symm
        rw [hmap, rxPackets_received] at hp
        split_ifs at hp
        · obtain ⟨chain, hchain, rfl⟩ := List.mem_map.mp hp
          exact hok bufs rfl chain hchain
        · cases hp
      · cases hp
  | fwdFree =>
      simp only [rxRecord] at hp
      split at hp
      · obtain ⟨e, he, hpe⟩ := List.mem_filterMap.mp hp
        obtain ⟨chain, -, rfl⟩ := List.mem_map.mp he
        cases hpe
      · cases hp
  | _ => cases hp

theorem wellFormed_of_mem (h : Reachable (rxStep n) RxOk (initState mbufs, []) (s, log)) (pid : ℕ) :
    ∀ p ∈ rxPackets pid log, p.WellFormed := by
  refine h.induct (I := fun x => ∀ p ∈ rxPackets pid x.2, p.WellFormed) ?_ ?_
  · intro p hp
    cases hp
  · rintro ⟨t, log⟩ a ⟨t', log'⟩ - hlog hok hs p hp
    obtain ⟨-, rfl⟩ := logged_eq_some.mp hs
    rw [rxPackets_append, List.mem_append] at hp
    rcases hp with hp | hp
    · exact hlog p hp
    · exact wellFormed_rxRecord hok pid p hp

/-- Only the end of `port_input` frees what the NIC handed over. -/
theorem frees_toFree (hacc : Accounted s) (h : Steps n s a s') {pid : ℕ} {m : Mbuf}
    (hm : m ∈ (s.fwd.toFree pid).flatten) (hfrees : m ∈ frees s a) : a = .fwdFree := by
  obtain ⟨chain, hchain, hmem⟩ := List.mem_flatten.mp hm
  cases h with
  | fwdFree => rfl
  | fwdTxFree hpc _ =>
      rw [hpc] at hchain
      cases hchain
  | @driverFree j m' hdriver =>
      have hsole : Sole (view s) m .fwd :=
        hacc.sole_of_mem (r := .fwd) (FwdPc.mem_held (.inr hchain) hmem)
      have hdriver' : m ∈ view s (.driver j) := by
        rw [List.mem_singleton.mp hfrees]
        exact hdriver
      cases hsole.eq_of_mem hdriver'
  | _ => exact absurd hfrees List.not_mem_nil

/-- **Host interface**: when the packets handed over are well formed, what is written is the
packets of the four types, with the data of all their segments, if and only if each of them
happened to be contiguous behind its first segment.  Behind the 2048 bytes of room of an mbuf lies
the next object of the pool; its bytes are taken to be the same from `rte_eth_rx_burst` to the
`write`. -/
theorem hostifOk_iff (h : Reachable (rxStep n) RxOk (initState mbufs, []) (s, log)) (pid : ℕ) :
    HostifOk n s log pid ↔ ∀ p ∈ handled s log pid, p.IsForwarded → p.Contiguous := by
  have hinv := rxInv h pid
  have hsent : (s.ports pid).written =
      ((handled s log pid).filter (·.IsForwarded)).map Packet.frame ↔
        ∀ p ∈ handled s log pid, p.IsForwarded → p.Contiguous := by
    rw [hinv.written, List.map_inj_left]
    refine forall_congr' fun p => ?_
    rw [List.mem_filter, decide_eq_true_iff, and_imp]
    refine imp_congr_right fun hp => imp_congr_right fun _ => ?_
    exact Packet.sent_eq_frame_iff (wellFormed_of_mem h pid p (List.mem_of_mem_take hp))
  constructor
  · intro hok
    exact hsent.mp hok.written
  · intro hcontiguous
    refine ⟨hsent.mpr hcontiguous, hinv.freed, fun a s' hs m hm hfrees => ?_⟩
    exact frees_toFree (accounted h.of_logged) (steps_of_step hs).2 hm hfrees

/-! ### A packet -/

theorem step_driverTake {pid : ℕ} {m : Mbuf} (hrun : s.status = .running) (hpid : pid < n)
    (hm : m ∈ (s.ports pid).mp) :
    step n s (.driverTake pid m) = some (s.modifyPort pid fun p =>
      { p with mp := p.mp.erase m, driver := m :: p.driver }) := by
  simp [step, tapStep, fwdStep, envStep, hrun, hpid, hm]

theorem step_fwdRingEmpty_nil {pid : ℕ} (hrun : s.status = .running) (hpc : s.fwd = .ringEmpty pid)
    (hpid : pid < n) (hring : (s.ports pid).fromHostif = []) :
    step n s .fwdRingEmpty = some (s.setFwd (.rxBurst pid)) := by
  simp [step, tapStep, fwdStep, hrun, hpc, hpid, hring]

theorem step_fwdRxBurst {pid : ℕ} {chain : List Mbuf} (hrun : s.status = .running)
    (hpc : s.fwd = .rxBurst pid) (hchain : chain ≠ []) (hdriver : (s.ports pid).driver = chain) :
    step n s (.fwdRxBurst [chain]) = some ((s.modifyPort pid fun p =>
      { p with driver := p.driver.diff [chain].flatten }).setFwd (.input pid [chain] 0)) := by
  simp [step, tapStep, fwdStep, hrun, hpc, hchain, hdriver, inputLoop, burstSize, List.Subperm.refl]

theorem step_fwdInput {pid : ℕ} (m : Mbuf) (segs : List Mbuf) (hrun : s.status = .running)
    (hpc : s.fwd = .input pid [m :: segs] 0) (hf : Forwarded (s.mbufs m).etherType) :
    step n s .fwdInput = some (s.setFwd (.write pid [m :: segs] 0)) := by
  simp [step, tapStep, fwdStep, hrun, hpc, hf]

theorem step_fwdWrite {pid : ℕ} (m : Mbuf) (segs : List Mbuf) (hrun : s.status = .running)
    (hpc : s.fwd = .write pid [m :: segs] 0) :
    step n s (.fwdWrite true) = some ((s.modifyPort pid fun p =>
      { p with written := p.written ++
        [bytesAt (s.mbufs m).data 0 (s.mbufs m).pktLen] }).setFwd (.free pid [m :: segs] 0)) := by
  simp [step, tapStep, fwdStep, hrun, hpc]

theorem rxOk_of_ne (h : ∀ bufs, a ≠ .fwdRxBurst bufs) : RxOk (s, log) a :=
  fun bufs ha => absurd ha (h bufs)

/-- The driver can take the mbufs of a chain. -/
theorem reachable_driver (mbufs : Mbuf → MbufData) : ∀ chain : List Mbuf, chain.Nodup →
    (∀ m ∈ chain, m ∈ (initPort 0).mp) →
    ∃ s, Reachable (rxStep 1) RxOk (initState mbufs, []) (s, []) ∧ s.status = .running ∧
      s.fwd = .ringEmpty 0 ∧ s.mbufs = mbufs ∧ (s.ports 0).fromHostif = [] ∧
      (s.ports 0).driver = chain ∧ ∀ m ∈ (initPort 0).mp, m ∉ chain → m ∈ (s.ports 0).mp
  | [], _, _ => ⟨_, .refl _, rfl, rfl, rfl, rfl, rfl, fun m hm _ => hm⟩
  | m :: chain, hnodup, hmp => by
      rw [List.nodup_cons] at hnodup
      obtain ⟨s, hs, hrun, hpc, hmbufs, hring, hdriver, hfree⟩ :=
        reachable_driver mbufs chain hnodup.2 fun m' hm' => hmp m' (.tail _ hm')
      have hstep := step_driverTake hrun Nat.one_pos (hfree m (hmp m (.head _)) hnodup.1)
      refine ⟨_, hs.tail_logged (rxOk_of_ne (by simp)) hstep, hrun, hpc, hmbufs, by simp [hring],
        by simp [hdriver], fun m' hm' hne => ?_⟩
      rw [List.mem_cons, not_or] at hne
      rw [modifyPort_self]
      exact (List.mem_erase_of_ne hne.1).mpr (hfree m' hm' hne.2)

/-- A packet of one of the four types can come, and is written. -/
theorem reachable_written {m : Mbuf} {segs : List Mbuf} (hnodup : (m :: segs).Nodup)
    (hmp : ∀ m' ∈ m :: segs, m' ∈ (initPort 0).mp)
    (hwf : (packetOf (initState mbufs) (m :: segs)).WellFormed)
    (hf : Forwarded (mbufs m).etherType) :
    ∃ s log, Reachable (rxStep 1) RxOk (initState mbufs, []) (s, log) ∧
      handled s log 0 = [packetOf (initState mbufs) (m :: segs)] := by
  obtain ⟨s, hs, hrun, hpc, hmbufs, hring, hdriver, -⟩ :=
    reachable_driver mbufs (m :: segs) hnodup hmp
  have hpacket : packetOf s (m :: segs) = packetOf (initState mbufs) (m :: segs) := by
    unfold packetOf
    rw [hmbufs]
    rfl
  have hempty := hs.tail_logged (rxOk_of_ne (by simp))
    (step_fwdRingEmpty_nil hrun hpc Nat.one_pos hring)
  have hok : RxOk (s.setFwd (.rxBurst 0), []) (.fwdRxBurst [m :: segs]) := by
    intro bufs ha chain hchain
    cases ha
    rw [List.mem_singleton.mp hchain]
    have hsame : packetOf (s.setFwd (.rxBurst 0)) (m :: segs) = packetOf s (m :: segs) := rfl
    rw [hsame, hpacket]
    exact hwf
  have hburst := hempty.tail_logged hok (step_fwdRxBurst hrun rfl (List.cons_ne_nil m segs) hdriver)
  have hinput := hburst.tail_logged (rxOk_of_ne (by simp))
    (step_fwdInput m segs hrun rfl (by rw [← hmbufs] at hf; exact hf))
  have hwrite := hinput.tail_logged (rxOk_of_ne (by simp))
    (step_fwdWrite m segs hrun rfl)
  refine ⟨_, _, hwrite, ?_⟩
  rw [← hpacket]
  apply handled_of_append
  simp [rxRecord, rxPackets, RxEvent.received?, FwdPc.toWrite, packetOf]

/-- An mbuf with an Ethernet header of type 0x0800 in it, followed by zeros. -/
def ipv4Mbuf (dataLen pktLen : ℕ) : MbufData where
  data a := if a = 12 then 8 else 0
  dataLen := dataLen
  pktLen := pktLen

/-- A run in which a packet of one segment was written. -/
theorem hostifOk_iff_single : ∃ s log,
    Reachable (rxStep 1) RxOk (initState fun _ => ipv4Mbuf 60 60, []) (s, log) ∧
      (s.ports 0).written = [bytesAt (ipv4Mbuf 60 60).data 0 60] ∧
      HostifOk 1 s log 0 := by
  have hwf : (packetOf (initState fun _ => ipv4Mbuf 60 60) [⟨0, 0⟩]).WellFormed :=
    ⟨by decide, rfl⟩
  have hmp : ∀ m ∈ [(⟨0, 0⟩ : Mbuf)], m ∈ (initPort 0).mp := by
    intro m hm
    rw [List.mem_singleton.mp hm]
    exact mem_initPort.mpr ⟨rfl, Nat.zero_lt_succ _⟩
  obtain ⟨s, log, h, hhandled⟩ :=
    reachable_written (List.nodup_singleton _) hmp hwf (.inr (.inl rfl))
  have hok : HostifOk 1 s log 0 := by
    refine (hostifOk_iff h 0).mpr fun p hp _ => ?_
    rw [hhandled, List.mem_singleton] at hp
    subst hp
    exact Packet.contiguous_of_single hwf rfl
  refine ⟨s, log, h, ?_, hok⟩
  rw [hok.written, hhandled]
  rfl

/-- A packet of 3000 bytes in two mbufs: the first one is full, the rest is in the second one. -/
def twoMbufs (m : Mbuf) : MbufData :=
  if m.idx = 0 then ipv4Mbuf dataRoom 3000
  else { data := fun _ => 1, dataLen := 952, pktLen := 952 }

/-- Of a packet of two segments the second is not written. -/
theorem not_hostifOk_chain : ∃ s log,
    Reachable (rxStep 1) RxOk (initState twoMbufs, []) (s, log) ∧ ¬ HostifOk 1 s log 0 := by
  have hmp : ∀ m ∈ [(⟨0, 0⟩ : Mbuf), ⟨0, 1⟩], m ∈ (initPort 0).mp := by
    intro m hm
    rw [List.mem_pair] at hm
    rcases hm with rfl | rfl
    · exact mem_initPort.mpr ⟨rfl, by decide⟩
    · exact mem_initPort.mpr ⟨rfl, by decide⟩
  have hwf : (packetOf (initState twoMbufs) [⟨0, 0⟩, ⟨0, 1⟩]).WellFormed := ⟨by decide, rfl⟩
  have hf : (packetOf (initState twoMbufs) [⟨0, 0⟩, ⟨0, 1⟩]).IsForwarded := .inr (.inl rfl)
  obtain ⟨s, log, h, hhandled⟩ := reachable_written (by decide) hmp hwf hf
  refine ⟨s, log, h, fun hok => ?_⟩
  have hwritten := hok.written
  rw [(rxInv h 0).written, hhandled, List.filter_cons_of_pos (by simpa using hf),
    List.filter_nil, List.map_singleton, List.map_singleton, List.singleton_inj,
    Packet.sent_eq_frame_iff hwf] at hwritten
  -- behind the room of the first mbuf there is a 0, in the second one a 1
  have hbyte := congrArg List.head? hwritten
  exact absurd hbyte (by decide)

end Hspp
