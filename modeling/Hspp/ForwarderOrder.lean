import Hspp.Lib.Fifo
import Hspp.ForwarderCustody

/-! # What is sent, and in which order

On its way from the host interface of a port to the NIC a frame is in the mbuf of `tap_main`,
then in the ring, then in the burst of `fwd_main`: for each port these are one line, and
every step of the system is a step of it (`line_step`).  The contents of the mbufs on the
way do not change, since who writes to an mbuf holds it (`Accounted`).

So what was offered to the NIC is a prefix of what was read, and every packet offered was
taken by the driver or freed (`forwarder_order`). -/

namespace Hspp

open Custody Fifo Memory Transition

/-- The mbuf that `tap_main` has filled for port `pid`. -/
def TapPc.toSend (pid : ℕ) : TapPc → List Mbuf
  | .enqueue j m => if j = pid then [m] else []
  | _ => []

/-- The mbufs that `fwd_main` has taken from the ring of port `pid` and not offered yet. -/
def FwdPc.toSend (pid : ℕ) : FwdPc → List Mbuf
  | .txBurst j mbufs i => if j = pid then mbufs.drop i else []
  | .txFree j mbufs i => if j = pid then mbufs.drop (i + 1) else []
  | _ => []

/-- The mbuf of port `pid` that `fwd_main` is about to free, as the NIC did not take it. -/
def FwdPc.refused (pid : ℕ) : FwdPc → Option Mbuf
  | .txFree j mbufs i => if j = pid then mbufs[i]? else none
  | _ => none

/-- The mbufs on their way to the NIC of port `pid`. -/
def inFlight (s : State) (pid : ℕ) : List Mbuf :=
  s.fwd.toSend pid ++ (s.ports pid).fromHostif ++ s.tap.toSend pid

/-- The packet that a frame is read into. -/
def asPacket (frame : Frame) : Frame × ℕ := (frame, frame.length)

/-- The way from the host interface of port `pid` to its NIC. -/
def line (s : State) (pid : ℕ) : Line (Frame × ℕ) where
  entered := (s.ports pid).read.map asPacket
  left := (s.ports pid).offered
  inside := (inFlight s pid).map fun m => (s.mbufs m).packet

/-- What a port has to say on what is on its way. -/
def Port.outgoing (p : Port) : List Frame × List (Frame × ℕ) × List Bool × List Mbuf :=
  (p.read, p.offered, p.settled, p.fromHostif)

def FwdPc.sending (pid : ℕ) (pc : FwdPc) : List Mbuf × Option Mbuf :=
  (pc.toSend pid, pc.refused pid)

variable {n : ℕ} {s s' : State} {a : Act}

@[simp] theorem sending_txLoop (j pid : ℕ) (mbufs : List Mbuf) (i : ℕ) :
    (txLoop j mbufs i).sending pid = (if j = pid then mbufs.drop i else [], none) := by
  unfold txLoop
  by_cases h : i < mbufs.length
  · rw [if_pos h]
    rfl
  · rw [if_neg h, List.drop_eq_nil_of_le (by omega), ite_self]
    rfl

@[simp] theorem sending_inputLoop (j pid : ℕ) (bufs : List (List Mbuf)) (i : ℕ) :
    (inputLoop n j bufs i).sending pid = ([], none) := by
  unfold inputLoop
  split_ifs <;> rfl

/-- What was just read is the packet in the mbuf. -/
theorem packet_read (mem : Mem) (got : Frame) :
    (MbufData.mk (Memory.write mem 0 got) got.length got.length).packet = asPacket got := by
  have hdata := (holds_write mem 0 got).bytesAt_eq (k := got.length) le_rfl
  rw [List.take_length] at hdata
  simp only [MbufData.packet, asPacket, hdata]

/-! ### The mbufs on the way -/

/-- An mbuf of port `pid` between the host interface and the NIC. -/
def OnWay (s : State) (pid : ℕ) (m : Mbuf) : Prop :=
  m ∈ inFlight s pid ∨ s.fwd.refused pid = some m

theorem TapPc.toSend_subset (pc : TapPc) (pid : ℕ) : ∀ m ∈ pc.toSend pid, m ∈ pc.held := by
  cases pc with
  | enqueue j m =>
      simp only [TapPc.toSend, TapPc.held]
      split_ifs <;> simp
  | _ => simp [TapPc.toSend]

theorem FwdPc.toSend_subset (pc : FwdPc) (pid : ℕ) : ∀ m ∈ pc.toSend pid, m ∈ pc.held := by
  cases pc with
  | txBurst j mbufs i =>
      simp only [FwdPc.toSend, FwdPc.held]
      split_ifs <;> simp
  | txFree j mbufs i =>
      simp only [FwdPc.toSend, FwdPc.held]
      split_ifs
      · exact fun m hm => (List.drop_sublist_drop_left mbufs (Nat.le_succ i)).subset hm
      · simp
  | _ => simp [FwdPc.toSend]

theorem FwdPc.refused_held {pc : FwdPc} {pid : ℕ} {m : Mbuf} (h : pc.refused pid = some m) :
    m ∈ pc.held := by
  cases pc with
  | txFree j mbufs i =>
      simp only [FwdPc.refused, Option.ite_none_right_eq_some] at h
      rw [FwdPc.held, drop_of_getElem? h.2]
      exact .head _
  | _ => simp [FwdPc.refused] at h

/-- An mbuf on its way is with a thread or in the ring. -/
theorem OnWay.mem {pid : ℕ} {m : Mbuf} (h : OnWay s pid m) :
    m ∈ view s .fwd ∨ m ∈ view s (.ring pid) ∨ m ∈ s.tap.toSend pid := by
  rcases h with hm | hm
  · simp only [inFlight, List.mem_append, or_assoc] at hm
    exact hm.imp_left (s.fwd.toSend_subset pid m)
  · exact .inl (FwdPc.refused_held hm)

/-- An mbuf that a driver owns, or that `tap_main` fills, is not on its way. -/
theorem OnWay.ne {pid : ℕ} {m m' : Mbuf} {r : Place} (h : OnWay s pid m')
    (hsole : Sole (view s) m r) (hr : r = .tap ∧ s.tap.toSend pid = [] ∨ ∃ j, r = .driver j) :
    m' ≠ m := by
  rintro rfl
  rcases h.mem with hm | hm | hm
  · have := hsole.eq_of_mem hm
    rcases hr with ⟨rfl, -⟩ | ⟨j, rfl⟩ <;> cases this
  · have := hsole.eq_of_mem hm
    rcases hr with ⟨rfl, -⟩ | ⟨j, rfl⟩ <;> cases this
  · rcases hr with ⟨-, hnil⟩ | ⟨j, rfl⟩
    · simp [hnil] at hm
    · cases hsole.eq_of_mem (show m' ∈ view s .tap from s.tap.toSend_subset pid m' hm)

/-! ### What a step does on the way -/

/-- What a step can do with the packets of port `pid`: none moves but from hand to hand, one
is read, one is offered and taken, one is offered and refused, the refused one is freed. -/
inductive Sends (s s' : State) (pid : ℕ) : Prop
  | stay (hread : (s'.ports pid).read = (s.ports pid).read)
      (hoffered : (s'.ports pid).offered = (s.ports pid).offered)
      (hsettled : (s'.ports pid).settled = (s.ports pid).settled)
      (hflight : inFlight s' pid = inFlight s pid)
      (hrefused : s'.fwd.refused pid = s.fwd.refused pid)
      (hmbufs : ∀ m, OnWay s pid m → s'.mbufs m = s.mbufs m)
  | read (m : Mbuf) (got : Frame) (hread : (s'.ports pid).read = (s.ports pid).read ++ [got])
      (hoffered : (s'.ports pid).offered = (s.ports pid).offered)
      (hsettled : (s'.ports pid).settled = (s.ports pid).settled)
      (hflight : inFlight s' pid = inFlight s pid ++ [m])
      (hrefused : s'.fwd.refused pid = s.fwd.refused pid)
      (hpacket : (s'.mbufs m).packet = asPacket got)
      (hmbufs : ∀ m, OnWay s pid m → s'.mbufs m = s.mbufs m)
  | offer {m : Mbuf} (hread : (s'.ports pid).read = (s.ports pid).read)
      (hoffered : (s'.ports pid).offered = (s.ports pid).offered ++ [(s.mbufs m).packet])
      (hflight : inFlight s pid = m :: inFlight s' pid) (hrefused : s.fwd.refused pid = none)
      (hmbufs : s'.mbufs = s.mbufs)
      (hsettled : (s'.ports pid).settled = (s.ports pid).settled ++ [true] ∧
        s'.fwd.refused pid = none ∨
          (s'.ports pid).settled = (s.ports pid).settled ∧ s'.fwd.refused pid = some m)
  | free {m : Mbuf} (hread : (s'.ports pid).read = (s.ports pid).read)
      (hoffered : (s'.ports pid).offered = (s.ports pid).offered)
      (hsettled : (s'.ports pid).settled = (s.ports pid).settled ++ [false])
      (hflight : inFlight s' pid = inFlight s pid) (hrefused : s.fwd.refused pid = some m)
      (hrefused' : s'.fwd.refused pid = none) (hmbufs : s'.mbufs = s.mbufs)

theorem sends_stay {pid : ℕ} (hport : (s'.ports pid).outgoing = (s.ports pid).outgoing)
    (htap : s'.tap.toSend pid = s.tap.toSend pid)
    (hfwd : s'.fwd.sending pid = s.fwd.sending pid)
    (hmbufs : ∀ m, OnWay s pid m → s'.mbufs m = s.mbufs m) : Sends s s' pid := by
  simp only [Port.outgoing, Prod.mk.injEq] at hport
  simp only [FwdPc.sending, Prod.mk.injEq] at hfwd
  obtain ⟨hread, hoffered, hsettled, hring⟩ := hport
  exact .stay hread hoffered hsettled (by rw [inFlight, htap, hfwd.1, hring, inFlight]) hfwd.2
    hmbufs

theorem FwdPc.sending_of_ne {pc : FwdPc} {pid : ℕ} (h : pid ≠ pc.pid) :
    pc.sending pid = ([], none) := by
  cases pc with
  | txBurst j mbufs i => exact Prod.ext (if_neg (Ne.symm h)) rfl
  | txFree j mbufs i => exact Prod.ext (if_neg (Ne.symm h)) (if_neg (Ne.symm h))
  | _ => rfl

/-- What `fwd_main` sends for one port is nothing to the others. -/
theorem sends_of_ne {j pid : ℕ} (hne : pid ≠ j)
    (hport : (s'.ports pid).outgoing = (s.ports pid).outgoing) (hpid : s.fwd.pid = j)
    (hpid' : s'.fwd.pid = j) (htap : s'.tap = s.tap) (hmbufs : s'.mbufs = s.mbufs) :
    Sends s s' pid := by
  refine sends_stay hport (by rw [htap]) ?_ fun _ _ => by rw [hmbufs]
  subst hpid
  rw [FwdPc.sending_of_ne hne, FwdPc.sending_of_ne (by rwa [hpid'])]

theorem outgoing_free (pid : ℕ) (chain : List Mbuf) (s : State) :
    ((s.free chain).ports pid).outgoing = (s.ports pid).outgoing :=
  free_congr Port.outgoing (fun _ _ => rfl) pid chain s

/-- Every step is one of these, for each port. -/
theorem sends_of_steps (hacc : Accounted s) (h : Steps n s a s') (pid : ℕ) : Sends s s' pid := by
  cases h with
  | tapAllocNone hpc _ => exact sends_stay rfl (by rw [hpc]; rfl) rfl fun _ _ => rfl
  | @tapAlloc j m hpc _ =>
      refine sends_stay ?_ (by rw [hpc]; rfl) rfl fun _ _ => rfl
      exact update_congr Port.outgoing (by rfl) pid
  | tapReadNull => exact sends_stay rfl rfl rfl fun _ _ => rfl
  | @tapRead j m frame frames hpc hwait =>
      have hsole : Sole (view s) m .tap := hacc.sole_tap (by simp [hpc, TapPc.uses])
      have hnil : s.tap.toSend pid = [] := by rw [hpc]; rfl
      have hmbufs : ∀ d m', OnWay s pid m' → Function.update s.mbufs m d m' = s.mbufs m' :=
        fun d m' hm' => Function.update_of_ne (hm'.ne hsole (.inl ⟨rfl, hnil⟩)) ..
      obtain rfl | hpid := eq_or_ne pid j
      · refine .read m (frame.take dataRoom) (by simp) (by simp) (by simp) ?_ rfl ?_ (hmbufs _)
        · simp [inFlight, hpc, TapPc.toSend]
        · exact (congrArg _ (Function.update_self ..)).trans (packet_read _ _)
      · refine sends_stay ?_ ?_ rfl (hmbufs _)
        · rw [setTap_ports, setMbuf_ports, modifyPort_of_ne s hpid]
        · rw [hnil]
          exact if_neg (Ne.symm hpid)
  | tapReadFail => exact sends_stay rfl rfl rfl fun _ _ => rfl
  | @tapEnqueue j m hpc _ =>
      obtain rfl | hpid := eq_or_ne pid j
      · refine .stay (by simp) (by simp) (by simp) ?_ rfl fun _ _ => rfl
        simp [inFlight, hpc, TapPc.toSend]
      · refine sends_stay ?_ ?_ rfl fun _ _ => rfl
        · rw [setTap_ports, modifyPort_of_ne s hpid]
        · rw [hpc]
          exact (if_neg (Ne.symm hpid)).symm
  | tapEnqueueFull hpc hfull => exact absurd (hacc.hasRoom _ _ hpc) hfull
  | fwdRingEmpty hpc hnext =>
      refine sends_stay rfl rfl ?_ fun _ _ => rfl
      rcases hnext with rfl | rfl <;> rw [hpc] <;> rfl
  | @fwdDequeueBurst j hpc =>
      obtain rfl | hpid := eq_or_ne pid j
      · refine .stay (by simp) (by simp) (by simp) ?_ ?_ fun _ _ => rfl
        · rw [inFlight, inFlight, hpc, setFwd_fwd, (Prod.mk.inj (sending_txLoop ..)).1, if_pos rfl]
          simp [FwdPc.toSend]
        · rw [hpc, setFwd_fwd, (Prod.mk.inj (sending_txLoop ..)).2]
          rfl
      · exact sends_of_ne hpid (by rw [setFwd_ports, modifyPort_of_ne s hpid]) (by rw [hpc]; rfl)
          (pid_txLoop ..) rfl rfl
  | @fwdTxBurst j mbufs i m hpc hm =>
      obtain rfl | hpid := eq_or_ne pid j
      · have hfwd := Prod.mk.inj (sending_txLoop pid pid mbufs (i + 1))
        refine .offer (m := m) (by simp) (by simp) ?_ (by rw [hpc]; rfl) rfl
          (.inl ⟨by simp, hfwd.2⟩)
        rw [inFlight, inFlight, hpc, setFwd_fwd, hfwd.1, if_pos rfl, FwdPc.toSend, if_pos rfl,
          drop_of_getElem? hm]
        simp
      · exact sends_of_ne hpid (by rw [setFwd_ports, modifyPort_of_ne s hpid]) (by rw [hpc]; rfl)
          (pid_txLoop ..) rfl rfl
  | @fwdTxBurstFail j mbufs i m hpc hm =>
      obtain rfl | hpid := eq_or_ne pid j
      · refine .offer (m := m) (by simp) (by simp) ?_ (by rw [hpc]; rfl) rfl
          (.inr ⟨by simp, (if_pos rfl).trans hm⟩)
        rw [inFlight, inFlight, hpc, setFwd_fwd, FwdPc.toSend, if_pos rfl, FwdPc.toSend, if_pos rfl,
          drop_of_getElem? hm]
        simp
      · exact sends_of_ne hpid (by rw [setFwd_ports, modifyPort_of_ne s hpid]) (by rw [hpc]; rfl)
          rfl rfl rfl
  | @fwdTxFree j mbufs i m hpc hm =>
      have hfree := outgoing_free pid [m] s
      obtain rfl | hpid := eq_or_ne pid j
      · have hfwd := Prod.mk.inj (sending_txLoop pid pid mbufs (i + 1))
        simp only [Port.outgoing, Prod.mk.injEq] at hfree
        obtain ⟨hread, hoffered, hsettled, hring⟩ := hfree
        refine .free (m := m) (by simp [hread]) (by simp [hoffered]) (by simp [hsettled]) ?_ ?_
          hfwd.2 rfl
        · rw [inFlight, inFlight, hpc, setFwd_fwd, hfwd.1, if_pos rfl, FwdPc.toSend, if_pos rfl]
          simp [hring]
        · rw [hpc]
          exact (if_pos rfl).trans hm
      · exact sends_of_ne hpid (by rw [setFwd_ports, modifyPort_of_ne _ hpid, hfree])
          (by rw [hpc]; rfl) (pid_txLoop ..) rfl rfl
  | @fwdRxBurst j bufs hpc hbufs =>
      refine sends_stay ?_ rfl (by rw [hpc, setFwd_fwd, sending_inputLoop]; rfl) fun _ _ => rfl
      exact update_congr Port.outgoing (by rfl) pid
  | fwdInput hpc hm hnext =>
      refine sends_stay rfl rfl ?_ fun _ _ => rfl
      subst hnext
      rw [hpc, setFwd_fwd]
      split_ifs <;> rfl
  | @fwdWrite j bufs i m segs hpc hm =>
      refine sends_stay ?_ rfl (by rw [hpc]; rfl) fun _ _ => rfl
      exact update_congr Port.outgoing (by rfl) pid
  | fwdWriteFail => exact sends_stay rfl rfl rfl fun _ _ => rfl
  | @fwdFree j bufs i chain hpc hm =>
      refine sends_stay (outgoing_free pid chain s) (by simp) ?_ fun _ _ => by simp
      rw [hpc, setFwd_fwd, sending_inputLoop]
      rfl
  | @hostSend j frame =>
      refine sends_stay ?_ rfl rfl fun _ _ => rfl
      exact update_congr Port.outgoing (by rfl) pid
  | @driverTake j m hm =>
      refine sends_stay ?_ rfl rfl fun _ _ => rfl
      exact update_congr Port.outgoing (by rfl) pid
  | @driverFree j m hm =>
      refine sends_stay ((outgoing_free pid [m] _).trans ?_) rfl rfl fun _ _ => rfl
      exact update_congr Port.outgoing (by rfl) pid
  | @driverWrite j m d hm =>
      refine sends_stay rfl rfl rfl fun m' hm' => Function.update_of_ne ?_ ..
      exact hm'.ne (hacc.sole_of_mem (r := .driver j) hm) (.inr ⟨j, rfl⟩)

theorem map_packet_congr {l : List Mbuf} (h : ∀ m ∈ l, s'.mbufs m = s.mbufs m) :
    (l.map fun m => (s'.mbufs m).packet) = l.map fun m => (s.mbufs m).packet :=
  List.map_congr_left fun m hm => by rw [h m hm]

/-- **Refinement**: every step is a step of the line of each port. -/
theorem line_step {pid : ℕ} (h : Sends s s' pid) : (line s pid).Step (line s' pid) := by
  cases h with
  | stay hread hoffered _ hflight _ hmbufs =>
      have hinside := map_packet_congr (s := s) fun m hm => hmbufs m (.inl hm)
      have hline : line s' pid = line s pid := by
        rw [line, hread, hoffered, hflight, hinside, line]
      exact hline ▸ .stay
  | read m got hread hoffered _ hflight _ hpacket hmbufs =>
      have hinside := map_packet_congr (s := s) fun m hm => hmbufs m (.inl hm)
      have hline : line s' pid = ⟨(line s pid).entered ++ [asPacket got], (line s pid).left,
          (line s pid).inside ++ [asPacket got]⟩ := by
        rw [line, hread, hoffered, hflight, List.map_append, List.map_append, List.map_singleton,
          List.map_singleton, hinside, hpacket, line]
      exact hline ▸ .enter _
  | @offer m hread hoffered hflight _ hmbufs _ =>
      have hline : line s' pid = ⟨(line s pid).entered,
          (line s pid).left ++ [(s.mbufs m).packet], (line s' pid).inside⟩ := by
        rw [line, hread, hoffered, line]
      rw [hline]
      refine .leave ?_
      rw [line, line, hflight, hmbufs, List.map_cons]
  | free hread hoffered _ hflight _ _ hmbufs =>
      have hline : line s' pid = line s pid := by rw [line, hread, hoffered, hflight, hmbufs, line]
      exact hline ▸ .stay

/-- Every packet offered was taken or freed, but the one that `fwd_main` is about to free. -/
def Settled (s : State) (pid : ℕ) : Prop :=
  match s.fwd.refused pid with
  | none => (s.ports pid).settled.length = (s.ports pid).offered.length
  | some m => (s.ports pid).settled.length + 1 = (s.ports pid).offered.length ∧
      (s.ports pid).offered.getLast? = some (s.mbufs m).packet

theorem settled_step {pid : ℕ} (h : Sends s s' pid) (hs : Settled s pid) : Settled s' pid := by
  have hsame (hoffered : (s'.ports pid).offered = (s.ports pid).offered)
      (hsettled : (s'.ports pid).settled = (s.ports pid).settled)
      (hrefused : s'.fwd.refused pid = s.fwd.refused pid)
      (hmbufs : ∀ m, OnWay s pid m → s'.mbufs m = s.mbufs m) : Settled s' pid := by
    unfold Settled at hs ⊢
    rw [hrefused, hoffered, hsettled]
    cases hm : s.fwd.refused pid with
    | none => simpa only [hm] using hs
    | some m => simpa only [hm, hmbufs m (.inr hm)] using hs
  cases h with
  | stay _ hoffered hsettled _ hrefused hmbufs => exact hsame hoffered hsettled hrefused hmbufs
  | read _ _ _ hoffered hsettled _ hrefused _ hmbufs =>
      exact hsame hoffered hsettled hrefused hmbufs
  | offer _ hoffered _ hrefused hmbufs hsettled =>
      unfold Settled at hs ⊢
      rw [hrefused] at hs
      rcases hsettled with ⟨hsettled, hrefused'⟩ | ⟨hsettled, hrefused'⟩
      · simp [hrefused', hsettled, hoffered, hs]
      · simp [hrefused', hsettled, hoffered, hs, hmbufs]
  | free _ hoffered hsettled _ hrefused hrefused' _ =>
      unfold Settled at hs ⊢
      rw [hrefused] at hs
      simp [hrefused', hsettled, hoffered, hs.1]

/-! ### Runs -/

theorem line_inOrder {mbufs : Mbuf → MbufData}
    (h : Reachable (step n) Always (initState mbufs) s) (pid : ℕ) : (line s pid).InOrder := by
  refine h.induct (I := fun t => (line t pid).InOrder) rfl fun t a t' hr hinv _ hs => ?_
  exact (line_step (sends_of_steps (accounted hr) (steps_of_step hs).2 pid)).inOrder hinv

theorem settled {mbufs : Mbuf → MbufData} (h : Reachable (step n) Always (initState mbufs) s)
    (pid : ℕ) : Settled s pid := by
  refine h.induct (I := fun t => Settled t pid) rfl fun t a t' hr hinv _ hs => ?_
  exact settled_step (sends_of_steps (accounted hr) (steps_of_step hs).2 pid) hinv

/-- **Order**: in every reachable state what was offered to the NIC of a port is a prefix of
what was read at its host interface, with all bytes and the length; and every packet offered
was taken by the driver or freed, but the last one while `fwd_main` is about to free it. -/
theorem forwarder_order {mbufs : Mbuf → MbufData}
    (h : Reachable (step n) Always (initState mbufs) s) (pid : ℕ) :
    (s.ports pid).offered <+: (s.ports pid).read.map asPacket ∧ Settled s pid :=
  ⟨(line_inOrder h pid).left_isPrefix, settled h pid⟩

/-- A run in which a packet was offered. -/
theorem forwarder_order_offered : ∃ s, Reachable (step 1) Always
    (initState fun _ => ⟨fun _ => 0, 0, 0⟩) s ∧ (s.ports 0).offered ≠ [] ∧
      (s.ports 0).offered <+: (s.ports 0).read.map asPacket ∧ Settled s 0 := by
  have hm : (⟨0, 0⟩ : Mbuf) ∈ (initPort 0).mp := mem_initPort.mpr ⟨rfl, by decide⟩
  obtain ⟨s, hs, hrun, -, hfwd, -, hring, -⟩ := reachable_tapRound (n := 1)
    (s := initState fun _ => ⟨fun _ => 0, 0, 0⟩) rfl rfl Nat.one_pos hm rfl (by decide) arpRequest
  obtain ⟨t, ht, hoffered⟩ := reachable_offer (n := 1) hrun hfwd Nat.one_pos hring
  have hreach := hs.trans ht
  exact ⟨t, hreach, by simp [hoffered], forwarder_order hreach 0⟩

end Hspp
