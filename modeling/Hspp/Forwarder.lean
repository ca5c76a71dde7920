import Hspp.Lib.Memory
import Hspp.Lib.Transition
import Mathlib.Data.List.Perm.Subperm

/-! # The forwarder (`yak/main.c`, `yak/tap.c`, `yak/port.c`)

Two threads serve `n` ports.  `tap_main` reads frames from the host interfaces and puts
them, one mbuf each, into the port's ring `from_hostif`; `fwd_main` takes bursts from the
rings to the NIC, and what the NIC received to the host interfaces.  A state holds the ports,
the contents of the mbufs and where each thread is; an action is one call of a thread with
the result it got, or something that the host or a NIC driver does.  `step` is `none` when
an action is not possible in a state.

What is assumed of DPDK is in the steps: `rte_pktmbuf_alloc` gives some free mbuf of the
pool, and `NULL` exactly when there is none; the ring is a FIFO with `ringSize - 1` places,
and its operations are atomic; `rte_eth_tx_burst` takes the packets it counts, and
`rte_eth_rx_burst` hands over chains of mbufs that the driver had; `rte_pktmbuf_free` puts
the mbufs of a chain into the pools they came from.  A `read` of a host interface blocks
while no frame waits there, and cuts a frame to the room given.

The histories `read`, `offered`, `settled` and `written` record what passed the interfaces.
What is printed, and the set-up by `main`, are left out; all mbufs are free at the start, and
a driver may take free mbufs of its port at any time. -/

namespace Hspp

open Memory Transition

/-- The mbuf number `idx` of the pool of port `pool`. -/
structure Mbuf where
  pool : ℕ
  idx : ℕ
deriving DecidableEq, Repr

/-- The fields of `struct rte_mbuf` that are used: the data from `rte_pktmbuf_mtod` on,
`data_len` and `pkt_len`.  What is read behind the room of the mbuf is `data` too. -/
structure MbufData where
  data : Mem
  dataLen : ℕ
  pktLen : ℕ

abbrev Frame := List UInt8

/-- `struct port`, and the two interfaces it stands for. -/
structure Port where
  /-- The free mbufs of `mp`. -/
  mp : List Mbuf
  fromHostif : List Mbuf
  /-- The mbufs that the driver owns. -/
  driver : List Mbuf
  /-- The frames waiting at the host interface. -/
  hostif : List Frame
  /-- What `read` returned, from the first frame on. -/
  read : List Frame
  /-- What was offered to `rte_eth_tx_burst`: the data and `pkt_len`. -/
  offered : List (Frame × ℕ)
  /-- For each packet offered, whether the driver took it or it was freed. -/
  settled : List Bool
  /-- What was written to the host interface. -/
  written : List Frame

/-- Where `tap_main` is: before `rte_pktmbuf_alloc`, before `read`, before
`rte_ring_enqueue`. -/
inductive TapPc where
  | alloc (pid : ℕ)
  | read (pid : ℕ) (m : Option Mbuf)
  | enqueue (pid : ℕ) (m : Mbuf)
deriving DecidableEq, Repr

/-- Where `fwd_main` is.  In the two loops over a burst the array and the index are kept. -/
inductive FwdPc where
  | ringEmpty (pid : ℕ)
  | dequeueBurst (pid : ℕ)
  | txBurst (pid : ℕ) (mbufs : List Mbuf) (i : ℕ)
  | txFree (pid : ℕ) (mbufs : List Mbuf) (i : ℕ)
  | rxBurst (pid : ℕ)
  | input (pid : ℕ) (bufs : List (List Mbuf)) (i : ℕ)
  | write (pid : ℕ) (bufs : List (List Mbuf)) (i : ℕ)
  | free (pid : ℕ) (bufs : List (List Mbuf)) (i : ℕ)
deriving DecidableEq, Repr

/-- Running, after a use of a null pointer, or after `rte_exit`. -/
inductive Status where
  | running
  | crashed
  | exited
deriving DecidableEq, Repr

structure State where
  ports : ℕ → Port
  mbufs : Mbuf → MbufData
  tap : TapPc
  fwd : FwdPc
  status : Status

/-- One call of a thread with its result, or a step of the surroundings. -/
inductive Act where
  | tapAlloc (m : Option Mbuf)
  | tapRead (ok : Bool)
  | tapEnqueue
  | fwdRingEmpty
  | fwdDequeueBurst
  | fwdTxBurst (ok : Bool)
  | fwdTxFree
  | fwdRxBurst (bufs : List (List Mbuf))
  | fwdInput
  | fwdWrite (ok : Bool)
  | fwdFree
  | hostSend (pid : ℕ) (frame : Frame)
  | driverTake (pid : ℕ) (m : Mbuf)
  | driverFree (pid : ℕ) (m : Mbuf)
  | driverWrite (pid : ℕ) (m : Mbuf) (d : MbufData)

/-! ### Sizes and pieces -/

/-- `num_mbufs`. -/
def numMbufs : ℕ := 8191

/-- `ringsize`. -/
def ringSize : ℕ := 8192

/-- `BURST_SIZE`. -/
def burstSize : ℕ := 32

/-- `m->buf_len - rte_pktmbuf_headroom(m)`, `RTE_MBUF_DEFAULT_BUF_SIZE` less the headroom. -/
def dataRoom : ℕ := 2048

/-- The packet in an mbuf: its data and `pkt_len`. -/
def MbufData.packet (d : MbufData) : Frame × ℕ := (bytesAt d.data 0 d.dataLen, d.pktLen)

/-- `htons(eh->ether_type)`. -/
def MbufData.etherType (d : MbufData) : ℕ := (d.data 12).toNat * 256 + (d.data 13).toNat

/-- The types with a `case` in `port_input`. -/
def Forwarded (etherType : ℕ) : Prop :=
  etherType = 0x86dd ∨ etherType = 0x0800 ∨ etherType = 0x0806 ∨ etherType = 0x8100

instance (etherType : ℕ) : Decidable (Forwarded etherType) :=
  inferInstanceAs (Decidable (_ ∨ _))

namespace State

/-- Change port `pid`. -/
def modifyPort (s : State) (pid : ℕ) (f : Port → Port) : State :=
  { s with ports := Function.update s.ports pid (f (s.ports pid)) }

def setTap (s : State) (tap : TapPc) : State := { s with tap }

def setFwd (s : State) (fwd : FwdPc) : State := { s with fwd }

def setStatus (s : State) (status : Status) : State := { s with status }

/-- Change the contents of an mbuf. -/
def setMbuf (s : State) (m : Mbuf) (d : MbufData) : State :=
  { s with mbufs := Function.update s.mbufs m d }

/-- `rte_pktmbuf_free` of one segment. -/
def freeSeg (s : State) (m : Mbuf) : State :=
  s.modifyPort m.pool fun p => { p with mp := m :: p.mp }

/-- `rte_pktmbuf_free` of a chain. -/
def free (s : State) (chain : List Mbuf) : State := chain.foldl freeSeg s

end State

/-! ### Updates of a state -/

@[simp] theorem modifyPort_self (s : State) (pid : ℕ) (f : Port → Port) :
    (s.modifyPort pid f).ports pid = f (s.ports pid) := Function.update_self ..

theorem modifyPort_of_ne (s : State) {pid j : ℕ} (h : j ≠ pid) (f : Port → Port) :
    (s.modifyPort pid f).ports j = s.ports j := Function.update_of_ne h ..

/-- What a change of port `j` leaves alone there, it leaves alone everywhere. -/
theorem update_congr {β : Type*} (field : Port → β) {ports : ℕ → Port} {j : ℕ} {p : Port}
    (h : field p = field (ports j)) (pid : ℕ) :
    field (Function.update ports j p pid) = field (ports pid) := by
  obtain rfl | hne := eq_or_ne pid j
  · rw [Function.update_self, h]
  · rw [Function.update_of_ne hne]

@[simp] theorem modifyPort_mbufs (s : State) (pid : ℕ) (f : Port → Port) :
    (s.modifyPort pid f).mbufs = s.mbufs := rfl

@[simp] theorem modifyPort_tap (s : State) (pid : ℕ) (f : Port → Port) :
    (s.modifyPort pid f).tap = s.tap := rfl

@[simp] theorem modifyPort_fwd (s : State) (pid : ℕ) (f : Port → Port) :
    (s.modifyPort pid f).fwd = s.fwd := rfl

@[simp] theorem modifyPort_status (s : State) (pid : ℕ) (f : Port → Port) :
    (s.modifyPort pid f).status = s.status := rfl

@[simp] theorem setTap_ports (s : State) (tap : TapPc) : (s.setTap tap).ports = s.ports := rfl

@[simp] theorem setTap_mbufs (s : State) (tap : TapPc) : (s.setTap tap).mbufs = s.mbufs := rfl

@[simp] theorem setTap_tap (s : State) (tap : TapPc) : (s.setTap tap).tap = tap := rfl

@[simp] theorem setTap_fwd (s : State) (tap : TapPc) : (s.setTap tap).fwd = s.fwd := rfl

@[simp] theorem setTap_status (s : State) (tap : TapPc) : (s.setTap tap).status = s.status := rfl

@[simp] theorem setFwd_ports (s : State) (fwd : FwdPc) : (s.setFwd fwd).ports = s.ports := rfl

@[simp] theorem setFwd_mbufs (s : State) (fwd : FwdPc) : (s.setFwd fwd).mbufs = s.mbufs := rfl

@[simp] theorem setFwd_tap (s : State) (fwd : FwdPc) : (s.setFwd fwd).tap = s.tap := rfl

@[simp] theorem setFwd_fwd (s : State) (fwd : FwdPc) : (s.setFwd fwd).fwd = fwd := rfl

@[simp] theorem setMbuf_ports (s : State) (m : Mbuf) (d : MbufData) :
    (s.setMbuf m d).ports = s.ports := rfl

@[simp] theorem setMbuf_tap (s : State) (m : Mbuf) (d : MbufData) :
    (s.setMbuf m d).tap = s.tap := rfl

@[simp] theorem setMbuf_fwd (s : State) (m : Mbuf) (d : MbufData) :
    (s.setMbuf m d).fwd = s.fwd := rfl

@[simp] theorem setMbuf_status (s : State) (m : Mbuf) (d : MbufData) :
    (s.setMbuf m d).status = s.status := rfl

/-! ### Steps -/

/-- The next port of `for (pid = 0; pid < n_ports; pid++)` inside `while (true)`. -/
def nextPid (n pid : ℕ) : ℕ := if pid + 1 < n then pid + 1 else 0

/-- The head of the loop over the packets to be sent. -/
def txLoop (pid : ℕ) (mbufs : List Mbuf) (i : ℕ) : FwdPc :=
  if i < mbufs.length then .txBurst pid mbufs i else .rxBurst pid

/-- The head of the loop over the packets received. -/
def inputLoop (n pid : ℕ) (bufs : List (List Mbuf)) (i : ℕ) : FwdPc :=
  if i < bufs.length then .input pid bufs i else .ringEmpty (nextPid n pid)

/-- A step of `tap_main`. -/
def tapStep (n : ℕ) (s : State) : Act → Option State
  | .tapAlloc m =>
      match s.tap with
      | .alloc pid =>
          if pid < n then
            match m with
            | none =>
                if (s.ports pid).mp = [] then some (s.setTap (.read pid none)) else none
            | some m =>
                if m ∈ (s.ports pid).mp then
                  some ((s.modifyPort pid fun p => { p with mp := p.mp.erase m }).setTap
                    (.read pid (some m)))
                else none
          else none
      | _ => none
  | .tapRead ok =>
      match s.tap with
      -- `rte_pktmbuf_mtod(m, ..)` and `m->buf_len` are evaluated before the call
      | .read _ none => some (s.setStatus .crashed)
      | .read pid (some m) =>
          match (s.ports pid).hostif with
          | [] => none
          | frame :: frames =>
              if ok then
                let got := frame.take dataRoom
                let d : MbufData :=
                  { data := Memory.write (s.mbufs m).data 0 got
                    dataLen := got.length
                    pktLen := got.length }
                some (((s.modifyPort pid fun p =>
                  { p with hostif := frames, read := p.read ++ [got] }).setMbuf m d).setTap
                    (.enqueue pid m))
              else some (s.setStatus .exited)
      | _ => none
  | .tapEnqueue =>
      match s.tap with
      | .enqueue pid m =>
          -- the result of `rte_ring_enqueue` is not looked at
          if (s.ports pid).fromHostif.length < ringSize - 1 then
            some ((s.modifyPort pid fun p =>
              { p with fromHostif := p.fromHostif ++ [m] }).setTap (.alloc (nextPid n pid)))
          else some (s.setTap (.alloc (nextPid n pid)))
      | _ => none
  | _ => none

/-- A step of `fwd_main`. -/
def fwdStep (n : ℕ) (s : State) : Act → Option State
  | .fwdRingEmpty =>
      match s.fwd with
      | .ringEmpty pid =>
          if pid < n then
            if (s.ports pid).fromHostif = [] then some (s.setFwd (.rxBurst pid))
            else some (s.setFwd (.dequeueBurst pid))
          else none
      | _ => none
  | .fwdDequeueBurst =>
      match s.fwd with
      | .dequeueBurst pid =>
          some ((s.modifyPort pid fun p =>
            { p with fromHostif := p.fromHostif.drop burstSize }).setFwd
              (txLoop pid ((s.ports pid).fromHostif.take burstSize) 0))
      | _ => none
  | .fwdTxBurst ok =>
      match s.fwd with
      | .txBurst pid mbufs i =>
          match mbufs[i]? with
          | none => none
          | some m =>
              let packet := (s.mbufs m).packet
              if ok then
                some ((s.modifyPort pid fun p =>
                  { p with
                    driver := m :: p.driver
                    offered := p.offered ++ [packet]
                    settled := p.settled ++ [true] }).setFwd (txLoop pid mbufs (i + 1)))
              else
                some ((s.modifyPort pid fun p =>
                  { p with offered := p.offered ++ [packet] }).setFwd (.txFree pid mbufs i))
      | _ => none
  | .fwdTxFree =>
      match s.fwd with
      | .txFree pid mbufs i =>
          match mbufs[i]? with
          | none => none
          | some m =>
              some (((s.free [m]).modifyPort pid fun p =>
                { p with settled := p.settled ++ [false] }).setFwd (txLoop pid mbufs (i + 1)))
      | _ => none
  | .fwdRxBurst bufs =>
      match s.fwd with
      | .rxBurst pid =>
          if bufs.length ≤ burstSize ∧ (∀ chain ∈ bufs, chain ≠ []) ∧
              bufs.flatten.Subperm (s.ports pid).driver then
            some ((s.modifyPort pid fun p =>
              { p with driver := p.driver.diff bufs.flatten }).setFwd (inputLoop n pid bufs 0))
          else none
      | _ => none
  | .fwdInput =>
      match s.fwd with
      | .input pid bufs i =>
          match bufs[i]? with
          | some (m :: _) =>
              if Forwarded (s.mbufs m).etherType then some (s.setFwd (.write pid bufs i))
              else some (s.setFwd (.free pid bufs i))
          | _ => none
      | _ => none
  | .fwdWrite ok =>
      match s.fwd with
      | .write pid bufs i =>
          match bufs[i]? with
          | some (m :: _) =>
              if ok then
                some ((s.modifyPort pid fun p =>
                  { p with written := p.written ++
                      [bytesAt (s.mbufs m).data 0 (s.mbufs m).pktLen] }).setFwd (.free pid bufs i))
              else some (s.setStatus .exited)
          | _ => none
      | _ => none
  | .fwdFree =>
      match s.fwd with
      | .free pid bufs i =>
          match bufs[i]? with
          | none => none
          | some chain => some ((s.free chain).setFwd (inputLoop n pid bufs (i + 1)))
      | _ => none
  | _ => none

/-- A step of the host or of the driver of a port. -/
def envStep (n : ℕ) (s : State) : Act → Option State
  | .hostSend pid frame =>
      if pid < n then some (s.modifyPort pid fun p => { p with hostif := p.hostif ++ [frame] })
      else none
  | .driverTake pid m =>
      if pid < n ∧ m ∈ (s.ports pid).mp then
        some (s.modifyPort pid fun p => { p with mp := p.mp.erase m, driver := m :: p.driver })
      else none
  | .driverFree pid m =>
      if pid < n ∧ m ∈ (s.ports pid).driver then
        some ((s.modifyPort pid fun p => { p with driver := p.driver.erase m }).free [m])
      else none
  | .driverWrite pid m d =>
      if pid < n ∧ m ∈ (s.ports pid).driver then
        some (s.setMbuf m d)
      else none
  | _ => none

/-- A step of the whole system: of one thread, of the host or of a driver. -/
def step (n : ℕ) (s : State) (a : Act) : Option State :=
  if s.status = .running then
    (tapStep n s a).orElse fun _ => (fwdStep n s a).orElse fun _ => envStep n s a
  else none

/-- A port after `port_alloc`. -/
def initPort (pid : ℕ) : Port where
  mp := (List.range numMbufs).map fun idx => ⟨pid, idx⟩
  fromHostif := []
  driver := []
  hostif := []
  read := []
  offered := []
  settled := []
  written := []

/-- The state in which the two threads start, with anything in the mbufs. -/
def initState (mbufs : Mbuf → MbufData) : State where
  ports := initPort
  mbufs := mbufs
  tap := .alloc 0
  fwd := .ringEmpty 0
  status := .running

/-! ### What a step can do -/

/-- The outcomes of the steps, one constructor for each, with what they need. -/
inductive Steps (n : ℕ) (s : State) : Act → State → Prop
  | tapAllocNone {pid : ℕ} (hpc : s.tap = .alloc pid) (hempty : (s.ports pid).mp = []) :
      Steps n s (.tapAlloc none) (s.setTap (.read pid none))
  | tapAlloc {pid : ℕ} {m : Mbuf} (hpc : s.tap = .alloc pid) (hm : m ∈ (s.ports pid).mp) :
      Steps n s (.tapAlloc (some m))
        ((s.modifyPort pid fun p => { p with mp := p.mp.erase m }).setTap (.read pid (some m)))
  | tapReadNull {pid : ℕ} {ok : Bool} (hpc : s.tap = .read pid none) :
      Steps n s (.tapRead ok) (s.setStatus .crashed)
  | tapRead {pid : ℕ} {m : Mbuf} {frame : Frame} {frames : List Frame}
      (hpc : s.tap = .read pid (some m)) (hwait : (s.ports pid).hostif = frame :: frames) :
      Steps n s (.tapRead true)
        (((s.modifyPort pid fun p =>
          { p with hostif := frames, read := p.read ++ [frame.take dataRoom] }).setMbuf m
            { data := Memory.write (s.mbufs m).data 0 (frame.take dataRoom)
              dataLen := (frame.take dataRoom).length
              pktLen := (frame.take dataRoom).length }).setTap (.enqueue pid m))
  | tapReadFail {pid : ℕ} {m : Mbuf} (hpc : s.tap = .read pid (some m)) :
      Steps n s (.tapRead false) (s.setStatus .exited)
  | tapEnqueue {pid : ℕ} {m : Mbuf} (hpc : s.tap = .enqueue pid m)
      (hroom : (s.ports pid).fromHostif.length < ringSize - 1) :
      Steps n s .tapEnqueue ((s.modifyPort pid fun p =>
        { p with fromHostif := p.fromHostif ++ [m] }).setTap (.alloc (nextPid n pid)))
  | tapEnqueueFull {pid : ℕ} {m : Mbuf} (hpc : s.tap = .enqueue pid m)
      (hfull : ¬ (s.ports pid).fromHostif.length < ringSize - 1) :
      Steps n s .tapEnqueue (s.setTap (.alloc (nextPid n pid)))
  | fwdRingEmpty {pid : ℕ} {pc : FwdPc} (hpc : s.fwd = .ringEmpty pid)
      (hnext : pc = .rxBurst pid ∨ pc = .dequeueBurst pid) :
      Steps n s .fwdRingEmpty (s.setFwd pc)
  | fwdDequeueBurst {pid : ℕ} (hpc : s.fwd = .dequeueBurst pid) :
      Steps n s .fwdDequeueBurst ((s.modifyPort pid fun p =>
        { p with fromHostif := p.fromHostif.drop burstSize }).setFwd
          (txLoop pid ((s.ports pid).fromHostif.take burstSize) 0))
  | fwdTxBurst {pid : ℕ} {mbufs : List Mbuf} {i : ℕ} {m : Mbuf}
      (hpc : s.fwd = .txBurst pid mbufs i) (hm : mbufs[i]? = some m) :
      Steps n s (.fwdTxBurst true) ((s.modifyPort pid fun p =>
        { p with
          driver := m :: p.driver
          offered := p.offered ++ [(s.mbufs m).packet]
          settled := p.settled ++ [true] }).setFwd (txLoop pid mbufs (i + 1)))
  | fwdTxBurstFail {pid : ℕ} {mbufs : List Mbuf} {i : ℕ} {m : Mbuf}
      (hpc : s.fwd = .txBurst pid mbufs i) (hm : mbufs[i]? = some m) :
      Steps n s (.fwdTxBurst false) ((s.modifyPort pid fun p =>
        { p with offered := p.offered ++ [(s.mbufs m).packet] }).setFwd (.txFree pid mbufs i))
  | fwdTxFree {pid : ℕ} {mbufs : List Mbuf} {i : ℕ} {m : Mbuf}
      (hpc : s.fwd = .txFree pid mbufs i) (hm : mbufs[i]? = some m) :
      Steps n s .fwdTxFree (((s.free [m]).modifyPort pid fun p =>
        { p with settled := p.settled ++ [false] }).setFwd (txLoop pid mbufs (i + 1)))
  | fwdRxBurst {pid : ℕ} {bufs : List (List Mbuf)} (hpc : s.fwd = .rxBurst pid)
      (hbufs : bufs.length ≤ burstSize ∧ (∀ chain ∈ bufs, chain ≠ []) ∧
        bufs.flatten.Subperm (s.ports pid).driver) :
      Steps n s (.fwdRxBurst bufs) ((s.modifyPort pid fun p =>
        { p with driver := p.driver.diff bufs.flatten }).setFwd (inputLoop n pid bufs 0))
  | fwdInput {pid : ℕ} {bufs : List (List Mbuf)} {i : ℕ} {m : Mbuf} {segs : List Mbuf} {pc : FwdPc}
      (hpc : s.fwd = .input pid bufs i) (hm : bufs[i]? = some (m :: segs))
      (hnext : pc = if Forwarded (s.mbufs m).etherType then .write pid bufs i
        else .free pid bufs i) :
      Steps n s .fwdInput (s.setFwd pc)
  | fwdWrite {pid : ℕ} {bufs : List (List Mbuf)} {i : ℕ} {m : Mbuf} {segs : List Mbuf}
      (hpc : s.fwd = .write pid bufs i) (hm : bufs[i]? = some (m :: segs)) :
      Steps n s (.fwdWrite true) ((s.modifyPort pid fun p =>
        { p with written := p.written ++
            [bytesAt (s.mbufs m).data 0 (s.mbufs m).pktLen] }).setFwd (.free pid bufs i))
  | fwdWriteFail {pid : ℕ} {bufs : List (List Mbuf)} {i : ℕ} (hpc : s.fwd = .write pid bufs i) :
      Steps n s (.fwdWrite false) (s.setStatus .exited)
  | fwdFree {pid : ℕ} {bufs : List (List Mbuf)} {i : ℕ} {chain : List Mbuf}
      (hpc : s.fwd = .free pid bufs i) (hm : bufs[i]? = some chain) :
      Steps n s .fwdFree ((s.free chain).setFwd (inputLoop n pid bufs (i + 1)))
  | hostSend {pid : ℕ} {frame : Frame} :
      Steps n s (.hostSend pid frame)
        (s.modifyPort pid fun p => { p with hostif := p.hostif ++ [frame] })
  | driverTake {pid : ℕ} {m : Mbuf} (hm : m ∈ (s.ports pid).mp) :
      Steps n s (.driverTake pid m)
        (s.modifyPort pid fun p => { p with mp := p.mp.erase m, driver := m :: p.driver })
  | driverFree {pid : ℕ} {m : Mbuf} (hm : m ∈ (s.ports pid).driver) :
      Steps n s (.driverFree pid m)
        ((s.modifyPort pid fun p => { p with driver := p.driver.erase m }).free [m])
  | driverWrite {pid : ℕ} {m : Mbuf} {d : MbufData} (hm : m ∈ (s.ports pid).driver) :
      Steps n s (.driverWrite pid m d) (s.setMbuf m d)

variable {n : ℕ} {s s' : State} {a : Act}

theorem steps_of_tapStep (h : tapStep n s a = some s') : Steps n s a s' := by
  cases a with
  | tapAlloc m =>
      simp only [tapStep] at h
      split at h
      · rename_i pid hpc
        cases m with
        | none =>
            simp only [Option.ite_none_right_eq_some, Option.some.injEq] at h
            obtain ⟨-, hempty, rfl⟩ := h
            exact .tapAllocNone hpc hempty
        | some m =>
            simp only [Option.ite_none_right_eq_some, Option.some.injEq] at h
            obtain ⟨-, hm, rfl⟩ := h
            exact .tapAlloc hpc hm
      · cases h
  | tapRead ok =>
      simp only [tapStep] at h
      split at h
      · cases h
        exact .tapReadNull ‹_›
      · split at h
        · cases h
        · cases ok with
          | true =>
              cases h
              exact .tapRead ‹_› ‹_›
          | false =>
              cases h
              exact .tapReadFail ‹_›
      · cases h
  | tapEnqueue =>
      simp only [tapStep] at h
      split at h
      · split_ifs at h with hroom
        · cases h
          exact .tapEnqueue ‹_› hroom
        · cases h
          exact .tapEnqueueFull ‹_› hroom
      · cases h
  | _ => cases h

theorem steps_of_fwdStep (h : fwdStep n s a = some s') : Steps n s a s' := by
  cases a with
  | fwdRingEmpty =>
      simp only [fwdStep] at h
      split at h
      · split_ifs at h <;> cases h
        · exact .fwdRingEmpty ‹_› (.inl rfl)
        · exact .fwdRingEmpty ‹_› (.inr rfl)
      · cases h
  | fwdDequeueBurst =>
      simp only [fwdStep] at h
      split at h <;> cases h
      exact .fwdDequeueBurst ‹_›
  | fwdTxBurst ok =>
      simp only [fwdStep] at h
      split at h
      · split at h
        · cases h
        · cases ok with
          | true =>
              cases h
              exact .fwdTxBurst ‹_› ‹_›
          | false =>
              cases h
              exact .fwdTxBurstFail ‹_› ‹_›
      · cases h
  | fwdTxFree =>
      simp only [fwdStep] at h
      split at h
      · split at h <;> cases h
        exact .fwdTxFree ‹_› ‹_›
      · cases h
  | fwdRxBurst bufs =>
      simp only [fwdStep] at h
      split at h
      · split_ifs at h with hbufs
        cases h
        exact .fwdRxBurst ‹_› hbufs
      · cases h
  | fwdInput =>
      simp only [fwdStep] at h
      split at h
      · split at h
        · split_ifs at h with hf <;> cases h
          · exact .fwdInput ‹_› ‹_› (by rw [if_pos hf])
          · exact .fwdInput ‹_› ‹_› (by rw [if_neg hf])
        · cases h
      · cases h
  | fwdWrite ok =>
      simp only [fwdStep] at h
      split at h
      · split at h
        · cases ok with
          | true =>
              cases h
              exact .fwdWrite ‹_› ‹_›
          | false =>
              cases h
              exact .fwdWriteFail ‹_›
        · cases h
      · cases h
  | fwdFree =>
      simp only [fwdStep] at h
      split at h
      · split at h <;> cases h
        exact .fwdFree ‹_› ‹_›
      · cases h
  | _ => cases h

theorem steps_of_envStep (h : envStep n s a = some s') : Steps n s a s' := by
  cases a with
  | hostSend pid frame =>
      simp only [envStep, Option.ite_none_right_eq_some, Option.some.injEq] at h
      obtain ⟨-, rfl⟩ := h
      exact .hostSend
  | driverTake pid m =>
      simp only [envStep, Option.ite_none_right_eq_some, Option.some.injEq] at h
      obtain ⟨⟨-, hm⟩, rfl⟩ := h
      exact .driverTake hm
  | driverFree pid m =>
      simp only [envStep, Option.ite_none_right_eq_some, Option.some.injEq] at h
      obtain ⟨⟨-, hm⟩, rfl⟩ := h
      exact .driverFree hm
  | driverWrite pid m d =>
      simp only [envStep, Option.ite_none_right_eq_some, Option.some.injEq] at h
      obtain ⟨⟨-, hm⟩, rfl⟩ := h
      exact .driverWrite hm
  | _ => cases h

/-- Every step has one of the outcomes. -/
theorem steps_of_step (h : step n s a = some s') : s.status = .running ∧ Steps n s a s' := by
  unfold step at h
  split_ifs at h with hrun
  refine ⟨hrun, ?_⟩
  cases htap : tapStep n s a with
  | some t =>
      rw [htap, Option.orElse_some] at h
      cases h
      exact steps_of_tapStep htap
  | none =>
      rw [htap, Option.orElse_none] at h
      cases hfwd : fwdStep n s a with
      | some t =>
          rw [hfwd, Option.orElse_some] at h
          cases h
          exact steps_of_fwdStep hfwd
      | none =>
          rw [hfwd, Option.orElse_none] at h
          exact steps_of_envStep h

/-! ### A frame on its way to the ring -/

/-- The 42 bytes of an ARP request from 10.0.0.1 for 10.0.0.2. -/
def arpRequest : Frame :=
  [0xff, 0xff, 0xff, 0xff, 0xff, 0xff, 0x02, 0, 0, 0, 0, 1, 0x08, 0x06] ++
    [0, 1, 0x08, 0, 6, 4, 0, 1, 0x02, 0, 0, 0, 0, 1, 10, 0, 0, 1, 0, 0, 0, 0, 0, 0, 10, 0, 0, 2]

theorem step_hostSend {pid : ℕ} (hrun : s.status = .running) (hpid : pid < n) (frame : Frame) :
    step n s (.hostSend pid frame) =
      some (s.modifyPort pid fun p => { p with hostif := p.hostif ++ [frame] }) := by
  simp [step, tapStep, fwdStep, envStep, hrun, hpid]

theorem step_tapAlloc {pid : ℕ} {m : Mbuf} (hrun : s.status = .running)
    (hpc : s.tap = .alloc pid) (hpid : pid < n) (hm : m ∈ (s.ports pid).mp) :
    step n s (.tapAlloc (some m)) =
      some ((s.modifyPort pid fun p => { p with mp := p.mp.erase m }).setTap
        (.read pid (some m))) := by
  simp [step, tapStep, hrun, hpc, hpid, hm]

theorem step_tapRead {pid : ℕ} {m : Mbuf} (frame : Frame) (frames : List Frame)
    (hrun : s.status = .running) (hpc : s.tap = .read pid (some m))
    (hwait : (s.ports pid).hostif = frame :: frames) :
    step n s (.tapRead true) =
      some (((s.modifyPort pid fun p =>
        { p with hostif := frames, read := p.read ++ [frame.take dataRoom] }).setMbuf m
          { data := Memory.write (s.mbufs m).data 0 (frame.take dataRoom)
            dataLen := (frame.take dataRoom).length
            pktLen := (frame.take dataRoom).length }).setTap (.enqueue pid m)) := by
  simp [step, tapStep, hrun, hpc, hwait]

theorem step_tapEnqueue {pid : ℕ} {m : Mbuf} (hrun : s.status = .running)
    (hpc : s.tap = .enqueue pid m) (hroom : (s.ports pid).fromHostif.length < ringSize - 1) :
    step n s .tapEnqueue = some ((s.modifyPort pid fun p =>
      { p with fromHostif := p.fromHostif ++ [m] }).setTap (.alloc (nextPid n pid))) := by
  simp [step, tapStep, hrun, hpc, hroom]

theorem step_fwdRingEmpty {pid : ℕ} (hrun : s.status = .running) (hpc : s.fwd = .ringEmpty pid)
    (hpid : pid < n) (hring : (s.ports pid).fromHostif ≠ []) :
    step n s .fwdRingEmpty = some (s.setFwd (.dequeueBurst pid)) := by
  simp [step, tapStep, fwdStep, hrun, hpc, hpid, hring]

theorem step_fwdDequeueBurst {pid : ℕ} (hrun : s.status = .running)
    (hpc : s.fwd = .dequeueBurst pid) :
    step n s .fwdDequeueBurst = some ((s.modifyPort pid fun p =>
      { p with fromHostif := p.fromHostif.drop burstSize }).setFwd
        (txLoop pid ((s.ports pid).fromHostif.take burstSize) 0)) := by
  simp [step, tapStep, fwdStep, hrun, hpc]

theorem step_fwdTxBurst {pid : ℕ} {mbufs : List Mbuf} {i : ℕ} {m : Mbuf}
    (hrun : s.status = .running) (hpc : s.fwd = .txBurst pid mbufs i) (hm : mbufs[i]? = some m) :
    step n s (.fwdTxBurst true) = some ((s.modifyPort pid fun p =>
      { p with
        driver := m :: p.driver
        offered := p.offered ++ [(s.mbufs m).packet]
        settled := p.settled ++ [true] }).setFwd (txLoop pid mbufs (i + 1))) := by
  simp [step, tapStep, fwdStep, hrun, hpc, hm]

/-- `tap_main` can fetch a frame that the host sends into a free mbuf. -/
theorem reachable_enqueue {pid : ℕ} {m : Mbuf} (hrun : s.status = .running)
    (hpc : s.tap = .alloc pid) (hpid : pid < n) (hm : m ∈ (s.ports pid).mp)
    (hwait : (s.ports pid).hostif = []) (frame : Frame) :
    ∃ s', Reachable (step n) Always s s' ∧ s'.status = .running ∧ s'.tap = .enqueue pid m ∧
      s'.fwd = s.fwd ∧ (s'.ports pid).mp = (s.ports pid).mp.erase m ∧
      (s'.ports pid).fromHostif = (s.ports pid).fromHostif ∧ (s'.ports pid).hostif = [] := by
  have hsend : Reachable (step n) Always s _ :=
    (Reachable.refl s).tail trivial (step_hostSend hrun hpid frame)
  have halloc := hsend.tail trivial (step_tapAlloc (m := m) hrun hpc hpid (by simpa using hm))
  have hread := halloc.tail trivial (step_tapRead frame [] hrun rfl (by simp [hwait]))
  exact ⟨_, hread, hrun, rfl, rfl, by simp, by simp, by simp⟩

/-- And put it into the ring, when there is room. -/
theorem reachable_tapRound {pid : ℕ} {m : Mbuf} (hrun : s.status = .running)
    (hpc : s.tap = .alloc pid) (hpid : pid < n) (hm : m ∈ (s.ports pid).mp)
    (hwait : (s.ports pid).hostif = [])
    (hroom : (s.ports pid).fromHostif.length < ringSize - 1) (frame : Frame) :
    ∃ s', Reachable (step n) Always s s' ∧ s'.status = .running ∧
      s'.tap = .alloc (nextPid n pid) ∧ s'.fwd = s.fwd ∧
      (s'.ports pid).mp = (s.ports pid).mp.erase m ∧
      (s'.ports pid).fromHostif = (s.ports pid).fromHostif ++ [m] ∧
      (s'.ports pid).hostif = [] := by
  obtain ⟨t, ht, hrun', hpc', hfwd, hmp, hring, hwait'⟩ :=
    reachable_enqueue hrun hpc hpid hm hwait frame
  have henq := ht.tail trivial (step_tapEnqueue hrun' hpc' (by rw [hring]; exact hroom))
  exact ⟨_, henq, hrun', rfl, hfwd, by simp [hmp], by simp [hring], by simp [hwait']⟩

/-- `fwd_main` can send what is in the ring. -/
theorem reachable_offer {pid : ℕ} {m : Mbuf} {ms : List Mbuf} (hrun : s.status = .running)
    (hpc : s.fwd = .ringEmpty pid) (hpid : pid < n) (hring : (s.ports pid).fromHostif = m :: ms) :
    ∃ s', Reachable (step n) Always s s' ∧
      (s'.ports pid).offered = (s.ports pid).offered ++ [(s.mbufs m).packet] := by
  have hempty : Reachable (step n) Always s _ :=
    (Reachable.refl s).tail trivial (step_fwdRingEmpty hrun hpc hpid (by simp [hring]))
  have hdeq := hempty.tail trivial (step_fwdDequeueBurst hrun rfl)
  have hloop : txLoop pid ((s.ports pid).fromHostif.take burstSize) 0 =
      .txBurst pid ((s.ports pid).fromHostif.take burstSize) 0 :=
    if_pos (by simp [hring, burstSize])
  have hm : ((s.ports pid).fromHostif.take burstSize)[0]? = some m := by simp [hring, burstSize]
  exact ⟨_, hdeq.tail trivial (step_fwdTxBurst hrun hloop hm), by simp⟩

end Hspp
