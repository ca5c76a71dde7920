import Hspp.Lib.Keyed
import Hspp.Lib.Text
import Hspp.Forwarder

/-! # Setting up ports (`yak/port.c`, `yak/tap.c`)

`port_alloc` takes a block, a pool of mbufs, a ring and a host interface for a NIC, and sets the
NIC up; `port_free` gives back what is in the block.  A `System` is what these functions act on:
the memory that `malloc` gave, the pools, rings and NICs of DPDK, the descriptors of the process
and the interfaces of the host.  What the calls return is in `Calls`, and the calls that are
`Possible` are those that these libraries may answer so: what is returned is not in use, and a
name that is in use is refused.  A checked call that fails ends the process through `rte_exit`
with a message, the `error` here.

The functions are related to the ports that they make by `portAlloc_eq_ok_iff`, and in every run
of the two each port has what is its own (`ports_held`). -/

namespace Hspp.Yak

open Keyed Text Transition

/-- `struct ether_addr`. -/
abbrev EtherAddr := Vector UInt8 6

/-- `struct rte_mempool`, with the arguments that it was created from. -/
structure RteMempool where
  addr : ℕ
  name : List UInt8
  n : ℕ
  cacheSize : ℕ
  privSize : ℕ
  dataRoomSize : ℕ
  socketId : ℤ
deriving DecidableEq, Repr

/-- `struct rte_ring`, with the arguments that it was created from. -/
structure RteRing where
  addr : ℕ
  name : List UInt8
  count : ℕ
  socketId : ℤ
  flags : ℕ
deriving DecidableEq, Repr

/-- The fields of `struct rte_eth_conf` that are not zero or are set to zero by name. -/
structure RteEthConf where
  mqMode : ℕ
  maxRxPktLen : ℕ
  headerSplit : ℕ
  jumboFrame : ℕ
  enableScatter : ℕ
  ignoreOffloadBitfield : ℕ
deriving DecidableEq, Repr

/-- A receive queue: the number of descriptors, the socket and the pool. -/
structure RxQueue where
  nbDesc : ℕ
  socketId : ℤ
  mp : ℕ
deriving DecidableEq, Repr

/-- A transmit queue. -/
structure TxQueue where
  nbDesc : ℕ
  socketId : ℤ
  txqFlags : ℕ
deriving DecidableEq, Repr

/-- A NIC: its address, its socket, and what it was configured with. -/
structure Dev where
  macaddr : EtherAddr
  socketId : ℤ
  nbRxq : ℕ
  nbTxq : ℕ
  conf : Option RteEthConf
  rxq : ℕ → Option RxQueue
  txq : ℕ → Option TxQueue
  started : Bool
  promiscuous : Bool

/-- An interface of the host.  That of a tap is there while the descriptor `fd` is open. -/
structure Iface where
  name : List UInt8
  hwaddr : EtherAddr
  flags : BitVec 16
  fd : Option ℤ
deriving DecidableEq, Repr

/-- `port_t`, less `hostif_addr`, which nothing uses. -/
structure PortT where
  hostifFd : ℤ
  dpdkPid : ℕ
  nrxq : ℕ
  ntxq : ℕ
  hwaddr : EtherAddr
  fromHostif : ℕ
  mp : ℕ
deriving DecidableEq, Repr

structure System where
  blocks : List ℕ
  port : ℕ → PortT
  pools : List RteMempool
  rings : List RteRing
  devs : ℕ → Dev
  fds : List ℤ
  ifaces : List Iface
  stdout : List UInt8

/-- What the calls in `port_alloc` return, and the address and flags of the interface that
`TUNSETIFF` makes. -/
structure Calls where
  malloc : Option ℕ
  poolCreate : Option ℕ
  devConfigure : ℤ
  rxQueueSetup : ℕ → ℤ
  txQueueSetup : ℕ → ℤ
  devStart : ℤ
  openTun : ℤ
  tunsetiff : ℤ
  ifHwaddr : EtherAddr
  ifFlags : BitVec 16
  siocsifhwaddr : ℤ
  socket : ℤ
  siocgifflags : ℤ
  siocsifflags : ℤ
  ringCreate : Option ℕ

/-! ### Checked calls -/

/-- `rte_exit` with the message when the call returned a negative value. -/
def check (ret : ℤ) (msg : String) : Except (List UInt8) Unit :=
  if ret < 0 then .error (ascii msg) else .ok ()

/-- `rte_exit` with the message when the call returned `NULL`. -/
def notNull (p : Option ℕ) (msg : List UInt8) : Except (List UInt8) ℕ :=
  match p with
  | some p => .ok p
  | none => .error msg

/-! ### `tap_alloc` -/

def IFF_UP : BitVec 16 := 1

/-- `ifr_name` after `memset` and `strncpy(ifr.ifr_name, ifname, n)`. -/
def ifrName (ifname : List UInt8) (n : ℕ) : List UInt8 :=
  (cstr ifname).take n ++ List.replicate (16 - ((cstr ifname).take n).length) 0

/-- The interface that the kernel takes `ifr_name` for: it puts a NUL into the last byte. -/
def devName (name : List UInt8) : List UInt8 := cstr (name.take 15)

namespace System

/-- A descriptor is returned. -/
def openFd (s : System) (fd : ℤ) : System := { s with fds := fd :: s.fds }

/-- An interface is made. -/
def addIface (s : System) (i : Iface) : System := { s with ifaces := i :: s.ifaces }

/-- `close`.  The interface of a tap goes with its descriptor. -/
def close (s : System) (fd : ℤ) : System :=
  { s with
    fds := s.fds.filter fun fd' => fd' ≠ fd
    ifaces := s.ifaces.filter fun i => i.fd ≠ some fd }

/-- Change the interfaces that `p` holds of. -/
def setIfaces (s : System) (p : Iface → Bool) (f : Iface → Iface) : System :=
  { s with ifaces := s.ifaces.map fun i => if p i then f i else i }

/-- Change the NIC `port`. -/
def setDev (s : System) (port : ℕ) (f : Dev → Dev) : System :=
  { s with devs := Function.update s.devs port (f (s.devs port)) }

end System

/-- `tap_alloc`. -/
def tapAlloc (ifname : List UInt8) (hwaddr : EtherAddr) (c : Calls) (s : System) :
    Except (List UInt8) (System × ℤ) := do
  check c.openTun "Cannot create tap\n"
  let fd := c.openTun
  let s := s.openFd fd
  check c.tunsetiff "ioctl TUNSETIFF failed\n"
  let s := s.addIface ⟨devName (ifrName ifname 16), c.ifHwaddr, c.ifFlags, some fd⟩
  check c.siocsifhwaddr "ioctl SIOCSIFHWADDR failed\n"
  let s := s.setIfaces (fun i => i.fd = some fd) fun i => { i with hwaddr := hwaddr }
  -- a failed `socket` is found out by the next `ioctl`
  let sock := c.socket
  let s := if sock < 0 then s else s.openFd sock
  let name := devName (ifrName ifname 15)
  check c.siocgifflags "ioctl SIOCGIFFLAGS failed\n"
  let flags := ((s.ifaces.find? fun i => i.name = name).map Iface.flags).getD 0
  check c.siocsifflags "ioctl SIOCSIFFLAGS failed\n"
  let s := s.setIfaces (fun i => i.name = name) fun i => { i with flags := flags ||| IFF_UP }
  return (s.close sock, fd)

/-- `tap_free`. -/
def tapFree (fd : ℤ) (s : System) : System := s.close fd

/-! ### `port_configure` -/

/-- The queues before a number, one after the other: `ret` is what the calls return, and `f` what
they do. -/
def queueSetups (port : ℕ) (ret : ℕ → ℤ) (msg : String) (f : ℕ → Dev → Dev) :
    ℕ → System → Except (List UInt8) System
  | 0, s => .ok s
  | q + 1, s => do
      let s ← queueSetups port ret msg f q s
      check (ret q) msg
      return s.setDev port (f q)

/-- `rte_eth_rx_queue_setup`.  Queues are numbered with 16 bits. -/
def rxQueueSetup (mp q : ℕ) (d : Dev) : Dev :=
  { d with rxq := Function.update d.rxq (q % 2 ^ 16) (some ⟨128, d.socketId, mp⟩) }

/-- `rte_eth_tx_queue_setup`.  No bit of `txq_flags` is set. -/
def txQueueSetup (q : ℕ) (d : Dev) : Dev :=
  { d with txq := Function.update d.txq (q % 2 ^ 16) (some ⟨512, d.socketId, 0⟩) }

/-- `port_configure`.  Numbers of queues are cut to 16 bits by DPDK. -/
def portConfigure (port nbRxq nbTxq : ℕ) (portConf : RteEthConf) (mp : ℕ) (c : Calls)
    (s : System) : Except (List UInt8) System := do
  check c.devConfigure "rte_eth_dev_configure\n"
  let s := s.setDev port fun d =>
    { d with nbRxq := nbRxq % 2 ^ 16, nbTxq := nbTxq % 2 ^ 16, conf := some portConf }
  let s ← queueSetups port c.rxQueueSetup "rte_eth_rx_queue_setup\n" (rxQueueSetup mp) nbRxq s
  let s ← queueSetups port c.txQueueSetup "rte_eth_tx_queue_setup\n" txQueueSetup nbTxq s
  check c.devStart "rte_eth_dev_start\n"
  return s.setDev port fun d => { d with started := true, promiscuous := true }

/-! ### `port_alloc` and `port_free` -/

def poolName (pid : ℕ) : List UInt8 :=
  cstr (snprintf [] 100 (ascii "PORT" ++ printNum 10 1 pid ++ ascii "_MBUFPOOL"))

def ringName (pid : ℕ) : List UInt8 :=
  cstr (snprintf [] 100 (ascii "PORT" ++ printNum 10 1 pid ++ ascii "_HOSTRING"))

/-- `ETH_MQ_RX_NONE` and `ETHER_MAX_LEN` are 0 and 1518. -/
def portConf : RteEthConf where
  mqMode := 0
  maxRxPktLen := 1518
  headerSplit := 0
  jumboFrame := 1
  enableScatter := 1
  ignoreOffloadBitfield := 1

/-- The line that is printed for a port. -/
def addrLine (ifname : List UInt8) (hwaddr : EtherAddr) : List UInt8 :=
  cstr ifname ++ ascii " addr: " ++
    (ascii ":").intercalate (hwaddr.toList.map fun b => printNum 16 2 b.toNat) ++ ascii " \n"

/-- `port_alloc`: the block of the port.  `port_configure` takes the port as a `uint8_t`;
`RTE_MBUF_DEFAULT_BUF_SIZE` is 2176. -/
def portAlloc (dpdkPid nrxq ntxq : ℕ) (ifname : List UInt8) (c : Calls) (s : System) :
    Except (List UInt8) (System × ℕ) := do
  let port ← notNull c.malloc (ascii "port_alloc: malloc miss\n")
  let s := { s with blocks := port :: s.blocks }
  let mpname := poolName dpdkPid
  let mp ← notNull c.poolCreate (ascii "Cannot create mbuf pool " ++ mpname ++ ascii "\n")
  let s := { s with
    pools := ⟨mp, mpname, numMbufs, 250, 0, 2176, (s.devs dpdkPid).socketId⟩ :: s.pools }
  let s ← portConfigure (dpdkPid % 2 ^ 8) nrxq ntxq portConf mp c s
  let hwaddr := (s.devs dpdkPid).macaddr
  let s := { s with stdout := s.stdout ++ addrLine ifname hwaddr }
  let (s, fd) ← tapAlloc ifname hwaddr c s
  let ring ← notNull c.ringCreate (ascii "Cannot create ring\n")
  let s := { s with rings := ⟨ring, ringName dpdkPid, ringSize, 0, 0⟩ :: s.rings }
  let p : PortT := ⟨fd, dpdkPid, nrxq, ntxq, hwaddr, ring, mp⟩
  return ({ s with port := Function.update s.port port p }, port)

/-- `port_free`. -/
def portFree (port : ℕ) (s : System) : System :=
  let p := s.port port
  let s := tapFree p.hostifFd s
  let s := s.setDev p.dpdkPid fun d => { d with started := false }
  { s with
    pools := s.pools.filter fun mp => mp.addr ≠ p.mp
    rings := s.rings.filter fun r => r.addr ≠ p.fromHostif }

/-! ### What the calls may return -/

/-- What is assumed of the calls in `tap_alloc`: what is returned is not in use, and flags are not
read through a socket that was not made.  `TUNSETIFF` makes a new interface: there is no
persistent tap of the name, to which it would attach, and any other name in use is refused.  And
the kernel does not make a name of its own, as it does from `tap%d`: there is no `%` in the
name. -/
structure Calls.TapPossible (c : Calls) (ifname : List UInt8) (fds : List ℤ)
    (ifaces : List Iface) : Prop where
  openTun : 0 ≤ c.openTun → c.openTun ∉ fds ∧ ∀ i ∈ ifaces, i.fd ≠ some c.openTun
  tunsetiff : 0 ≤ c.tunsetiff → ∀ i ∈ ifaces, i.name ≠ devName (ifrName ifname 16)
  template : 0 ≤ c.tunsetiff →
    devName (ifrName ifname 16) ≠ [] ∧ (37 : UInt8) ∉ devName (ifrName ifname 16)
  socket : 0 ≤ c.socket →
    c.socket ≠ c.openTun ∧ c.socket ∉ fds ∧ ∀ i ∈ ifaces, i.fd ≠ some c.socket
  siocgifflags : 0 ≤ c.siocgifflags → 0 ≤ c.socket

/-- The same for all calls in `port_alloc`. -/
structure Calls.Possible (c : Calls) (dpdkPid : ℕ) (ifname : List UInt8) (s : System) : Prop
    extends c.TapPossible ifname s.fds s.ifaces where
  malloc : ∀ p ∈ c.malloc, p ∉ s.blocks
  poolCreate : ∀ mp ∈ c.poolCreate, ∀ pool ∈ s.pools, pool.addr ≠ mp ∧ pool.name ≠ poolName dpdkPid
  ringCreate : ∀ r ∈ c.ringCreate, ∀ ring ∈ s.rings, ring.addr ≠ r ∧ ring.name ≠ ringName dpdkPid

/-- The checked calls succeed. -/
structure Calls.Succeed (c : Calls) (nrxq ntxq : ℕ) : Prop where
  malloc : c.malloc.isSome
  poolCreate : c.poolCreate.isSome
  devConfigure : 0 ≤ c.devConfigure
  rxQueueSetup : ∀ q < nrxq, 0 ≤ c.rxQueueSetup q
  txQueueSetup : ∀ q < ntxq, 0 ≤ c.txQueueSetup q
  devStart : 0 ≤ c.devStart
  openTun : 0 ≤ c.openTun
  tunsetiff : 0 ≤ c.tunsetiff
  siocsifhwaddr : 0 ≤ c.siocsifhwaddr
  siocgifflags : 0 ≤ c.siocgifflags
  siocsifflags : 0 ≤ c.siocsifflags
  ringCreate : c.ringCreate.isSome

theorem bind_eq_ok {α β : Type} {x : Except (List UInt8) β} {f : β → Except (List UInt8) α}
    {r : α} : (x >>= f) = .ok r ↔ ∃ b, x = .ok b ∧ f b = .ok r := by
  cases x with
  | error e => exact ⟨nofun, fun ⟨_, h, _⟩ => nomatch h⟩
  | ok b => exact ⟨fun h => ⟨b, rfl, h⟩, fun ⟨_, hb, h⟩ => Except.ok.inj hb ▸ h⟩

theorem check_eq_ok {ret : ℤ} {msg : String} {u : Unit} : check ret msg = .ok u ↔ 0 ≤ ret := by
  unfold check
  split_ifs with h
  · exact ⟨nofun, fun hr => absurd hr (not_le.mpr h)⟩
  · exact iff_of_true rfl (not_lt.mp h)

theorem notNull_eq_ok {p : Option ℕ} {msg : List UInt8} {a : ℕ} :
    notNull p msg = .ok a ↔ p = some a := by
  cases p with
  | none => exact ⟨nofun, nofun⟩
  | some b => rw [notNull, Except.ok.injEq, Option.some.injEq]

theorem pure_eq_ok {α : Type} {a r : α} : (pure a : Except (List UInt8) α) = .ok r ↔ r = a := by
  rw [eq_comm (a := r)]
  exact Except.ok.injEq a r ▸ Iff.rfl

/-! ### `tap_alloc` -/

/-- Whether 15 or 16 bytes are copied, the kernel takes the name for the same interface. -/
theorem devName_ifrName (ifname : List UInt8) {n : ℕ} (hn : 15 ≤ n) :
    devName (ifrName ifname n) = (cstr ifname).take 15 := by
  have hnul : (0 : UInt8) ∉ (cstr ifname).take 15 :=
    fun h => nul_notMem_cstr ifname (List.mem_of_mem_take h)
  have hzeros : ∀ k, cstr (List.replicate k 0) = [] := by
    intro k
    cases k with
    | zero => rfl
    | succ k => simp [cstr, List.replicate_succ]
  rw [devName, ifrName, List.take_append, List.take_take, min_eq_left hn, List.take_replicate,
    cstr_append_of_not_mem hnul, hzeros, List.append_nil]

/-- A change that is meant for the newest interface only. -/
theorem setIfaces_addIface {s : System} {p : Iface → Bool} {f : Iface → Iface} {i : Iface}
    (hi : p i = true) (hs : ∀ j ∈ s.ifaces, p j = false) :
    (s.addIface i).setIfaces p f = s.addIface (f i) := by
  have hrest : (s.ifaces.map fun j => if p j then f j else j) = s.ifaces :=
    (List.map_congr_left fun j hj => by rw [hs j hj]; rfl).trans (List.map_id _)
  simp only [System.setIfaces, System.addIface, List.map_cons, if_pos hi, hrest]

theorem find?_addIface {s : System} {p : Iface → Bool} {i : Iface} (hi : p i = true) :
    (s.addIface i).ifaces.find? p = some i := List.find?_cons_of_pos hi

theorem openFd_addIface (s : System) (i : Iface) (fd : ℤ) :
    (s.addIface i).openFd fd = (s.openFd fd).addIface i := rfl

theorem close_addIface {s : System} {i : Iface} {fd : ℤ} (hi : i.fd ≠ some fd) :
    (s.addIface i).close fd = (s.close fd).addIface i := by
  simp only [System.close, System.addIface, List.filter_cons, decide_eq_true hi, if_true]

/-- The descriptor opened last, which no interface belongs to, is closed again. -/
theorem close_openFd {s : System} {fd : ℤ} (hfds : fd ∉ s.fds)
    (his : ∀ i ∈ s.ifaces, i.fd ≠ some fd) : (s.openFd fd).close fd = s := by
  have hrest : (s.fds.filter fun fd' => fd' ≠ fd) = s.fds :=
    List.filter_eq_self.mpr fun fd' h => decide_eq_true fun heq => hfds (heq ▸ h)
  have hifaces : (s.ifaces.filter fun i => i.fd ≠ some fd) = s.ifaces :=
    List.filter_eq_self.mpr fun i h => decide_eq_true (his i h)
  simp only [System.close, System.openFd]
  rw [List.filter_cons_of_neg (by simp), hrest, hifaces]

/-- **`tap_alloc`**: the interface is there under the name, with the address and up, and of the
two descriptors one stays open. -/
theorem tapAlloc_eq_ok_iff {ifname : List UInt8} {hwaddr : EtherAddr} {c : Calls}
    {s t : System} {fd : ℤ} (hposs : c.TapPossible ifname s.fds s.ifaces) :
    tapAlloc ifname hwaddr c s = .ok (t, fd) ↔
      (0 ≤ c.openTun ∧ 0 ≤ c.tunsetiff ∧ 0 ≤ c.siocsifhwaddr ∧ 0 ≤ c.siocgifflags ∧
        0 ≤ c.siocsifflags) ∧
      t = (s.openFd c.openTun).addIface
        ⟨devName (ifrName ifname 16), hwaddr, c.ifFlags ||| IFF_UP, some c.openTun⟩ ∧
      fd = c.openTun := by
  have hname : devName (ifrName ifname 15) = devName (ifrName ifname 16) :=
    (devName_ifrName ifname le_rfl).trans (devName_ifrName ifname (by omega)).symm
  simp only [tapAlloc, bind_eq_ok, check_eq_ok, exists_const, pure_eq_ok, hname]
  rw [and_assoc, and_assoc, and_assoc, and_assoc]
  refine and_congr_right fun ho => and_congr_right fun ht => and_congr_right fun _ =>
    and_congr_right fun hg => and_congr_right fun _ => ?_
  obtain ⟨hofds, hoifaces⟩ := hposs.openTun ho
  obtain ⟨hne, hsfds, hsifaces⟩ := hposs.socket (hposs.siocgifflags hg)
  have hfds : ∀ j ∈ (s.openFd c.openTun).ifaces, decide (j.fd = some c.openTun) = false :=
    fun j hj => decide_eq_false (hoifaces j hj)
  have hnames : ∀ j ∈ ((s.openFd c.openTun).openFd c.socket).ifaces,
      decide (j.name = devName (ifrName ifname 16)) = false :=
    fun j hj => decide_eq_false (hposs.tunsetiff ht j hj)
  have hsock : c.socket ∉ (s.openFd c.openTun).fds := by
    rw [System.openFd, List.mem_cons, not_or]
    exact ⟨hne, hsfds⟩
  rw [setIfaces_addIface (by simp) hfds, if_neg (not_lt.mpr (hposs.siocgifflags hg)),
    openFd_addIface, find?_addIface (by simp), setIfaces_addIface (by simp) hnames,
    close_addIface fun h => hne (Option.some.inj h).symm, close_openFd hsock hsifaces]
  simp

/-! ### `port_configure` -/

/-- The table after `n` queues were set up alike. -/
def queues {β : Type} (v : β) : ℕ → (ℕ → Option β) → ℕ → Option β
  | 0, tbl => tbl
  | q + 1, tbl => Function.update (queues v q tbl) (q % 2 ^ 16) (some v)

theorem queues_of_lt {β : Type} (v : β) (tbl : ℕ → Option β) :
    ∀ {n q : ℕ}, q < n → queues v n tbl (q % 2 ^ 16) = some v
  | n + 1, q, h => by
      rw [queues, Function.update_apply]
      split_ifs with heq
      · rfl
      · exact queues_of_lt v tbl (lt_of_le_of_ne (Nat.le_of_lt_succ h) fun h => heq (by rw [h]))

/-- A NIC that `port_configure` is done with. -/
def Dev.configured (d : Dev) (nbRxq nbTxq : ℕ) (portConf : RteEthConf) (mp : ℕ) : Dev :=
  { d with
    nbRxq := nbRxq % 2 ^ 16
    nbTxq := nbTxq % 2 ^ 16
    conf := some portConf
    rxq := queues ⟨128, d.socketId, mp⟩ nbRxq d.rxq
    txq := queues ⟨512, d.socketId, 0⟩ nbTxq d.txq
    started := true
    promiscuous := true }

theorem setDev_setDev (s : System) (port : ℕ) (f g : Dev → Dev) :
    (s.setDev port f).setDev port g = s.setDev port fun d => g (f d) := by
  simp only [System.setDev, Function.update_self, Function.update_idem]

theorem setDev_id (s : System) (port : ℕ) : (s.setDev port fun d => d) = s := by
  simp only [System.setDev, Function.update_eq_self]

/-- What the calls for the queues before `n` do to a NIC. -/
def setups (f : ℕ → Dev → Dev) : ℕ → Dev → Dev
  | 0, d => d
  | q + 1, d => f q (setups f q d)

theorem setups_rxQueueSetup (mp : ℕ) (d : Dev) : ∀ n, setups (rxQueueSetup mp) n d =
    { d with rxq := queues ⟨128, d.socketId, mp⟩ n d.rxq }
  | 0 => rfl
  | n + 1 => by rw [setups, setups_rxQueueSetup mp d n, rxQueueSetup, queues]

theorem setups_txQueueSetup (d : Dev) : ∀ n, setups txQueueSetup n d =
    { d with txq := queues ⟨512, d.socketId, 0⟩ n d.txq }
  | 0 => rfl
  | n + 1 => by rw [setups, setups_txQueueSetup d n, txQueueSetup, queues]

theorem queueSetups_eq_ok_iff {port : ℕ} {ret : ℕ → ℤ} {text : String} {f : ℕ → Dev → Dev}
    {s : System} : ∀ {n : ℕ} {t : System}, queueSetups port ret text f n s = .ok t ↔
      (∀ q < n, 0 ≤ ret q) ∧ t = s.setDev port (setups f n)
  | 0, t => by
      change Except.ok s = .ok t ↔ _ ∧ t = s.setDev port fun d => d
      rw [setDev_id, Except.ok.injEq, eq_comm]
      exact (and_iff_right fun q hq => absurd hq (Nat.not_lt_zero q)).symm
  | n + 1, t => by
      simp only [queueSetups, bind_eq_ok, check_eq_ok, exists_const, pure_eq_ok,
        queueSetups_eq_ok_iff, Nat.forall_lt_succ_right]
      constructor
      · rintro ⟨u, ⟨hq, rfl⟩, hn, rfl⟩
        exact ⟨⟨hq, hn⟩, setDev_setDev ..⟩
      · rintro ⟨⟨hq, hn⟩, rfl⟩
        exact ⟨_, ⟨hq, rfl⟩, hn, (setDev_setDev s port (setups f n) (f n)).symm⟩

/-- **`port_configure`**: the NIC gets its queues, and is started in promiscuous mode. -/
theorem portConfigure_eq_ok_iff {port nbRxq nbTxq mp : ℕ} {conf : RteEthConf} {c : Calls}
    {s t : System} : portConfigure port nbRxq nbTxq conf mp c s = .ok t ↔
      (0 ≤ c.devConfigure ∧ (∀ q < nbRxq, 0 ≤ c.rxQueueSetup q) ∧
        (∀ q < nbTxq, 0 ≤ c.txQueueSetup q) ∧ 0 ≤ c.devStart) ∧
      t = s.setDev port fun d => d.configured nbRxq nbTxq conf mp := by
  simp only [portConfigure, bind_eq_ok, check_eq_ok, exists_const, pure_eq_ok,
    queueSetups_eq_ok_iff]
  constructor
  · rintro ⟨hc, u, ⟨hrx, rfl⟩, v, ⟨htx, rfl⟩, hs, rfl⟩
    refine ⟨⟨hc, hrx, htx, hs⟩, ?_⟩
    simp only [setDev_setDev, setups_rxQueueSetup, setups_txQueueSetup]
    rfl
  · rintro ⟨⟨hc, hrx, htx, hs⟩, rfl⟩
    refine ⟨hc, _, ⟨hrx, rfl⟩, _, ⟨htx, rfl⟩, hs, ?_⟩
    simp only [setDev_setDev, setups_rxQueueSetup, setups_txQueueSetup]
    rfl

/-! ### `port_alloc` -/

/-- A port with what is its own: the pool and the ring are named after the NIC, and the host
interface is up and has the address of the NIC. -/
structure Owned where
  block : ℕ
  port : PortT
  pool : RteMempool
  ring : RteRing
  hostif : Iface
  mp_eq : port.mp = pool.addr
  pool_name : pool.name = poolName port.dpdkPid
  pool_n : pool.n = numMbufs
  ring_eq : port.fromHostif = ring.addr
  ring_name : ring.name = ringName port.dpdkPid
  ring_count : ring.count = ringSize
  fd_eq : hostif.fd = some port.hostifFd
  hwaddr_eq : hostif.hwaddr = port.hwaddr
  up : hostif.flags.getLsbD 0 = true
deriving DecidableEq

/-- The port that the calls make. -/
def Calls.owned (c : Calls) (dpdkPid nrxq ntxq : ℕ) (ifname : List UInt8) (s : System) : Owned where
  block := c.malloc.getD 0
  port := ⟨c.openTun, dpdkPid, nrxq, ntxq, (s.devs dpdkPid).macaddr, c.ringCreate.getD 0,
    c.poolCreate.getD 0⟩
  pool := ⟨c.poolCreate.getD 0, poolName dpdkPid, numMbufs, 250, 0, 2176,
    (s.devs dpdkPid).socketId⟩
  ring := ⟨c.ringCreate.getD 0, ringName dpdkPid, ringSize, 0, 0⟩
  hostif := ⟨devName (ifrName ifname 16), (s.devs dpdkPid).macaddr, c.ifFlags ||| IFF_UP,
    some c.openTun⟩
  mp_eq := rfl
  pool_name := rfl
  pool_n := rfl
  ring_eq := rfl
  ring_name := rfl
  ring_count := rfl
  fd_eq := rfl
  hwaddr_eq := rfl
  up := by simp [IFF_UP]

/-- The system with one more port. -/
def System.take (s : System) (ifname : List UInt8) (o : Owned) : System where
  blocks := o.block :: s.blocks
  port := Function.update s.port o.block o.port
  pools := o.pool :: s.pools
  rings := o.ring :: s.rings
  devs := (s.setDev (o.port.dpdkPid % 2 ^ 8) fun d =>
    d.configured o.port.nrxq o.port.ntxq portConf o.port.mp).devs
  fds := o.port.hostifFd :: s.fds
  ifaces := o.hostif :: s.ifaces
  stdout := s.stdout ++ addrLine ifname o.port.hwaddr

theorem devs_setDev_of_ne {s : System} {port q : ℕ} {f : Dev → Dev} (hq : q ≠ port) :
    (s.setDev port f).devs q = s.devs q := Function.update_of_ne hq ..

theorem macaddr_setDev {s : System} {port : ℕ} {f : Dev → Dev}
    (hf : ∀ d, (f d).macaddr = d.macaddr) (q : ℕ) :
    ((s.setDev port f).devs q).macaddr = (s.devs q).macaddr := by
  obtain rfl | hq := eq_or_ne q port
  · simp only [System.setDev, Function.update_self, hf]
  · rw [devs_setDev_of_ne hq]

/-- **`port_alloc`**: it returns just when the checked calls succeed, and then the system is that
with the new port. -/
theorem portAlloc_eq_ok_iff {dpdkPid nrxq ntxq p : ℕ} {ifname : List UInt8} {c : Calls}
    {s t : System} (hposs : c.Possible dpdkPid ifname s) :
    portAlloc dpdkPid nrxq ntxq ifname c s = .ok (t, p) ↔ c.Succeed nrxq ntxq ∧
      t = s.take ifname (c.owned dpdkPid nrxq ntxq ifname s) ∧ c.malloc = some p := by
  have hmac : ∀ (u : System) (mp : ℕ), ((u.setDev (dpdkPid % 2 ^ 8) fun d =>
      d.configured nrxq ntxq portConf mp).devs dpdkPid).macaddr = (u.devs dpdkPid).macaddr :=
    fun u mp => macaddr_setDev (f := fun d => d.configured nrxq ntxq portConf mp) (fun _ => rfl) _
  simp only [portAlloc, bind_eq_ok, notNull_eq_ok, pure_eq_ok, portConfigure_eq_ok_iff]
  constructor
  · rintro ⟨b, hb, mp, hmp, u, ⟨⟨hc, hrx, htx, hst⟩, rfl⟩, ⟨v, fd⟩, htap, ring, hring, heq⟩
    obtain ⟨⟨ho, ht, ha, hg, hf⟩, rfl, rfl⟩ :=
      (tapAlloc_eq_ok_iff (by exact hposs.toTapPossible)).mp htap
    obtain ⟨rfl, rfl⟩ := Prod.mk.inj heq
    refine ⟨⟨?_, ?_, hc, hrx, htx, hst, ho, ht, ha, hg, hf, ?_⟩, ?_, hb⟩
    · rw [hb]; rfl
    · rw [hmp]; rfl
    · rw [hring]; rfl
    · simp only [hmac, System.take, Calls.owned, hb, hmp, hring, Option.getD_some]
      rfl
  · rintro ⟨h, rfl, hp⟩
    obtain ⟨mp, hmp⟩ := Option.isSome_iff_exists.mp h.poolCreate
    obtain ⟨ring, hring⟩ := Option.isSome_iff_exists.mp h.ringCreate
    refine ⟨p, hp, mp, hmp, _, ⟨⟨h.devConfigure, h.rxQueueSetup, h.txQueueSetup, h.devStart⟩,
      rfl⟩, (_, _), (tapAlloc_eq_ok_iff (by exact hposs.toTapPossible)).mpr
      ⟨⟨h.openTun, h.tunsetiff, h.siocsifhwaddr, h.siocgifflags, h.siocsifflags⟩, rfl, rfl⟩, ring,
      hring, ?_⟩
    simp only [hmac, System.take, Calls.owned, hp, hmp, hring, Option.getD_some]
    rfl

/-! ### Runs -/

instance (c : Calls) (ifname : List UInt8) (fds : List ℤ) (ifaces : List Iface) :
    Decidable (c.TapPossible ifname fds ifaces) :=
  decidable_of_iff
    ((0 ≤ c.openTun → c.openTun ∉ fds ∧ ∀ i ∈ ifaces, i.fd ≠ some c.openTun) ∧
      (0 ≤ c.tunsetiff → ∀ i ∈ ifaces, i.name ≠ devName (ifrName ifname 16)) ∧
      (0 ≤ c.tunsetiff →
        devName (ifrName ifname 16) ≠ [] ∧ (37 : UInt8) ∉ devName (ifrName ifname 16)) ∧
      (0 ≤ c.socket →
        c.socket ≠ c.openTun ∧ c.socket ∉ fds ∧ ∀ i ∈ ifaces, i.fd ≠ some c.socket) ∧
      (0 ≤ c.siocgifflags → 0 ≤ c.socket))
    ⟨fun ⟨ho, ht, hn, hs, hg⟩ => ⟨ho, ht, hn, hs, hg⟩,
      fun h => ⟨h.openTun, h.tunsetiff, h.template, h.socket, h.siocgifflags⟩⟩

instance (c : Calls) (dpdkPid : ℕ) (ifname : List UInt8) (s : System) :
    Decidable (c.Possible dpdkPid ifname s) :=
  decidable_of_iff
    (c.TapPossible ifname s.fds s.ifaces ∧ (∀ p ∈ c.malloc, p ∉ s.blocks) ∧
      (∀ mp ∈ c.poolCreate, ∀ pool ∈ s.pools, pool.addr ≠ mp ∧ pool.name ≠ poolName dpdkPid) ∧
      ∀ r ∈ c.ringCreate, ∀ ring ∈ s.rings, ring.addr ≠ r ∧ ring.name ≠ ringName dpdkPid)
    ⟨fun ⟨ht, hm, hp, hr⟩ => ⟨ht, hm, hp, hr⟩,
      fun h => ⟨h.toTapPossible, h.malloc, h.poolCreate, h.ringCreate⟩⟩

/-- A call of one of the two functions. -/
inductive Call where
  | portAlloc (dpdkPid nrxq ntxq : ℕ) (ifname : List UInt8) (calls : Calls)
  | portFree (o : Owned)

/-- What a call does to the system and to the ports that its callers have.  A port is allocated
for a NIC that has no port, whose number is an `uint8_t`, and is freed once. -/
def call (x : System × List Owned) : Call → Option (System × List Owned)
  | .portAlloc dpdkPid nrxq ntxq ifname c =>
      if c.Possible dpdkPid ifname x.1 ∧ dpdkPid < 2 ^ 8 ∧
          ∀ o ∈ x.2, o.port.dpdkPid ≠ dpdkPid then
        match portAlloc dpdkPid nrxq ntxq ifname c x.1 with
        | .ok (s, _) => some (s, c.owned dpdkPid nrxq ntxq ifname x.1 :: x.2)
        | .error _ => none
      else none
  | .portFree o => if o ∈ x.2 then some (portFree o.block x.1, x.2.erase o) else none

/-- The ports that are allocated. -/
def allocated (x : System × List Owned) : Call → List Owned
  | .portAlloc dpdkPid nrxq ntxq ifname c => [c.owned dpdkPid nrxq ntxq ifname x.1]
  | .portFree _ => []

/-- The NIC is set up for the port. -/
structure Dev.Serves (d : Dev) (p : PortT) : Prop where
  macaddr : p.hwaddr = d.macaddr
  nbRxq : d.nbRxq = p.nrxq % 2 ^ 16
  nbTxq : d.nbTxq = p.ntxq % 2 ^ 16
  conf : d.conf = some portConf
  rxq : ∀ q < p.nrxq, d.rxq (q % 2 ^ 16) = some ⟨128, d.socketId, p.mp⟩
  txq : ∀ q < p.ntxq, d.txq (q % 2 ^ 16) = some ⟨512, d.socketId, 0⟩
  started : d.started = true
  promiscuous : d.promiscuous = true

/-- What the ports `os` are in `s`, after a run from `s₀`: what is there beside what there was at
first is theirs, and what is theirs is told apart by its address or descriptor. -/
structure Holding (s₀ s : System) (os : List Owned) : Prop where
  pools : Tenure RteMempool.addr Owned.pool s₀.pools s.pools os
  rings : Tenure RteRing.addr Owned.ring s₀.rings s.rings os
  fds : Tenure id (fun o : Owned => o.port.hostifFd) s₀.fds s.fds os
  ifaces : Tenure Iface.fd Owned.hostif s₀.ifaces s.ifaces os
  pids : (os.map fun o => o.port.dpdkPid).Nodup
  pid_lt : ∀ o ∈ os, o.port.dpdkPid < 2 ^ 8
  block : ∀ o ∈ os, o.block ∈ s.blocks
  port : ∀ o ∈ os, s.port o.block = o.port
  devs : ∀ o ∈ os, (s.devs o.port.dpdkPid).Serves o.port

theorem Dev.configured_serves (d : Dev) {p : PortT} (hp : p.hwaddr = d.macaddr) :
    (d.configured p.nrxq p.ntxq portConf p.mp).Serves p where
  macaddr := hp
  nbRxq := rfl
  nbTxq := rfl
  conf := rfl
  rxq _ hq := queues_of_lt _ _ hq
  txq _ hq := queues_of_lt _ _ hq
  started := rfl
  promiscuous := rfl

theorem Holding.start (s₀ : System) : Holding s₀ s₀ [] where
  pools := .start ..
  rings := .start ..
  fds := .start ..
  ifaces := .start ..
  pids := List.nodup_nil
  pid_lt _ h := absurd h List.not_mem_nil
  block _ h := absurd h List.not_mem_nil
  port _ h := absurd h List.not_mem_nil
  devs _ h := absurd h List.not_mem_nil

section
variable {s₀ s : System} {os : List Owned} {o : Owned}

/-- A port is added whose resources were not in use. -/
theorem Holding.take (h : Holding s₀ s os) (ifname : List UInt8) (hblock : o.block ∉ s.blocks)
    (hpool : ∀ pool ∈ s.pools, pool.addr ≠ o.pool.addr)
    (hring : ∀ ring ∈ s.rings, ring.addr ≠ o.ring.addr) (hfd : o.port.hostifFd ∉ s.fds)
    (hiface : ∀ i ∈ s.ifaces, i.fd ≠ o.hostif.fd) (hlt : o.port.dpdkPid < 2 ^ 8)
    (hpid : ∀ o' ∈ os, o'.port.dpdkPid ≠ o.port.dpdkPid)
    (hmac : o.port.hwaddr = (s.devs o.port.dpdkPid).macaddr) :
    Holding s₀ (s.take ifname o) (o :: os) where
  pools := h.pools.take hpool
  rings := h.rings.take hring
  fds := h.fds.take fun fd hmem (heq : fd = o.port.hostifFd) => hfd (heq ▸ hmem)
  ifaces := h.ifaces.take hiface
  pids := by
    rw [List.map_cons, List.nodup_cons, List.mem_map, not_exists]
    exact ⟨fun o' ho' => hpid o' ho'.1 ho'.2, h.pids⟩
  pid_lt := List.forall_mem_cons.mpr ⟨hlt, h.pid_lt⟩
  block := List.forall_mem_cons.mpr ⟨.head _, fun o' ho' => .tail _ (h.block o' ho')⟩
  port := by
    refine List.forall_mem_cons.mpr ⟨Function.update_self .., fun o' ho' => ?_⟩
    have hne : o'.block ≠ o.block := fun heq => hblock (heq ▸ h.block o' ho')
    exact (Function.update_of_ne hne ..).trans (h.port o' ho')
  devs := by
    have hmod : o.port.dpdkPid % 2 ^ 8 = o.port.dpdkPid := Nat.mod_eq_of_lt hlt
    refine List.forall_mem_cons.mpr ⟨?_, fun o' ho' => ?_⟩
    · simp only [System.take, System.setDev, hmod, Function.update_self]
      exact Dev.configured_serves _ hmac
    · simp only [System.take, hmod, devs_setDev_of_ne (hpid o' ho')]
      exact h.devs o' ho'

/-- A port is freed. -/
theorem Holding.free (h : Holding s₀ s os) (ho : o ∈ os) :
    Holding s₀ (portFree o.block s) (os.erase o) := by
  have hmem : ∀ o' ∈ os.erase o, o' ∈ os := fun o' => List.mem_of_mem_erase
  have hpid : ∀ o' ∈ os.erase o, o'.port.dpdkPid ≠ o.port.dpdkPid := by
    intro o' ho' heq
    have hne := (List.Nodup.mem_erase_iff (h.pids.of_map _)).mp ho'
    exact hne.1 (List.inj_on_of_nodup_map h.pids hne.2 ho heq)
  have hpools := h.pools.give ho
  have hrings := h.rings.give ho
  have hifaces := h.ifaces.give ho
  rw [← o.mp_eq] at hpools
  rw [← o.ring_eq] at hrings
  rw [o.fd_eq] at hifaces
  unfold portFree
  rw [h.port o ho]
  exact {
    pools := hpools
    rings := hrings
    fds := h.fds.give ho
    ifaces := hifaces
    pids := h.pids.sublist (os.erase_sublist.map _)
    pid_lt := fun o' ho' => h.pid_lt o' (hmem o' ho')
    block := fun o' ho' => h.block o' (hmem o' ho')
    port := fun o' ho' => h.port o' (hmem o' ho')
    devs := fun o' ho' => by
      have hdev : (s.setDev o.port.dpdkPid fun d => { d with started := false }).devs
          o'.port.dpdkPid = s.devs o'.port.dpdkPid := devs_setDev_of_ne (hpid o' ho')
      have hserves := h.devs o' (hmem o' ho')
      rw [← hdev] at hserves
      exact hserves }

/-- What an allocation needs and does. -/
theorem call_portAlloc_iff {x y : System × List Owned} {dpdkPid nrxq ntxq : ℕ}
    {ifname : List UInt8} {c : Calls} :
    call x (.portAlloc dpdkPid nrxq ntxq ifname c) = some y ↔
      (c.Possible dpdkPid ifname x.1 ∧ dpdkPid < 2 ^ 8 ∧ ∀ o ∈ x.2, o.port.dpdkPid ≠ dpdkPid) ∧
      c.Succeed nrxq ntxq ∧ y = (x.1.take ifname (c.owned dpdkPid nrxq ntxq ifname x.1),
        c.owned dpdkPid nrxq ntxq ifname x.1 :: x.2) := by
  rw [call]
  split_ifs with hguard
  · rw [and_iff_right hguard]
    constructor
    · intro h
      cases hr : portAlloc dpdkPid nrxq ntxq ifname c x.1 with
      | error e => rw [hr] at h; cases h
      | ok r =>
          rw [hr] at h
          obtain ⟨hsucc, hs, -⟩ := (portAlloc_eq_ok_iff hguard.1).mp hr
          exact ⟨hsucc, by rw [← Option.some.inj h, ← hs]⟩
    · rintro ⟨hsucc, rfl⟩
      obtain ⟨p, hp⟩ := Option.isSome_iff_exists.mp hsucc.malloc
      rw [(portAlloc_eq_ok_iff hguard.1).mpr ⟨hsucc, rfl, hp⟩]
  · exact ⟨nofun, fun h => absurd h.1 hguard⟩

theorem Holding.call {x y : System × List Owned} {a : Call} (h : Holding s₀ x.1 x.2)
    (hcall : Yak.call x a = some y) : Holding s₀ y.1 y.2 := by
  cases a with
  | portAlloc dpdkPid nrxq ntxq ifname c =>
      obtain ⟨⟨hposs, hlt, hpid⟩, hsucc, rfl⟩ := call_portAlloc_iff.mp hcall
      obtain ⟨p, hp⟩ := Option.isSome_iff_exists.mp hsucc.malloc
      obtain ⟨mp, hmp⟩ := Option.isSome_iff_exists.mp hsucc.poolCreate
      obtain ⟨r, hr⟩ := Option.isSome_iff_exists.mp hsucc.ringCreate
      obtain ⟨hfd, hifaces⟩ := hposs.openTun hsucc.openTun
      refine h.take ifname ?_ ?_ ?_ hfd hifaces hlt hpid rfl
      · simp only [Calls.owned, hp, Option.getD_some]
        exact hposs.malloc p hp
      · simp only [Calls.owned, hmp, Option.getD_some]
        exact fun pool hpool => (hposs.poolCreate mp hmp pool hpool).1
      · simp only [Calls.owned, hr, Option.getD_some]
        exact fun ring hring => (hposs.ringCreate r hr ring hring).1
  | portFree o =>
      rw [Yak.call] at hcall
      split_ifs at hcall with ho
      cases hcall
      exact h.free ho

/-- **Ports**: in every run of `port_alloc` and `port_free` the pools, rings, descriptors and host
interfaces are those of the ports that are allocated now, and what was there at first; their NICs
are set up for them.  The blocks are those of all ports that were ever allocated. -/
theorem ports_held {x : (System × List Owned) × List Owned}
    (h : Reachable (logged Yak.call allocated) Always ((s₀, []), []) x) :
    Holding s₀ x.1.1 x.1.2 ∧ x.1.1.blocks = (x.2.map Owned.block).reverse ++ s₀.blocks := by
  refine h.induct (I := fun x : (System × List Owned) × List Owned => Holding s₀ x.1.1 x.1.2 ∧
    x.1.1.blocks = (x.2.map Owned.block).reverse ++ s₀.blocks) ⟨.start s₀, rfl⟩ ?_
  intro x a y _ hx _ hstep
  obtain ⟨hcall, hlog⟩ := logged_eq_some.mp hstep
  refine ⟨hx.1.call hcall, ?_⟩
  rw [hlog]
  cases a with
  | portAlloc dpdkPid nrxq ntxq ifname c =>
      obtain ⟨-, -, hy⟩ := call_portAlloc_iff.mp hcall
      rw [hy, allocated, List.map_append, List.map_singleton, List.reverse_append,
        List.reverse_singleton, List.singleton_append, List.cons_append, ← hx.2]
      rfl
  | portFree o =>
      rw [Yak.call] at hcall
      split_ifs at hcall
      rw [← Option.some.inj hcall, allocated, List.append_nil, ← hx.2]
      rfl

end

/-- Calls that succeed, with the `k`-th block, pool and ring. -/
def someCalls (k : ℕ) : Calls where
  malloc := some k
  poolCreate := some k
  devConfigure := 0
  rxQueueSetup := fun _ => 0
  txQueueSetup := fun _ => 0
  devStart := 0
  openTun := 2 * k + 3
  tunsetiff := 0
  ifHwaddr := .replicate 6 0
  ifFlags := 0
  siocsifhwaddr := 0
  socket := 2 * k + 4
  siocgifflags := 0
  siocsifflags := 0
  ringCreate := some k

theorem someCalls_succeed (k nrxq ntxq : ℕ) : (someCalls k).Succeed nrxq ntxq :=
  ⟨rfl, rfl, le_rfl, fun _ _ => le_rfl, fun _ _ => le_rfl, le_rfl, by simp [someCalls]; omega,
    le_rfl, le_rfl, le_rfl, le_rfl, rfl⟩

/-- A system with the standard streams and one interface. -/
def someSystem : System where
  blocks := []
  port := fun _ => ⟨0, 0, 0, 0, .replicate 6 0, 0, 0⟩
  pools := []
  rings := []
  devs := fun d => ⟨.replicate 6 (UInt8.ofNat d), 0, 0, 0, none, fun _ => none, fun _ => none,
    false, false⟩
  fds := [0, 1, 2]
  ifaces := [⟨ascii "lo", .replicate 6 0, 1, none⟩]
  stdout := []

def ownedZero : Owned := (someCalls 0).owned 0 1 1 (ascii "ge-0-0-0") someSystem

/-- The system with the first port. -/
def onePort : System := someSystem.take (ascii "ge-0-0-0") ownedZero

def ownedOne : Owned := (someCalls 1).owned 1 1 1 (ascii "ge-0-0-1") onePort

/-- The system with both ports. -/
def twoPorts : System := onePort.take (ascii "ge-0-0-1") ownedOne

/-- Two ports are allocated, and the first is freed: its block is still there. -/
theorem ports_held_free : Holding someSystem (portFree 0 twoPorts) [ownedOne] ∧
    (portFree 0 twoPorts).blocks = [1, 0] := by
  have hzero : call (someSystem, []) (.portAlloc 0 1 1 (ascii "ge-0-0-0") (someCalls 0)) =
      some (onePort, [ownedZero]) :=
    call_portAlloc_iff.mpr ⟨⟨by decide +kernel, by decide, List.forall_mem_nil _⟩,
      someCalls_succeed 0 1 1, rfl⟩
  have hone : call (onePort, [ownedZero]) (.portAlloc 1 1 1 (ascii "ge-0-0-1") (someCalls 1)) =
      some (twoPorts, [ownedOne, ownedZero]) :=
    call_portAlloc_iff.mpr ⟨⟨by decide +kernel, by decide, by decide⟩, someCalls_succeed 1 1 1, rfl⟩
  have hfree : call (twoPorts, [ownedOne, ownedZero]) (.portFree ownedZero) =
      some (portFree 0 twoPorts, [ownedOne]) := by
    have herase : [ownedOne, ownedZero].erase ownedZero = [ownedOne] := by decide +kernel
    rw [call, if_pos (List.mem_cons_of_mem _ (.head _)), herase]
    rfl
  have hstart : Reachable (logged Yak.call allocated) Always ((someSystem, []), [])
      ((someSystem, []), []) := .refl _
  exact ports_held (((hstart.tail_logged trivial hzero).tail_logged trivial hone).tail_logged
    trivial hfree)

end Hspp.Yak
