import Hspp.PortAlloc

/-! # Start of the forwarder (`yak/main.c`)

`main` allocates a port for every NIC and starts the two threads.  It gets there just when no
checked call fails (`main_forwards_iff`), and then the ports are as the forwarder needs them:
each has a pool, a ring, a NIC and a host interface of its own.  The names that are made from the
numbers of the ports never clash, so a system in which they are free is never a reason to fail
(`main_forwards_of_free`). -/

namespace Hspp.Yak

open Keyed Text Transition

/-- `portname`. -/
def portname (i : ℕ) : List UInt8 := snprintf [] 100 (ascii "ge-0-0-" ++ printNum 10 1 i)

/-- The loop of `main` over the ports before a number: the blocks stored in `port`. -/
def portsAlloc (c : ℕ → Calls) : ℕ → System → Except (List UInt8) (System × List ℕ)
  | 0, s => .ok (s, [])
  | i + 1, s => do
      let (s, port) ← portsAlloc c i s
      let (s, p) ← portAlloc (i % 2 ^ 16) 1 1 (portname i) (c i) s
      return (s, port ++ [p])

/-- What the calls in `main` return. -/
structure MainCalls where
  ealInit : ℤ
  nbPorts : ℕ
  ports : ℕ → Calls
  fwdThread : ℤ
  tapThread : ℤ

/-- `main`, up to where it waits for the threads: the system and `port`.  When `rte_exit` is called
before, the message and whether `fwd_main` is running then. -/
def main (c : MainCalls) (s : System) : Except (List UInt8 × Bool) (System × List ℕ) :=
  if c.ealInit < 0 then .error (ascii "rte_eal_init\n", false)
  else
    match portsAlloc c.ports c.nbPorts s with
    | .error msg => .error (msg, false)
    | .ok r =>
        if c.fwdThread ≠ 0 then .error (ascii "Failed create fwd_thread\n", false)
        else if c.tapThread ≠ 0 then .error (ascii "Failed create tap_thread\n", true)
        else .ok r

/-! ### Names -/

section
variable {i j : ℕ}

theorem nul_notMem_name {pre post : String} (hpre : (0 : UInt8) ∉ ascii pre)
    (hpost : (0 : UInt8) ∉ ascii post) :
    (0 : UInt8) ∉ ascii pre ++ printNum 10 1 i ++ ascii post := by
  rw [List.mem_append, List.mem_append, not_or, not_or]
  exact ⟨⟨hpre, nul_notMem_printNum (by norm_num) (by norm_num)⟩, hpost⟩

/-- A name with a number between two texts is not cut. -/
theorem name_eq (pre post : String) (hpre : (0 : UInt8) ∉ ascii pre)
    (hpost : (0 : UInt8) ∉ ascii post) (hlen : (ascii pre).length + (ascii post).length ≤ 90)
    (hi : i < 2 ^ 8) :
    cstr (snprintf [] 100 (ascii pre ++ printNum 10 1 i ++ ascii post)) =
      ascii pre ++ printNum 10 1 i ++ ascii post := by
  have hnum := length_printNum_le (b := 10) (w := 3) (by norm_num) (by norm_num)
    (hi.trans (by norm_num))
  refine cstr_snprintf ?_ (nul_notMem_name hpre hpost)
  rw [List.length_append, List.length_append]
  omega

theorem name_inj {pre post : String} (hpre : (0 : UInt8) ∉ ascii pre)
    (hpost : (0 : UInt8) ∉ ascii post) (hlen : (ascii pre).length + (ascii post).length ≤ 90)
    (hi : i < 2 ^ 8) (hj : j < 2 ^ 8)
    (h : cstr (snprintf [] 100 (ascii pre ++ printNum 10 1 i ++ ascii post)) =
      cstr (snprintf [] 100 (ascii pre ++ printNum 10 1 j ++ ascii post))) : i = j := by
  rw [name_eq pre post hpre hpost hlen hi, name_eq pre post hpre hpost hlen hj] at h
  exact printNum_injective (by norm_num) (by norm_num)
    (List.append_cancel_left (List.append_cancel_right h))

theorem poolName_inj (hi : i < 2 ^ 8) (hj : j < 2 ^ 8) : poolName i = poolName j → i = j :=
  name_inj (by decide) (by decide) (by decide) hi hj

theorem ringName_inj (hi : i < 2 ^ 8) (hj : j < 2 ^ 8) : ringName i = ringName j → i = j :=
  name_inj (by decide) (by decide) (by decide) hi hj

/-- The interface of a port, whose name is not cut either. -/
theorem devName_portname (hi : i < 2 ^ 8) :
    devName (ifrName (portname i) 16) = ascii "ge-0-0-" ++ printNum 10 1 i := by
  have hnum := length_printNum_le (b := 10) (w := 3) (by norm_num) (by norm_num)
    (hi.trans (by norm_num))
  have hcstr := name_eq "ge-0-0-" "" (by decide) (by decide) (by decide) hi
  have hpost : ascii "" = [] := rfl
  have hpre : (ascii "ge-0-0-").length = 7 := rfl
  rw [hpost, List.append_nil] at hcstr
  rw [devName_ifrName _ (by norm_num), portname, hcstr, List.take_of_length_le]
  rw [List.length_append]
  omega

end

/-! ### The loop -/

/-- What the first `n` ports are after the loop, the last one first. -/
structure SetUp (s₀ s : System) (port : List ℕ) (n : ℕ) (os : List Owned) : Prop where
  holding : Holding s₀ s os
  port_eq : port = (os.map Owned.block).reverse
  pids : os.map (fun o => o.port.dpdkPid) = (List.range n).reverse
  queues : ∀ o ∈ os, o.port.nrxq = 1 ∧ o.port.ntxq = 1
  names : ∀ o ∈ os, o.hostif.name = ascii "ge-0-0-" ++ printNum 10 1 o.port.dpdkPid
  stdout : s.stdout = s₀.stdout ++
    os.reverse.flatMap fun o => addrLine (portname o.port.dpdkPid) o.port.hwaddr

/-- The calls for the ports may be answered so, in the states in which they are made. -/
def PossiblePorts (c : ℕ → Calls) (n : ℕ) (s₀ : System) : Prop :=
  ∀ i < n, ∀ s port, portsAlloc c i s₀ = .ok (s, port) →
    (c i).Possible i (portname i) s

section
variable {c : ℕ → Calls} {s₀ s t : System} {port port' : List ℕ} {n : ℕ} {os : List Owned}

/-- One round of the loop. -/
theorem portsAlloc_succ (hn : n < 2 ^ 8) (hposs : PossiblePorts c (n + 1) s₀) :
    portsAlloc c (n + 1) s₀ = .ok (t, port') ↔ ∃ s port, portsAlloc c n s₀ = .ok (s, port) ∧
      (c n).Succeed 1 1 ∧ t = s.take (portname n) ((c n).owned n 1 1 (portname n) s) ∧
      port' = port ++ [((c n).owned n 1 1 (portname n) s).block] := by
  have hmod : n % 2 ^ 16 = n := Nat.mod_eq_of_lt (hn.trans (by norm_num))
  simp only [portsAlloc, bind_eq_ok, pure_eq_ok, hmod]
  constructor
  · rintro ⟨⟨s, port⟩, hs, ⟨u, p⟩, hu, heq⟩
    obtain ⟨rfl, rfl⟩ := Prod.mk.inj heq
    obtain ⟨hsucc, rfl, hp⟩ := (portAlloc_eq_ok_iff (hposs n n.lt_succ_self s port hs)).mp hu
    refine ⟨s, port, hs, hsucc, rfl, ?_⟩
    rw [Calls.owned, hp, Option.getD_some]
  · rintro ⟨s, port, hs, hsucc, rfl, rfl⟩
    obtain ⟨p, hp⟩ := Option.isSome_iff_exists.mp hsucc.malloc
    refine ⟨(s, port), hs, (_, p),
      (portAlloc_eq_ok_iff (hposs n n.lt_succ_self s port hs)).mpr ⟨hsucc, rfl, hp⟩, ?_⟩
    rw [Calls.owned, hp, Option.getD_some]

theorem SetUp.succ (h : SetUp s₀ s port n os) (hn : n < 2 ^ 8)
    (hposs : (c n).Possible n (portname n) s) (hsucc : (c n).Succeed 1 1) :
    SetUp s₀ (s.take (portname n) ((c n).owned n 1 1 (portname n) s))
      (port ++ [((c n).owned n 1 1 (portname n) s).block]) (n + 1)
      ((c n).owned n 1 1 (portname n) s :: os) where
  holding := by
    have hnew : ∀ o ∈ os, o.port.dpdkPid ≠ n := by
      intro o ho heq
      have hmem : o.port.dpdkPid ∈ (List.range n).reverse :=
        h.pids ▸ List.mem_map_of_mem (f := fun o : Owned => o.port.dpdkPid) ho
      rw [heq, List.mem_reverse, List.mem_range] at hmem
      exact Nat.lt_irrefl n hmem
    have hcall := (call_portAlloc_iff (x := (s, os))).mpr ⟨⟨hposs, hn, hnew⟩, hsucc, rfl⟩
    exact Holding.call (x := (s, os)) h.holding hcall
  port_eq := by rw [h.port_eq, List.map_cons, List.reverse_cons]
  pids := by
    rw [List.map_cons, h.pids, List.range_succ, List.reverse_append]
    rfl
  queues := List.forall_mem_cons.mpr ⟨⟨rfl, rfl⟩, h.queues⟩
  names := List.forall_mem_cons.mpr ⟨devName_portname hn, h.names⟩
  stdout := by
    rw [List.reverse_cons, List.flatMap_append, ← List.append_assoc, ← h.stdout]
    exact congrArg (s.stdout ++ ·) (List.append_nil _).symm

/-- The loop is done just when the checked calls succeed, and the ports are set up then. -/
theorem portsAlloc_setUp : ∀ {n : ℕ}, n ≤ 2 ^ 8 → PossiblePorts c n s₀ →
    ((∃ r, portsAlloc c n s₀ = .ok r) ↔ ∀ i < n, (c i).Succeed 1 1) ∧
      ∀ s port, portsAlloc c n s₀ = .ok (s, port) → ∃ os, SetUp s₀ s port n os
  | 0, _, _ => by
      refine ⟨iff_of_true ⟨_, rfl⟩ fun i hi => absurd hi (Nat.not_lt_zero i), ?_⟩
      intro s port h
      cases h
      exact ⟨[], .start s₀, rfl, rfl, List.forall_mem_nil _, List.forall_mem_nil _,
        (List.append_nil _).symm⟩
  | n + 1, hn, hposs => by
      obtain ⟨hiff, hset⟩ := portsAlloc_setUp (n := n) (by omega)
        fun i hi => hposs i (Nat.lt_succ_of_lt hi)
      refine ⟨?_, ?_⟩
      · rw [Nat.forall_lt_succ_right, ← hiff]
        constructor
        · rintro ⟨⟨t, port'⟩, h⟩
          obtain ⟨s, port, hs, hsucc, -⟩ := (portsAlloc_succ hn hposs).mp h
          exact ⟨⟨_, hs⟩, hsucc⟩
        · rintro ⟨⟨⟨s, port⟩, hs⟩, hsucc⟩
          exact ⟨_, (portsAlloc_succ hn hposs).mpr ⟨s, port, hs, hsucc, rfl, rfl⟩⟩
      · intro t port' h
        obtain ⟨s, port, hs, hsucc, rfl, rfl⟩ := (portsAlloc_succ hn hposs).mp h
        obtain ⟨os, hos⟩ := hset s port hs
        exact ⟨_, hos.succ hn (hposs n n.lt_succ_self s port hs) hsucc⟩

/-! ### The ports that the forwarder starts with -/

/-- The mbufs of the pool that the port at `p` has.  Which of them are free is not kept: the
driver takes some when the NIC is started. -/
def System.mbufs (s : System) (p : ℕ) : List Mbuf :=
  ((s.pools.find? fun pool => pool.addr = (s.port p).mp).map fun pool =>
    (List.range pool.n).map fun idx => ⟨(s.port p).dpdkPid, idx⟩).getD []

theorem Holding.mbufs (h : Holding s₀ s os) {o : Owned} (ho : o ∈ os) :
    s.mbufs o.block = (initPort o.port.dpdkPid).mp := by
  have hfind : (s.pools.find? fun pool => pool.addr = o.port.mp) = some o.pool := by
    cases hp : s.pools.find? fun pool => pool.addr = o.port.mp with
    | none =>
        have hno := List.find?_eq_none.mp hp o.pool (h.pools.mem ho)
        exact absurd (decide_eq_true o.mp_eq.symm) hno
    | some pool =>
        have heq : pool.addr = o.port.mp := by simpa using List.find?_some hp
        rw [h.pools.eq_of_key ho (List.mem_of_find?_eq_some hp) (heq.trans o.mp_eq)]
  simp only [System.mbufs, h.port o ho, hfind, Option.map_some, Option.getD_some, o.pool_n,
    initPort]

/-- The port of a NIC. -/
theorem SetUp.exists_port (h : SetUp s₀ s port n os) {i : ℕ} (hi : i < n) :
    ∃ o ∈ os, port[i]? = some o.block ∧ o.port.dpdkPid = i := by
  have hpids : os.reverse.map (fun o => o.port.dpdkPid) = List.range n := by
    rw [List.map_reverse, h.pids, List.reverse_reverse]
  have hlen : os.reverse.length = n := by
    rw [← List.length_map, hpids, List.length_range]
  have hlt : i < os.reverse.length := hlen ▸ hi
  refine ⟨os.reverse[i], List.mem_reverse.mp (List.getElem_mem hlt), ?_, ?_⟩
  · rw [h.port_eq, ← List.map_reverse, List.getElem?_map, List.getElem?_eq_getElem hlt]
    rfl
  · have hget : (os.reverse.map fun o => o.port.dpdkPid)[i]? = some i := by
      rw [hpids, List.getElem?_range hi]
    rw [List.getElem?_map, List.getElem?_eq_getElem hlt] at hget
    exact Option.some.inj hget

end

theorem main_eq_ok_iff {c : MainCalls} {s₀ : System} {r : System × List ℕ} :
    main c s₀ = .ok r ↔ 0 ≤ c.ealInit ∧ portsAlloc c.ports c.nbPorts s₀ = .ok r ∧
      c.fwdThread = 0 ∧ c.tapThread = 0 := by
  unfold main
  by_cases heal : c.ealInit < 0
  · rw [if_pos heal]
    exact ⟨nofun, fun h => absurd h.1 (not_le.mpr heal)⟩
  rw [if_neg heal, and_iff_right (not_lt.mp heal)]
  cases portsAlloc c.ports c.nbPorts s₀ with
  | error e => exact ⟨nofun, fun h => nomatch h.1⟩
  | ok r' =>
      by_cases hfwd : c.fwdThread = 0 <;> by_cases htap : c.tapThread = 0 <;> simp [hfwd, htap]

/-- **Start**: `main` starts the threads just when no checked call fails.  Then `port[i]` is the
port of NIC `i`, set up and with what is its own, and the mbufs of its pool are those that the
forwarder starts with. -/
theorem main_forwards_iff {c : MainCalls} {s₀ : System} (hn : c.nbPorts ≤ 2 ^ 8)
    (hposs : PossiblePorts c.ports c.nbPorts s₀) :
    ((∃ r, main c s₀ = .ok r) ↔ 0 ≤ c.ealInit ∧ (∀ i < c.nbPorts, (c.ports i).Succeed 1 1) ∧
      c.fwdThread = 0 ∧ c.tapThread = 0) ∧
    ∀ s port, main c s₀ = .ok (s, port) → (∃ os, SetUp s₀ s port c.nbPorts os) ∧
      ∀ i < c.nbPorts, ∃ p, port[i]? = some p ∧ (s.port p).dpdkPid = i ∧
        s.mbufs p = (initPort i).mp := by
  obtain ⟨hiff, hset⟩ := portsAlloc_setUp hn hposs
  refine ⟨?_, ?_⟩
  · simp only [main_eq_ok_iff, ← hiff, exists_and_left, exists_and_right]
  · intro s port h
    obtain ⟨os, hos⟩ := hset s port (main_eq_ok_iff.mp h).2.1
    refine ⟨⟨os, hos⟩, fun i hi => ?_⟩
    obtain ⟨o, ho, hport, rfl⟩ := hos.exists_port hi
    exact ⟨o.block, hport, by rw [hos.holding.port o ho], hos.holding.mbufs ho⟩

/-- Two NICs. -/
def someMain : MainCalls := ⟨0, 2, someCalls, 0, 0⟩

theorem possible_zero : (someCalls 0).Possible 0 (portname 0) someSystem := by decide +kernel

theorem portsAlloc_one {s : System} {port : List ℕ}
    (h : portsAlloc someCalls 1 someSystem = .ok (s, port)) :
    s = someSystem.take (portname 0) ((someCalls 0).owned 0 1 1 (portname 0) someSystem) := by
  have hposs : PossiblePorts someCalls 1 someSystem := by
    intro i hi s port h
    obtain rfl : i = 0 := by omega
    cases h
    exact possible_zero
  obtain ⟨s', port', hs, -, hs', -⟩ := (portsAlloc_succ (by norm_num) hposs).mp h
  cases hs
  exact hs'

theorem possiblePorts_some : PossiblePorts someMain.ports someMain.nbPorts someSystem := by
  intro i hi s port h
  change i < 2 at hi
  interval_cases i
  · cases h
    exact possible_zero
  · rw [portsAlloc_one h]
    decide +kernel

theorem main_forwards_iff_some : ∃ r, main someMain someSystem = .ok r :=
  (main_forwards_iff (by decide) possiblePorts_some).1.mpr
    ⟨le_rfl, fun i _ => someCalls_succeed i 1 1, rfl, rfl⟩

/-! ### Names in use -/

/-- The names of the first `n` ports are not in use. -/
def NamesFree (s : System) (n : ℕ) : Prop :=
  ∀ i < n, (∀ pool ∈ s.pools, pool.name ≠ poolName i) ∧
    (∀ ring ∈ s.rings, ring.name ≠ ringName i) ∧
    ∀ iface ∈ s.ifaces, iface.name ≠ ascii "ge-0-0-" ++ printNum 10 1 i

/-- No call fails but for a name in use. -/
structure Calls.Obliging (c : Calls) (dpdkPid : ℕ) (ifname : List UInt8) (s : System) : Prop where
  malloc : c.malloc.isSome
  poolCreate : (∀ pool ∈ s.pools, pool.name ≠ poolName dpdkPid) → c.poolCreate.isSome
  devConfigure : 0 ≤ c.devConfigure
  rxQueueSetup : ∀ q, 0 ≤ c.rxQueueSetup q
  txQueueSetup : ∀ q, 0 ≤ c.txQueueSetup q
  devStart : 0 ≤ c.devStart
  openTun : 0 ≤ c.openTun
  tunsetiff : (∀ i ∈ s.ifaces, i.name ≠ devName (ifrName ifname 16)) → 0 ≤ c.tunsetiff
  siocsifhwaddr : 0 ≤ c.siocsifhwaddr
  siocgifflags : 0 ≤ c.siocgifflags
  siocsifflags : 0 ≤ c.siocsifflags
  ringCreate : (∀ ring ∈ s.rings, ring.name ≠ ringName dpdkPid) → c.ringCreate.isSome

section
variable {s₀ s : System} {port : List ℕ} {n i : ℕ} {os : List Owned}

/-- The ports before `i` leave the names of port `i` free. -/
theorem SetUp.names_free (h : SetUp s₀ s port i os) (hfree : NamesFree s₀ n) (hi : i < n)
    (hn : n ≤ 2 ^ 8) :
    (∀ pool ∈ s.pools, pool.name ≠ poolName i) ∧ (∀ ring ∈ s.rings, ring.name ≠ ringName i) ∧
      ∀ iface ∈ s.ifaces, iface.name ≠ ascii "ge-0-0-" ++ printNum 10 1 i := by
  have hlt : ∀ o ∈ os, o.port.dpdkPid < i := by
    intro o ho
    have hmem : o.port.dpdkPid ∈ (List.range i).reverse :=
      h.pids ▸ List.mem_map_of_mem (f := fun o : Owned => o.port.dpdkPid) ho
    rwa [List.mem_reverse, List.mem_range] at hmem
  obtain ⟨hpools, hrings, hifaces⟩ := hfree i hi
  refine ⟨fun pool hpool heq => ?_, fun ring hring heq => ?_, fun iface hiface heq => ?_⟩
  · rcases List.mem_append.mp (h.holding.pools.perm.mem_iff.mp hpool) with hp | hp
    · obtain ⟨o, ho, rfl⟩ := List.mem_map.mp hp
      rw [o.pool_name] at heq
      have := hlt o ho
      exact (hlt o ho).ne (poolName_inj (by omega) (by omega) heq)
    · exact hpools pool hp heq
  · rcases List.mem_append.mp (h.holding.rings.perm.mem_iff.mp hring) with hr | hr
    · obtain ⟨o, ho, rfl⟩ := List.mem_map.mp hr
      rw [o.ring_name] at heq
      have := hlt o ho
      exact (hlt o ho).ne (ringName_inj (by omega) (by omega) heq)
    · exact hrings ring hr heq
  · rcases List.mem_append.mp (h.holding.ifaces.perm.mem_iff.mp hiface) with hr | hr
    · obtain ⟨o, ho, rfl⟩ := List.mem_map.mp hr
      rw [h.names o ho] at heq
      exact (hlt o ho).ne (printNum_injective (by norm_num) (by norm_num)
        (List.append_cancel_left heq))
    · exact hifaces iface hr heq

end

/-- **Names**: where the names of the ports are free at first, no port is in the way of another:
if calls fail only for names in use then `main` starts the threads. -/
theorem main_forwards_of_free {c : MainCalls} {s₀ : System} (hn : c.nbPorts ≤ 2 ^ 8)
    (hposs : PossiblePorts c.ports c.nbPorts s₀) (hfree : NamesFree s₀ c.nbPorts)
    (hobl : ∀ i < c.nbPorts, ∀ s port, portsAlloc c.ports i s₀ = .ok (s, port) →
      (c.ports i).Obliging i (portname i) s)
    (heal : 0 ≤ c.ealInit) (hfwd : c.fwdThread = 0) (htap : c.tapThread = 0) :
    ∃ r, main c s₀ = .ok r := by
  have hsucc : ∀ i < c.nbPorts, (c.ports i).Succeed 1 1 := by
    intro i
    induction i using Nat.strong_induction_on with
    | _ i ih =>
        intro hi
        obtain ⟨hiff, hset⟩ := portsAlloc_setUp (n := i) (by omega)
          fun j hj => hposs j (hj.trans hi)
        obtain ⟨⟨s, port⟩, hs⟩ := hiff.mpr fun j hj => ih j hj (hj.trans hi)
        obtain ⟨os, hos⟩ := hset s port hs
        obtain ⟨hpools, hrings, hifaces⟩ := hos.names_free hfree hi hn
        have h := hobl i hi s port hs
        rw [← devName_portname (by omega)] at hifaces
        exact ⟨h.malloc, h.poolCreate hpools, h.devConfigure, fun q _ => h.rxQueueSetup q,
          fun q _ => h.txQueueSetup q, h.devStart, h.openTun, h.tunsetiff hifaces,
          h.siocsifhwaddr, h.siocgifflags, h.siocsifflags, h.ringCreate hrings⟩
  obtain ⟨r, hr⟩ := (portsAlloc_setUp hn hposs).1.mpr hsucc
  exact ⟨r, main_eq_ok_iff.mpr ⟨heal, hr, hfwd, htap⟩⟩

theorem someCalls_obliging (k dpdkPid : ℕ) (ifname : List UInt8) (s : System) :
    (someCalls k).Obliging dpdkPid ifname s :=
  have h := someCalls_succeed k
  ⟨rfl, fun _ => rfl, le_rfl, fun _ => le_rfl, fun _ => le_rfl, le_rfl, (h 0 0).openTun,
    fun _ => le_rfl, le_rfl, le_rfl, le_rfl, fun _ => rfl⟩

theorem main_forwards_of_free_some : ∃ r, main someMain someSystem = .ok r :=
  main_forwards_of_free (by decide) possiblePorts_some
    (by
      intro i hi
      change i < 2 at hi
      refine ⟨List.forall_mem_nil _, List.forall_mem_nil _, ?_⟩
      interval_cases i <;> decide +kernel)
    (fun i _ s _ _ => someCalls_obliging i i (portname i) s) le_rfl rfl rfl

end Hspp.Yak
