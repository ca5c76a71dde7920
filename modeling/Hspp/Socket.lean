import Hspp.Lib.Transition
import Mathlib.Data.Finset.Image

/-! # Netlink sockets (`yalin/socket.h`)

`netlink_open` takes two things, a `netlink_t` block and a socket, and returns the block as the
handle of both; `netlink_close` gives both back.  The state of a process is what these functions
hold of them (`Process`), and the handles its callers have: a run is any sequence of calls, in
which a handle is closed only while the caller has it.  What `malloc` and `socket` return is not
in use, and every other call may fail.

Each of the five failing exits of `netlink_open` returns `NULL` without giving anything back
(`netlinkOpen_failed`).  No handle to the block is left, so it is never freed: what is held is
what the handles need as long as no open has failed, and never again after that
(`balanced_iff`). -/

namespace Hspp.Socket

open Transition

/-- `struct sockaddr_nl`. -/
structure SockaddrNl where
  nlFamily : ℕ
  nlPid : ℕ
  nlGroups : ℕ
deriving DecidableEq, Repr

def AF_NETLINK : ℕ := 16

/-- The fields of `netlink_t` that are set on opening. -/
structure Netlink where
  fd : ℤ
  localAddr : SockaddrNl
  proto : ℤ
deriving DecidableEq, Repr

/-- What the calls in `netlink_open` return, and the name that `getsockname` stores. -/
structure Calls where
  malloc : ℕ
  socket : ℤ
  sndbuf : ℤ
  rcvbuf : ℤ
  extAck : ℤ
  bind : ℤ
  getsockname : ℤ
  name : SockaddrNl

/-- The sockets and blocks that are in use, what is in the blocks, and the handles that were
returned and not closed yet. -/
structure Process where
  fds : Finset ℤ
  blocks : Finset ℕ
  nl : ℕ → Netlink
  handles : Finset ℕ

namespace Process

/-- Nothing is open. -/
def start : Process := ⟨∅, ∅, fun _ => ⟨0, ⟨0, 0, 0⟩, 0⟩, ∅⟩

/-- Store `v` in the block at `nl`. -/
def store (s : Process) (nl : ℕ) (v : Netlink) : Process :=
  { s with nl := Function.update s.nl nl v }

@[simp] theorem store_fds (s : Process) (nl : ℕ) (v : Netlink) : (s.store nl v).fds = s.fds := rfl

@[simp] theorem store_blocks (s : Process) (nl : ℕ) (v : Netlink) :
    (s.store nl v).blocks = s.blocks := rfl

@[simp] theorem store_handles (s : Process) (nl : ℕ) (v : Netlink) :
    (s.store nl v).handles = s.handles := rfl

@[simp] theorem store_nl (s : Process) (nl : ℕ) (v : Netlink) :
    (s.store nl v).nl = Function.update s.nl nl v := rfl

end Process

/-- `netlink_open`.  `NETLINK_EXT_ACK` may be refused. -/
def netlinkOpen (subscriptions : ℕ) (protocol : ℤ) (c : Calls) (s : Process) :
    Process × Option ℕ :=
  let nl := c.malloc
  let s := { s with blocks := insert nl s.blocks }
  let s := s.store nl ⟨c.socket, ⟨0, 0, 0⟩, protocol⟩
  if c.socket < 0 then (s, none)
  else
    let s := { s with fds := insert c.socket s.fds }
    if c.sndbuf < 0 then (s, none)
    else if c.rcvbuf < 0 then (s, none)
    else
      let s := s.store nl ⟨c.socket, ⟨AF_NETLINK, 0, subscriptions⟩, protocol⟩
      if c.bind < 0 then (s, none)
      else if c.getsockname < 0 then (s, none)
      else (s.store nl ⟨c.socket, c.name, protocol⟩, some nl)

/-- `netlink_close`. -/
def netlinkClose (nl : ℕ) (s : Process) : Process :=
  let s :=
    if 0 ≤ (s.nl nl).fd then
      { s with fds := s.fds.erase (s.nl nl).fd }.store nl { s.nl nl with fd := -1 }
    else s
  { s with blocks := s.blocks.erase nl }

/-- A call of one of the two functions. -/
inductive Call where
  | netlinkOpen (subscriptions : ℕ) (protocol : ℤ) (calls : Calls)
  | netlinkClose (nl : ℕ)

/-- What a call does to the process and to the handles of its callers. -/
def call (s : Process) : Call → Option Process
  | .netlinkOpen subscriptions protocol c =>
      if c.malloc ∉ s.blocks ∧ (0 ≤ c.socket → c.socket ∉ s.fds) then
        match netlinkOpen subscriptions protocol c s with
        | (s, some nl) => some { s with handles := insert nl s.handles }
        | (s, none) => some s
      else none
  | .netlinkClose nl =>
      if nl ∈ s.handles then
        let s := netlinkClose nl s
        some { s with handles := s.handles.erase nl }
      else none

/-- All calls in `netlink_open` succeed whose failure makes it fail. -/
def Calls.Succeed (c : Calls) : Prop :=
  0 ≤ c.socket ∧ 0 ≤ c.sndbuf ∧ 0 ≤ c.rcvbuf ∧ 0 ≤ c.bind ∧ 0 ≤ c.getsockname

instance (c : Calls) : Decidable c.Succeed := inferInstanceAs (Decidable (_ ∧ _))

/-- The opens that fail. -/
def failed (_ : Process) : Call → List Calls
  | .netlinkOpen _ _ c => if c.Succeed then [] else [c]
  | .netlinkClose _ => []

/-- The sockets and blocks in use are those of the handles. -/
def Balanced (s : Process) : Prop :=
  s.blocks = s.handles ∧ s.fds = s.handles.image fun nl => (s.nl nl).fd

/-! ### One call -/

theorem netlinkOpen_succeeded {c : Calls} (h : c.Succeed) (subscriptions : ℕ) (protocol : ℤ)
    (s : Process) : netlinkOpen subscriptions protocol c s =
      (⟨insert c.socket s.fds, insert c.malloc s.blocks,
        Function.update s.nl c.malloc ⟨c.socket, c.name, protocol⟩, s.handles⟩,
        some c.malloc) := by
  obtain ⟨hsocket, hsnd, hrcv, hbind, hname⟩ := h
  simp only [netlinkOpen, not_lt.mpr hsocket, not_lt.mpr hsnd, not_lt.mpr hrcv,
    not_lt.mpr hbind, not_lt.mpr hname, if_false, Process.store, Function.update_idem]

/-- A failing open returns `NULL`, and keeps the block and the socket if there is one. -/
theorem netlinkOpen_failed {c : Calls} (h : ¬ c.Succeed) (subscriptions : ℕ) (protocol : ℤ)
    (s : Process) :
    (netlinkOpen subscriptions protocol c s).2 = none ∧
      (netlinkOpen subscriptions protocol c s).1.blocks = insert c.malloc s.blocks ∧
      (netlinkOpen subscriptions protocol c s).1.fds =
        (if 0 ≤ c.socket then insert c.socket s.fds else s.fds) ∧
      (netlinkOpen subscriptions protocol c s).1.handles = s.handles := by
  unfold netlinkOpen
  by_cases hsocket : c.socket < 0
  · simp [hsocket]
  have hs : 0 ≤ c.socket := not_lt.mp hsocket
  by_cases hsnd : c.sndbuf < 0
  · simp [hsocket, hs, hsnd]
  by_cases hrcv : c.rcvbuf < 0
  · simp [hsocket, hs, hsnd, hrcv]
  by_cases hbind : c.bind < 0
  · simp [hsocket, hs, hsnd, hrcv, hbind]
  by_cases hname : c.getsockname < 0
  · simp [hsocket, hs, hsnd, hrcv, hbind, hname]
  · exact absurd ⟨hs, not_lt.mp hsnd, not_lt.mp hrcv, not_lt.mp hbind, not_lt.mp hname⟩ h

/-- What an open that succeeds does. -/
theorem call_open_succeeded {c : Calls} (h : c.Succeed) {subscriptions : ℕ} {protocol : ℤ}
    {s t : Process} (hcall : call s (.netlinkOpen subscriptions protocol c) = some t) :
    c.malloc ∉ s.blocks ∧ c.socket ∉ s.fds ∧
      t = ⟨insert c.socket s.fds, insert c.malloc s.blocks,
        Function.update s.nl c.malloc ⟨c.socket, c.name, protocol⟩,
        insert c.malloc s.handles⟩ := by
  simp only [call, netlinkOpen_succeeded h] at hcall
  split_ifs at hcall with hfresh
  exact ⟨hfresh.1, hfresh.2 h.1, (Option.some.inj hcall).symm⟩

/-- What an open that fails does to the blocks and handles. -/
theorem call_open_failed {c : Calls} (h : ¬ c.Succeed) {subscriptions : ℕ} {protocol : ℤ}
    {s t : Process} (hcall : call s (.netlinkOpen subscriptions protocol c) = some t) :
    c.malloc ∉ s.blocks ∧ t.blocks = insert c.malloc s.blocks ∧ t.handles = s.handles := by
  obtain ⟨hnull, hblocks, -, hhandles⟩ := netlinkOpen_failed h subscriptions protocol s
  simp only [call] at hcall
  split_ifs at hcall with hfresh
  rcases hopen : netlinkOpen subscriptions protocol c s with ⟨t', r⟩
  rw [hopen] at hnull hblocks hhandles hcall
  cases hnull
  cases hcall
  exact ⟨hfresh.1, hblocks, hhandles⟩

/-- What a close does. -/
theorem call_close {nl : ℕ} {s t : Process} (hcall : call s (.netlinkClose nl) = some t) :
    nl ∈ s.handles ∧ t.blocks = s.blocks.erase nl ∧ t.handles = s.handles.erase nl ∧
      (0 ≤ (s.nl nl).fd → t.fds = s.fds.erase (s.nl nl).fd ∧
        ∀ nl', nl' ≠ nl → t.nl nl' = s.nl nl') := by
  simp only [call, netlinkClose] at hcall
  split_ifs at hcall with hmem hfd
  · cases hcall
    refine ⟨hmem, rfl, rfl, fun _ => ⟨rfl, ?_⟩⟩
    intro nl' hne
    simp [Function.update_of_ne hne]
  · cases hcall
    exact ⟨hmem, rfl, rfl, fun h => absurd h hfd⟩

/-! ### Runs -/

/-- The handles are told apart by their sockets, and nothing else is in use. -/
structure Sound (s : Process) : Prop where
  balanced : Balanced s
  fd_nonneg : ∀ nl ∈ s.handles, 0 ≤ (s.nl nl).fd
  fd_inj : Set.InjOn (fun nl => (s.nl nl).fd) s.handles

theorem Sound.open_succeeded {s t : Process} (h : Sound s) {c : Calls} (hc : c.Succeed)
    {subscriptions : ℕ} {protocol : ℤ}
    (hcall : call s (.netlinkOpen subscriptions protocol c) = some t) : Sound t := by
  obtain ⟨hblock, hsocket, rfl⟩ := call_open_succeeded hc hcall
  obtain ⟨⟨hblocks, hfds⟩, hnonneg, hinj⟩ := h
  rw [hblocks] at hblock
  -- the contents of the other blocks are as they were
  have hsame : ∀ nl ∈ s.handles,
      Function.update s.nl c.malloc ⟨c.socket, c.name, protocol⟩ nl = s.nl nl := by
    intro nl hnl
    exact Function.update_of_ne (fun heq : nl = c.malloc => hblock (heq ▸ hnl)) _ _
  have hnew : Function.update s.nl c.malloc ⟨c.socket, c.name, protocol⟩ c.malloc =
      ⟨c.socket, c.name, protocol⟩ := Function.update_self ..
  have himage : s.handles.image (fun nl =>
      (Function.update s.nl c.malloc ⟨c.socket, c.name, protocol⟩ nl).fd) = s.fds := by
    rw [hfds]
    exact Finset.image_congr fun nl hnl => by rw [hsame nl hnl]
  refine ⟨⟨congrArg (insert c.malloc) hblocks, ?_⟩, ?_, ?_⟩
  · simp only [Finset.image_insert, hnew, himage]
  · intro nl hnl
    rcases Finset.mem_insert.mp hnl with rfl | hnl
    · simpa only [hnew] using hc.1
    · simpa only [hsame nl hnl] using hnonneg nl hnl
  · rw [Finset.coe_insert, Set.injOn_insert (by simpa using hblock)]
    refine ⟨?_, ?_⟩
    · intro nl hnl nl' hnl' heq
      simp only [hsame nl hnl, hsame nl' hnl'] at heq
      exact hinj hnl hnl' heq
    · rw [← Finset.coe_image, himage]
      simpa only [hnew, Finset.mem_coe] using hsocket

theorem Sound.close {s t : Process} (h : Sound s) {nl : ℕ}
    (hcall : call s (.netlinkClose nl) = some t) : Sound t := by
  obtain ⟨hmem, hblocks, hhandles, hfd⟩ := call_close hcall
  obtain ⟨hfds, hsame⟩ := hfd (h.fd_nonneg nl hmem)
  obtain ⟨⟨hblocks', hfds'⟩, hnonneg, hinj⟩ := h
  have hother : ∀ nl' ∈ t.handles, nl' ∈ s.handles ∧ t.nl nl' = s.nl nl' := by
    intro nl' hnl'
    rw [hhandles] at hnl'
    obtain ⟨hne, hin⟩ := Finset.mem_erase.mp hnl'
    exact ⟨hin, hsame nl' hne⟩
  refine ⟨⟨by rw [hblocks, hblocks', hhandles], ?_⟩, ?_, ?_⟩
  · have himage : t.handles.image (fun nl' => (t.nl nl').fd) =
        (s.handles.erase nl).image fun nl' => (s.nl nl').fd := by
      rw [← hhandles]
      exact Finset.image_congr fun nl' hnl' => by rw [(hother nl' hnl').2]
    have hone : ({(s.nl nl).fd} : Finset ℤ) = ({nl} : Finset ℕ).image fun nl' => (s.nl nl').fd :=
      (Finset.image_singleton ..).symm
    rw [himage, hfds, hfds', Finset.erase_eq, Finset.erase_eq, hone,
      Finset.image_sdiff_of_injOn hinj (Finset.singleton_subset_iff.mpr hmem)]
  · intro nl' hnl'
    obtain ⟨hin, heq⟩ := hother nl' hnl'
    rw [heq]
    exact hnonneg nl' hin
  · intro a ha b hb heq
    obtain ⟨hain, haeq⟩ := hother a ha
    obtain ⟨hbin, hbeq⟩ := hother b hb
    simp only [haeq, hbeq] at heq
    exact hinj hain hbin heq

/-- A block without a handle. -/
def Leaked (s : Process) : Prop := ∃ b ∈ s.blocks, b ∉ s.handles

theorem Leaked.not_balanced {s : Process} (h : Leaked s) : ¬ Balanced s := by
  obtain ⟨b, hb, hno⟩ := h
  exact fun hbal => hno (hbal.1 ▸ hb)

/-- It is never freed. -/
theorem Leaked.call {s t : Process} (h : Leaked s) {a : Call} (hcall : call s a = some t) :
    Leaked t := by
  obtain ⟨b, hb, hno⟩ := h
  cases a with
  | netlinkOpen subscriptions protocol c =>
      by_cases hc : c.Succeed
      · obtain ⟨hfresh, -, rfl⟩ := call_open_succeeded hc hcall
        refine ⟨b, Finset.mem_insert_of_mem hb, ?_⟩
        rw [Finset.mem_insert, not_or]
        exact ⟨fun heq => hfresh (heq ▸ hb), hno⟩
      · obtain ⟨-, hblocks, hhandles⟩ := call_open_failed hc hcall
        exact ⟨b, hblocks ▸ Finset.mem_insert_of_mem hb, hhandles ▸ hno⟩
  | netlinkClose nl =>
      obtain ⟨hmem, hblocks, hhandles, -⟩ := call_close hcall
      have hne : b ≠ nl := fun heq => hno (heq ▸ hmem)
      refine ⟨b, hblocks ▸ Finset.mem_erase_of_ne_of_mem hne hb, ?_⟩
      rw [hhandles]
      exact fun hin => hno (Finset.mem_of_mem_erase hin)

/-- A failing open leaks its block. -/
theorem leaked_of_failed {s t : Process} (hsub : s.handles ⊆ s.blocks) {c : Calls}
    (hc : ¬ c.Succeed) {subscriptions : ℕ} {protocol : ℤ}
    (hcall : call s (.netlinkOpen subscriptions protocol c) = some t) : Leaked t := by
  obtain ⟨hfresh, hblocks, hhandles⟩ := call_open_failed hc hcall
  exact ⟨c.malloc, hblocks ▸ Finset.mem_insert_self .., hhandles ▸ fun hin => hfresh (hsub hin)⟩

/-- The handles are to blocks in use. -/
theorem handles_subset {s t : Process} (h : s.handles ⊆ s.blocks) {a : Call}
    (hcall : call s a = some t) : t.handles ⊆ t.blocks := by
  cases a with
  | netlinkOpen subscriptions protocol c =>
      by_cases hc : c.Succeed
      · obtain ⟨-, -, rfl⟩ := call_open_succeeded hc hcall
        exact Finset.insert_subset_insert _ h
      · obtain ⟨-, hblocks, hhandles⟩ := call_open_failed hc hcall
        rw [hblocks, hhandles]
        exact h.trans (Finset.subset_insert ..)
  | netlinkClose nl =>
      obtain ⟨-, hblocks, hhandles, -⟩ := call_close hcall
      rw [hblocks, hhandles]
      exact Finset.erase_subset_erase _ h

/-- What holds after every call, with the opens that failed so far. -/
structure Held (x : Process × List Calls) : Prop where
  subset : x.1.handles ⊆ x.1.blocks
  sound : x.2 = [] → Sound x.1
  leaked : x.2 ≠ [] → Leaked x.1

theorem Held.start : Held (.start, []) where
  subset := Finset.Subset.refl _
  sound _ := ⟨⟨rfl, rfl⟩, by simp [Process.start], by simp [Process.start]⟩
  leaked h := absurd rfl h

theorem Held.step {x y : Process × List Calls} (h : Held x) {a : Call}
    (hstep : logged call failed x a = some y) : Held y := by
  obtain ⟨hcall, hlog⟩ := logged_eq_some.mp hstep
  refine ⟨handles_subset h.subset hcall, ?_, ?_⟩
  · intro hnil
    obtain ⟨hx, ha⟩ := List.append_eq_nil_iff.mp (hlog ▸ hnil)
    cases a with
    | netlinkOpen subscriptions protocol c =>
        by_cases hc : c.Succeed
        · exact (h.sound hx).open_succeeded hc hcall
        · simp [failed, hc] at ha
    | netlinkClose nl => exact (h.sound hx).close hcall
  · intro hne
    by_cases hx : x.2 = []
    · cases a with
      | netlinkOpen subscriptions protocol c =>
          by_cases hc : c.Succeed
          · simp [hlog, hx, failed, hc] at hne
          · exact leaked_of_failed h.subset hc hcall
      | netlinkClose nl => simp [hlog, hx, failed] at hne
    · exact (h.leaked hx).call hcall

/-- **Handles**: after any sequence of calls the sockets and blocks in use are those of the
handles exactly when no open has failed so far. -/
theorem balanced_iff {s : Process} {log : List Calls}
    (h : Reachable (logged call failed) Always (.start, []) (s, log)) : Balanced s ↔ log = [] := by
  have hheld := h.induct (I := Held) .start fun _ _ _ _ hx _ hstep => hx.step hstep
  constructor
  · intro hbal
    by_contra hne
    exact (hheld.leaked hne).not_balanced hbal
  · exact fun hlog => (hheld.sound hlog).balanced

/-- The address cannot be bound: block 0 and socket 3 are in use, and no handle is returned. -/
def noBind : Calls := ⟨0, 3, 0, 0, 0, -1, 0, ⟨0, 0, 0⟩⟩

theorem call_noBind : call .start (.netlinkOpen 1 0 noBind) =
    some (netlinkOpen 1 0 noBind .start).1 := rfl

theorem not_balanced_noBind : ¬ ∀ s, Reachable call Always .start s → Balanced s := by
  intro h
  have hbal := h _ ((Reachable.refl Process.start).tail trivial call_noBind)
  exact absurd hbal.1 (Finset.insert_ne_empty 0 ∅)

theorem balanced_iff_noBind :
    Balanced (netlinkOpen 1 0 noBind .start).1 ↔
      [] ++ failed .start (.netlinkOpen 1 0 noBind) = [] :=
  balanced_iff ((Reachable.refl (Process.start, [])).tail_logged trivial call_noBind)

end Hspp.Socket
