import Hspp.RequestDelivery

/-! # Truncated datagrams in `netlink_listen`

The kernel cuts a datagram that does not fit the buffer and says so with `MSG_TRUNC`, which
the function looks at after the inner loop.  The loop knows nothing of it: it hands over what
has a whole header, and a padding that is cut sends `status` below zero, which its condition
lets through.  So the function gets over the cut when a handler stops it before, or when the
messages end with their padding and less than a header is left (`recovers_iff`). -/

namespace Hspp

open CInt Feed Loop Memory Records

variable {σ : Type*} {handler : Handler σ}

/-- A datagram that the kernel cuts: its messages, and how many bytes of them are received. -/
structure CutDatagram where
  msgs : List Message
  received : ℕ
  fits : received ≤ 16384
  cut : received < (encode msgs).length

/-- The bytes received. -/
def CutDatagram.bytes (d : CutDatagram) : List UInt8 := (encode d.msgs).take d.received

/-- The messages that are wholly received. -/
def CutDatagram.whole (d : CutDatagram) : List Message := contained d.received d.msgs

def CutDatagram.toRecv (d : CutDatagram) : Recv := .data d.bytes true

/-- What the handler makes of the messages that are wholly received. -/
def CutDatagram.fed (d : CutDatagram) (handler : Handler σ) (buf : Mem) (st : σ) : Fed σ Call ℤ :=
  deliver handler st (msgCalls (write buf 0 d.bytes) 0 d.whole)

/-- The messages that are wholly received are handed over, in order.  If the handler lets it,
the function goes on to the next `recvmsg` and delivers the datagrams that follow. -/
def Recovers (handler : Handler σ) (buf : Mem) (st : σ) (calls : List Call) (d : CutDatagram)
    (es : List Event) : Prop :=
  let start := .recv buf (d.toRecv :: es.map Event.toRecv) st calls
  let fed := d.fed handler buf st
  match fed.halt with
  | some err => Exits (netlinkListen handler) start ⟨.ret err, fed.st, calls ++ fed.taken⟩
  | none =>
      Reaches (netlinkListen handler) start
          (.recv (write buf 0 d.bytes) (es.map Event.toRecv) fed.st (calls ++ fed.taken)) ∧
        Exits (netlinkListen handler) start
          (outcomeOf (calls ++ fed.taken)
            (deliver handler fed.st (planned (write buf 0 d.bytes) es)) (endOf es))

theorem CutDatagram.length_bytes (d : CutDatagram) : d.bytes.length = d.received := by
  rw [bytes, List.length_take, Nat.min_eq_left d.cut.le]

/-! ### Progress of a run -/

/-- The calls made so far. -/
def Listen.calls : Listen σ → List Call
  | .recv _ _ _ calls => calls
  | .msgs _ _ _ s => s.calls

/-- The results of `recvmsg` that are left. -/
def Listen.pending : Listen σ → List Recv
  | .recv _ pending _ _ => pending
  | .msgs _ pending _ _ => pending

/-- A `recvmsg` takes a result. -/
theorem netlinkListen_recv_progress {buf : Mem} {pending : List Recv} {st : σ} {calls : List Call}
    {t : Listen σ} (h : netlinkListen handler (.recv buf pending st calls) = .inl t) :
    t.calls = calls ∧ t.pending.length < pending.length := by
  cases pending with
  | nil => cases h
  | cons r pending =>
      cases r with
      | fail errno =>
          rw [netlinkListen] at h
          split_ifs at h
          cases h
          exact ⟨rfl, Nat.lt_succ_self _⟩
      | data bytes trunc =>
          rw [netlinkListen] at h
          split_ifs at h
          cases h
          exact ⟨rfl, Nat.lt_succ_self _⟩

/-- A round of the inner loop takes no result, and makes a call or leaves the loop. -/
theorem netlinkListen_msgs_progress {buf : Mem} {pending : List Recv} {trunc : Bool}
    {s : MsgLoop σ} {t : Listen σ}
    (h : netlinkListen handler (.msgs buf pending trunc s) = .inl t) :
    t.pending = pending ∧ (msgGuard s.status → t.calls = s.calls ++ [(buf, s.h)]) ∧
      (¬ msgGuard s.status → t.calls = s.calls) := by
  rw [netlinkListen] at h
  by_cases hg : msgGuard s.status
  · by_cases herr : (handler s.st buf s.h).2 < 0
    · rw [msgLoop_stopped handler buf s hg herr] at h
      cases h
    · rw [msgLoop_next handler buf s hg herr] at h
      cases h
      exact ⟨rfl, fun _ => rfl, fun hno => absurd hg hno⟩
  · rw [msgLoop_drained handler buf s hg] at h
    dsimp only at h
    split_ifs at h with htrunc hstatus <;> cases h <;>
      exact ⟨rfl, fun hyes => absurd hyes hg, fun _ => rfl⟩

/-- Along a run calls are made and results are taken. -/
theorem reaches_progress {s t : Listen σ} (h : Reaches (netlinkListen handler) s t) :
    s.calls.length ≤ t.calls.length ∧ t.pending.length ≤ s.pending.length := by
  refine h.rel (P := fun s t => s.calls.length ≤ t.calls.length ∧
    t.pending.length ≤ s.pending.length) (fun _ => ⟨le_rfl, le_rfl⟩) ?_
  intro s t u hst ⟨hcalls, hpending⟩
  cases s with
  | recv buf pending st calls =>
      obtain ⟨hsame, hlt⟩ := netlinkListen_recv_progress hst
      rw [hsame] at hcalls
      exact ⟨hcalls, hpending.trans hlt.le⟩
  | msgs buf pending trunc s =>
      obtain ⟨hsame, hcall, hnone⟩ := netlinkListen_msgs_progress hst
      rw [hsame] at hpending
      refine ⟨le_trans ?_ hcalls, hpending⟩
      by_cases hg : msgGuard s.status
      · rw [hcall hg, List.length_append]
        exact Nat.le_add_right _ _
      · rw [hnone hg]
        exact le_rfl

/-- From inside the loop, with its condition true, no state before a `recvmsg` is reached in
which no further call was made. -/
theorem not_reaches_of_msgGuard {buf buf' : Mem} {pending : List Recv} {trunc : Bool}
    {s : MsgLoop σ} {st : σ} (hg : msgGuard s.status) :
    ¬ Reaches (netlinkListen handler) (.msgs buf pending trunc s)
      (.recv buf' pending st s.calls) := by
  intro h
  rcases h.cases_head with h | ⟨t, ht, hreach⟩
  · cases h
  · have hcalls := (reaches_progress hreach).1
    rw [(netlinkListen_msgs_progress ht).2.1 hg, List.length_append] at hcalls
    exact absurd hcalls (Nat.not_succ_le_self _)

/-- And such a state is not on the way to the loop. -/
theorem not_reaches_msgs {buf buf' : Mem} {pending : List Recv} {trunc : Bool} {s : MsgLoop σ}
    {st : σ} {calls : List Call} : ¬ Reaches (netlinkListen handler)
      (.recv buf' pending st calls) (.msgs buf pending trunc s) := by
  intro h
  rcases h.cases_head with h | ⟨t, ht, hreach⟩
  · cases h
  · have hlt := (netlinkListen_recv_progress ht).2
    have hle := (reaches_progress hreach).2
    exact absurd hle (Nat.not_le.mpr hlt)

/-! ### Getting over the cut -/

variable (handler) in
/-- After a cut datagram, either a message that is wholly received stops the function, or the
inner loop comes to the end of those messages. -/
theorem netlinkListen_cut (buf : Mem) (pending : List Recv) (st : σ) (calls : List Call)
    (d : CutDatagram) (hpos : d.received ≠ 0) :
    match (d.fed handler buf st).halt with
    | some err => Exits (netlinkListen handler) (.recv buf (d.toRecv :: pending) st calls)
        ⟨.ret err, (d.fed handler buf st).st, calls ++ (d.fed handler buf st).taken⟩
    | none => Reaches (netlinkListen handler) (.recv buf (d.toRecv :: pending) st calls)
        (.msgs (write buf 0 d.bytes) pending true ⟨(encode d.whole).length,
          d.received - (encode d.whole).length, (d.fed handler buf st).st,
          calls ++ (d.fed handler buf st).taken⟩) := by
  have hfits := d.fits
  have hone : netlinkListen handler (.recv buf (d.toRecv :: pending) st calls) =
      .inl (.msgs (write buf 0 d.bytes) pending true ⟨0, d.received, st, calls⟩) := by
    rw [CutDatagram.toRecv, netlinkListen, d.length_bytes, if_neg hpos]
  have hcont := netlinkListen_contained handler (write buf 0 d.bytes) pending true d.msgs
    d.received 0 st calls (holds_write buf 0 _) (by omega)
  rw [Int.toNat_natCast] at hcont
  have hfed : deliver handler st (msgCalls (write buf 0 d.bytes) 0 (contained d.received d.msgs)) =
    d.fed handler buf st := rfl
  rw [hfed] at hcont
  cases hhalt : (d.fed handler buf st).halt with
  | some err =>
      simp only [hhalt, outcomeOf, Option.elim] at hcont ⊢
      exact .step hone hcont
  | none =>
      have htaken : (d.fed handler buf st).taken = msgCalls (write buf 0 d.bytes) 0 d.whole :=
        taken_of_halt_none hhalt
      simp only [hhalt, Nat.zero_add] at hcont ⊢
      rw [htaken]
      exact (Reaches.single hone).trans hcont

/-- It does not get over a cut at which the condition of the inner loop is still true. -/
theorem not_recovers_of_msgGuard {buf : Mem} {st : σ} {calls : List Call} {d : CutDatagram}
    {es : List Event} (hpos : d.received ≠ 0) (hhalt : (d.fed handler buf st).halt = none)
    (hg : msgGuard ((d.received : ℤ) - (encode d.whole).length)) :
    ¬ Recovers handler buf st calls d es := by
  have hcut := netlinkListen_cut handler buf (es.map Event.toRecv) st calls d hpos
  unfold Recovers
  simp only [hhalt] at hcut ⊢
  rintro ⟨hreach, -⟩
  rcases hreach.total hcut with h | h
  · exact not_reaches_msgs h
  · exact not_reaches_of_msgGuard (s := ⟨_, _, _, _⟩) hg h

/-- **Truncation**: the function hands over the messages that are wholly received and gets over
the cut exactly when something is received and a handler stops it at one of these messages,
or the last of them has its padding and less than a header follows. -/
theorem recovers_iff (handler : Handler σ) (buf : Mem) (st : σ) (calls : List Call)
    (d : CutDatagram) (es : List Event) :
    Recovers handler buf st calls d es ↔ d.received ≠ 0 ∧
      ((d.fed handler buf st).halt ≠ none ∨ (encode d.whole).length ≤ d.received ∧
        d.received < (encode d.whole).length + 16) := by
  have hfits := d.fits
  by_cases hpos : d.received = 0
  · -- no bytes are the end of file
    refine iff_of_false ?_ fun h => h.1 hpos
    have hnone : (d.fed handler buf st).halt = none := by
      rw [CutDatagram.fed, CutDatagram.whole, hpos, contained_zero]
      rfl
    unfold Recovers
    simp only [hnone]
    rintro ⟨hreach, -⟩
    rcases hreach.cases_head with h | ⟨t, ht, -⟩
    · have hlen := congrArg (fun s => s.pending.length) h
      simp [Listen.pending] at hlen
    · rw [CutDatagram.toRecv, netlinkListen, d.length_bytes, if_pos hpos] at ht
      cases ht
  · rw [and_iff_right hpos]
    have hwhole : (encode d.whole).length < d.received + 4 := length_contained_lt d.msgs d.received
    have hcut := netlinkListen_cut handler buf (es.map Event.toRecv) st calls d hpos
    cases hhalt : (d.fed handler buf st).halt with
    | some err =>
        unfold Recovers
        simp only [hhalt] at hcut ⊢
        exact iff_of_true hcut (.inl (Option.some_ne_none err))
    | none =>
        rw [or_iff_right (fun h => h rfl)]
        constructor
        · intro hrecovers
          by_contra hno
          refine not_recovers_of_msgGuard hpos hhalt ?_ hrecovers
          rw [msgGuard_iff (by omega) (by omega)]
          omega
        · rintro ⟨hle, hlt⟩
          unfold Recovers
          simp only [hhalt] at hcut ⊢
          have hg : ¬ msgGuard ((d.received : ℤ) - (encode d.whole).length) := by
            rw [msgGuard_iff (by omega) (by omega)]
            omega
          have hrecv : Reaches (netlinkListen handler)
              (.recv buf (d.toRecv :: es.map Event.toRecv) st calls)
              (.recv (write buf 0 d.bytes) (es.map Event.toRecv) (d.fed handler buf st).st
                (calls ++ (d.fed handler buf st).taken)) := by
            refine hcut.trans (.single ?_)
            rw [netlinkListen, msgLoop_drained handler _ _ hg]
            rfl
          exact ⟨hrecv, .of_reaches hrecv (netlinkListen_run es _ _ _)⟩

/-- A message of 32 bytes of which 20 are received. -/
def cutMessage : CutDatagram where
  msgs := [⟨[32, 0, 0, 0, 16, 0] ++ List.replicate 26 0, [], by decide, by decide, by decide⟩]
  received := 20
  fits := by decide
  cut := by decide

theorem not_recovers_cutMessage :
    ¬ Recovers (fun (_ : Unit) _ _ => ((), 0)) (fun _ => 0) () [] cutMessage [] := by
  -- the header is whole, so the message is handed over
  apply not_recovers_of_msgGuard (by decide) rfl
  decide

end Hspp
