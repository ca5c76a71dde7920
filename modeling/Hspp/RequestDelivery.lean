import Hspp.Lib.Feed
import Hspp.Request

/-! # What `netlink_listen` delivers

A run is a list of events: a datagram of padded messages, a failure of `recvmsg`, the end of
file.  `planned` lists the calls the events give rise to, whatever the handler answers: for
every datagram received before the first end of file or fatal failure, one call for each
message, in order, with the start of that message (`planned_messages`).  `netlinkListen`
hands exactly these calls to the handler, up to the first negative answer
(`netlinkListen_delivers`). -/

namespace Hspp

open CInt Feed Loop Memory Records

variable {σ : Type*} {handler : Handler σ}

/-! ### Events -/

/-- A datagram: padded messages that fit the receive buffer, at least one. -/
structure Datagram where
  msgs : List Message
  nonempty : msgs ≠ []
  fits : (encode msgs).length ≤ 16384

/-- What `recvmsg` may report, apart from truncated and malformed datagrams. -/
inductive Event where
  | datagram (d : Datagram)
  | fail (errno : Errno)
  | eof

/-- The result of `recvmsg` that reports an event. -/
def Event.toRecv : Event → Recv
  | datagram d => .data (encode d.msgs) false
  | fail errno => .fail errno
  | eof => .data [] false

/-- The calls for the messages of a datagram that is stored at `o`. -/
def msgCalls (buf : Mem) (o : ℕ) (ms : List Message) : List Call := (starts o ms).map (buf, ·)

/-- The calls that the events give rise to, with the buffer each of them sees. -/
def planned : Mem → List Event → List Call
  | _, [] => []
  | buf, .datagram d :: es =>
      msgCalls (write buf 0 (encode d.msgs)) 0 d.msgs ++ planned (write buf 0 (encode d.msgs)) es
  | buf, .fail errno :: es =>
      if errno = .EINTR ∨ errno = .EAGAIN ∨ errno = .ENOBUFS then planned buf es else []
  | _, .eof :: _ => []

/-- The messages received before the first end of file or fatal failure. -/
def received : List Event → List Message
  | [] => []
  | .datagram d :: es => d.msgs ++ received es
  | .fail errno :: es =>
      if errno = .EINTR ∨ errno = .EAGAIN ∨ errno = .ENOBUFS then received es else []
  | .eof :: _ => []

/-- How the function ends when the handler lets it: by `return -1` at the first end of file
or fatal failure, else waiting for the next datagram. -/
def endOf : List Event → Ending
  | [] => .blocked
  | .datagram _ :: es => endOf es
  | .fail errno :: es =>
      if errno = .EINTR ∨ errno = .EAGAIN ∨ errno = .ENOBUFS then endOf es else .ret (-1)
  | .eof :: _ => .ret (-1)

/-- The handler as a consumer of calls; a negative value ends the feeding. -/
def take (handler : Handler σ) (st : σ) (c : Call) : σ × ℤ := handler st c.1 c.2

/-- Handing the calls to the handler in order. -/
def deliver (handler : Handler σ) (st : σ) (cs : List Call) : Fed σ Call ℤ :=
  feed (take handler) (· < 0) st cs

/-- The end of a run in which the handler was fed, and `ending` is left to happen. -/
def outcomeOf (calls : List Call) (r : Fed σ Call ℤ) (ending : Ending) : Outcome σ :=
  ⟨r.halt.elim ending .ret, r.st, calls ++ r.taken⟩

/-- Each planned call is at the start of its message. -/
theorem planned_messages : ∀ (es : List Event) (buf : Mem),
    List.Forall₂ (fun c m => Holds c.1 c.2 m.bytes) (planned buf es) (received es) := by
  have hmsgs : ∀ (ms : List Message) (buf : Mem) (o : ℕ), Holds buf o (encode ms) →
      List.Forall₂ (fun (c : Call) m => Holds c.1 c.2 m.bytes) (msgCalls buf o ms) ms := by
    intro ms buf
    induction ms with
    | nil => exact fun _ _ => .nil
    | cons m ms ih =>
        intro o h
        rw [holds_encode_cons] at h
        exact .cons (Record.holds_bytes h.1) (ih _ h.2)
  intro es
  induction es with
  | nil => exact fun _ => .nil
  | cons e es ih =>
      intro buf
      cases e with
      | datagram d => exact List.rel_append (hmsgs d.msgs _ 0 (holds_write _ _ _)) (ih _)
      | fail errno =>
          rw [planned, received]
          split_ifs
          · exact ih buf
          · exact .nil
      | eof => exact .nil

/-! ### One datagram -/

/-- The messages of a stream that lie in its first `n` bytes; the padding of the last one may
not. -/
def contained : ℕ → List Message → List Message
  | _, [] => []
  | n, m :: ms =>
      if m.bytes.length ≤ n then m :: contained (n - roundUp 4 m.bytes.length) ms else []

theorem contained_length_encode : ∀ ms : List Message, contained (encode ms).length ms = ms
  | [] => rfl
  | m :: ms => by
      have hle := le_roundUp (a := 4) (by norm_num) m.bytes.length
      rw [length_encode_cons, contained, if_pos (by omega), Nat.add_sub_cancel_left,
        contained_length_encode ms]

@[simp] theorem contained_zero (ms : List Message) : contained 0 ms = [] := by
  cases ms with
  | nil => rfl
  | cons m ms =>
      have h16 := m.hdr_le
      exact if_neg (by omega)

/-- They and their padding are at most the padding longer. -/
theorem length_contained_lt : ∀ (ms : List Message) (n : ℕ),
    (encode (contained n ms)).length < n + 4
  | [], n => by
      rw [contained, encode_nil, List.length_nil]
      omega
  | m :: ms, n => by
      have hlt := roundUp_lt (a := 4) (by norm_num) m.bytes.length
      rw [contained]
      split_ifs with h
      · rw [length_encode_cons]
        obtain hcut | hfit := Nat.lt_or_ge n (roundUp 4 m.bytes.length)
        · rw [Nat.sub_eq_zero_of_le hcut.le, contained_zero, encode_nil, List.length_nil]
          omega
        · have ih := length_contained_lt ms (n - roundUp 4 m.bytes.length)
          omega
      · rw [encode_nil, List.length_nil]
        omega

/-- The first message of a stream of which the first `n` bytes are stored, and what is stored
behind it. -/
theorem holds_take_encode_cons {buf : Mem} {o n : ℕ} {m : Message} {ms : List Message}
    (hm : m.bytes.length ≤ n) (h : Holds buf o ((encode (m :: ms)).take n)) :
    Holds buf o m.bytes ∧ Holds buf (o + roundUp 4 m.bytes.length)
      ((encode ms).take (n - roundUp 4 m.bytes.length)) := by
  rw [encode_cons, Record.padded, List.append_assoc, List.take_append, List.take_of_length_le hm,
    holds_append] at h
  refine ⟨h.1, ?_⟩
  have hpad := m.pad_len
  rw [← hpad, ← Nat.add_assoc, ← Nat.sub_sub]
  obtain hlt | hge := Nat.lt_or_ge (n - m.bytes.length) m.pad.length
  · rw [Nat.sub_eq_zero_of_le hlt.le, List.take_zero]
    exact holds_nil _ _
  · rw [List.take_append, List.take_of_length_le hge, holds_append] at h
    exact h.2.2

/-- Through the messages that are contained in what is left: either a call stops the function,
or it goes on behind the last of them, with less than nothing left if its padding is cut. -/
theorem netlinkListen_contained (handler : Handler σ) (buf : Mem) (pending : List Recv)
    (trunc : Bool) : ∀ (ms : List Message) (status : ℤ) (o : ℕ) (st : σ) (calls : List Call),
    Holds buf o ((encode ms).take status.toNat) → status ≤ 16384 →
    match (deliver handler st (msgCalls buf o (contained status.toNat ms))).halt with
    | some err => Exits (netlinkListen handler) (.msgs buf pending trunc ⟨o, status, st, calls⟩)
        (outcomeOf calls (deliver handler st (msgCalls buf o (contained status.toNat ms)))
          (.ret err))
    | none => Reaches (netlinkListen handler) (.msgs buf pending trunc ⟨o, status, st, calls⟩)
        (.msgs buf pending trunc ⟨o + (encode (contained status.toNat ms)).length,
          status - (encode (contained status.toNat ms)).length,
          (deliver handler st (msgCalls buf o (contained status.toNat ms))).st,
          calls ++ msgCalls buf o (contained status.toNat ms)⟩)
  | [], status, o, st, calls, _, _ => by
      simp only [contained, msgCalls, starts_nil, List.map_nil, deliver, feed_nil, List.append_nil,
        encode_nil, List.length_nil, Nat.add_zero, Nat.cast_zero, sub_zero]
      exact .refl _
  | m :: ms, status, o, st, calls, hmem, hle => by
      by_cases hm : m.bytes.length ≤ status.toNat
      swap
      · simp only [contained, if_neg hm, msgCalls, starts_nil, List.map_nil, deliver, feed_nil,
          List.append_nil, encode_nil, List.length_nil, Nat.add_zero, Nat.cast_zero, sub_zero]
        exact .refl _
      have h16 := m.hdr_le
      obtain ⟨n, rfl⟩ := Int.eq_ofNat_of_zero_le (show 0 ≤ status by omega)
      rw [Int.toNat_natCast] at hm hmem ⊢
      obtain ⟨hfirst, hrest⟩ := holds_take_encode_cons hm hmem
      have hnl := Message.nlmsgLen_eq hfirst
      have hg : msgGuard (n : ℤ) := (msgGuard_iff (by omega) (by omega)).mpr (.inr (by omega))
      simp only [contained, if_pos hm, msgCalls, starts_cons, List.map_cons, deliver]
      by_cases herr : (take handler st (buf, o)).2 < 0
      · rw [feed_cons_of_halts herr]
        refine .single ?_
        rw [netlinkListen, msgLoop_stopped handler buf ⟨o, n, st, calls⟩ hg herr]
        rfl
      · rw [feed_cons_of_not herr]
        have hstep := msgLoop_next handler buf ⟨o, n, st, calls⟩ hg herr
        rw [msgNext_of_le _ (by omega) (by omega), hnl] at hstep
        have hone : netlinkListen handler (.msgs buf pending trunc ⟨o, n, st, calls⟩) =
            .inl (.msgs buf pending trunc ⟨o + roundUp 4 m.bytes.length,
              n - roundUp 4 m.bytes.length, (handler st buf o).1, calls ++ [(buf, o)]⟩) := by
          rw [netlinkListen, hstep]
        have hleft : ((n : ℤ) - roundUp 4 m.bytes.length).toNat = n - roundUp 4 m.bytes.length := by
          omega
        have ih := netlinkListen_contained handler buf pending trunc ms
          (n - roundUp 4 m.bytes.length) (o + roundUp 4 m.bytes.length) (handler st buf o).1
          (calls ++ [(buf, o)]) (by rwa [hleft]) (by omega)
        rw [hleft] at ih
        simp only [deliver, msgCalls, outcomeOf, take, List.append_assoc,
          List.singleton_append] at ih ⊢
        rw [length_encode_cons, Nat.cast_add, ← sub_sub, ← Nat.add_assoc]
        cases hhalt : (feed (take handler) (· < 0) (handler st buf o).1
            ((starts (o + roundUp 4 m.bytes.length)
              (contained (n - roundUp 4 m.bytes.length) ms)).map (buf, ·))).halt with
        | some err =>
            simp only [hhalt] at ih ⊢
            exact .step hone ih
        | none =>
            simp only [hhalt] at ih ⊢
            exact (Reaches.single hone).trans ih

/-- Through the messages of a datagram: either a call stops the function, or the bytes are
used up exactly and the next step is `recvmsg`. -/
theorem netlinkListen_msgs (handler : Handler σ) (buf : Mem) (pending : List Recv)
    (ms : List Message) (o : ℕ) (st : σ) (calls : List Call) (hmem : Holds buf o (encode ms))
    (hlen : (encode ms).length ≤ 16384) :
    match (deliver handler st (msgCalls buf o ms)).halt with
    | some err => Exits (netlinkListen handler)
        (.msgs buf pending false ⟨o, (encode ms).length, st, calls⟩)
        (outcomeOf calls (deliver handler st (msgCalls buf o ms)) (.ret err))
    | none => Reaches (netlinkListen handler)
        (.msgs buf pending false ⟨o, (encode ms).length, st, calls⟩)
        (.recv buf pending (deliver handler st (msgCalls buf o ms)).st
          (calls ++ msgCalls buf o ms)) := by
  have hall := netlinkListen_contained handler buf pending false ms (encode ms).length o st calls
    (by rwa [Int.toNat_natCast, List.take_length]) (by omega)
  rw [Int.toNat_natCast, contained_length_encode, sub_self] at hall
  cases hhalt : (deliver handler st (msgCalls buf o ms)).halt with
  | some err => simpa only [hhalt] using hall
  | none =>
      simp only [hhalt] at hall
      have hg : ¬ msgGuard 0 := by decide
      refine hall.trans (.single ?_)
      rw [netlinkListen, msgLoop_drained handler buf _ hg]
      rfl

/-! ### The whole run -/

/-- The run from `recvmsg` on, with the calls made before it. -/
theorem netlinkListen_run : ∀ (es : List Event) (buf : Mem) (st : σ) (calls : List Call),
    Exits (netlinkListen handler) (.recv buf (es.map Event.toRecv) st calls)
      (outcomeOf calls (deliver handler st (planned buf es)) (endOf es))
  | [], buf, st, calls => by
      refine .single ?_
      simp [netlinkListen, outcomeOf, deliver, planned, endOf]
  | .eof :: es, buf, st, calls => by
      refine .single ?_
      simp [netlinkListen, outcomeOf, deliver, planned, endOf, Event.toRecv]
  | .fail errno :: es, buf, st, calls => by
      rw [planned, endOf, List.map_cons, Event.toRecv]
      by_cases h : errno = .EINTR ∨ errno = .EAGAIN ∨ errno = .ENOBUFS
      · have hretries : errno.Retries := h
        rw [if_pos h, if_pos h]
        refine .step ?_ (netlinkListen_run es buf st calls)
        rw [netlinkListen, if_pos hretries]
      · have hfails : ¬ errno.Retries := h
        rw [if_neg h, if_neg h]
        refine .single ?_
        rw [netlinkListen, if_neg hfails]
        simp [outcomeOf, deliver]
  | .datagram d :: es, buf, st, calls => by
      have hpos : (encode d.msgs).length ≠ 0 := by
        obtain ⟨m, ms, hms⟩ := List.exists_cons_of_ne_nil d.nonempty
        have := m.hdr_le_roundUp (by norm_num)
        rw [hms, length_encode_cons]
        omega
      have hone : netlinkListen handler
          (.recv buf ((Event.datagram d :: es).map Event.toRecv) st calls) =
          .inl (.msgs (write buf 0 (encode d.msgs)) (es.map Event.toRecv) false
            ⟨0, (encode d.msgs).length, st, calls⟩) := by
        rw [List.map_cons, Event.toRecv, netlinkListen, if_neg hpos]
      have hmsgs := netlinkListen_msgs handler _ (es.map Event.toRecv) d.msgs 0 st calls
        (holds_write buf 0 _) d.fits
      refine .step hone ?_
      rw [planned, endOf]
      set buf' := write buf 0 (encode d.msgs)
      cases hhalt : (deliver handler st (msgCalls buf' 0 d.msgs)).halt with
      | some err =>
          rw [hhalt] at hmsgs
          have happ := feed_append_of_some (planned buf' es) _ _ hhalt
          simp only [deliver, outcomeOf] at hhalt hmsgs ⊢
          rw [happ, hhalt]
          simpa only [hhalt, Option.elim] using hmsgs
      | none =>
          rw [hhalt] at hmsgs
          have happ := feed_append_of_none (planned buf' es) _ _ hhalt
          have ih := netlinkListen_run es buf' (deliver handler st (msgCalls buf' 0 d.msgs)).st
            (calls ++ msgCalls buf' 0 d.msgs)
          refine .of_reaches hmsgs ?_
          simp only [deliver, outcomeOf] at ih ⊢
          rw [happ]
          simpa only [List.append_assoc] using ih

/-- **Delivery**: for every run of events and every handler, the calls made are the planned
ones, one for each message received, in order and at its start, up to the first negative
answer.  The function returns that answer, or ends as the events say; the `exit` for a
remnant is not reached. -/
theorem netlinkListen_delivers (handler : Handler σ) (buf : Mem) (st : σ) (es : List Event) :
    ∃ x, Exits (netlinkListen handler) (.recv buf (es.map Event.toRecv) st []) x ∧
      x.calls = (deliver handler st (planned buf es)).taken ∧
      x.ending = (deliver handler st (planned buf es)).halt.elim (endOf es) .ret ∧
      x.ending ≠ .exit 1 ∧
      List.Forall₂ (fun c m => Holds c.1 c.2 m.bytes) (planned buf es) (received es) := by
  refine ⟨_, netlinkListen_run es buf st [], rfl, rfl, ?_, planned_messages es buf⟩
  have hend : ∀ es, endOf es ≠ .exit 1 := by
    intro es
    induction es with
    | nil => decide
    | cons e es ih =>
        cases e with
        | datagram d => exact ih
        | fail errno =>
            rw [endOf]
            split_ifs
            · exact ih
            · decide
        | eof => exact fun h => Ending.noConfusion h
  unfold outcomeOf
  cases (deliver handler st (planned buf es)).halt with
  | none => exact hend es
  | some err => simp

end Hspp
