import Hspp.Request

/-! # What the inner loop of `netlink_listen` reads, and when it ends

The loop checks neither that a length covers the header nor that it fits what is left, and
its condition lets a negative `status` through.  So

* every header it looks at and every message it hands over lies inside the datagram
  exactly for the datagrams that are cut into padded messages, up to the message at which
  the handler stops (`msgLoop_inBounds_iff`);
* it ends within `n / 4` calls, whatever follows the datagram in memory, exactly when the
  datagram is cut into blocks whose first word, rounded up, is their own size
  (`msgLoop_terminates_iff`): a length of `0`, or one from `2 ^ 32 - 3` on, goes round on
  the spot for ever, and one that is too large sends `status` below zero. -/

namespace Hspp

open CInt Loop Memory Records

variable {σ : Type*} {handler : Handler σ} {buf : Mem}

/-! ### Reading inside the datagram -/

/-- The inner loop, started on a datagram of `n` bytes, reads the header at `o` and hands
the message there to the handler. -/
def Touches (handler : Handler σ) (buf : Mem) (n : ℕ) (st : σ) (o : ℕ) : Prop :=
  ∃ s, Reaches (msgLoop handler buf) ⟨0, n, st, []⟩ s ∧ msgGuard s.status ∧ s.h = o

/-- The message at `o` covers its header and ends inside the first `n` bytes. -/
def InBounds (buf : Mem) (n o : ℕ) : Prop := 16 ≤ nlmsgLen buf o ∧ o + nlmsgLen buf o ≤ n

/-- Handed the messages at these offsets in turn, the handler returns a negative value for
one of them. -/
def Stops (handler : Handler σ) (buf : Mem) : σ → List ℕ → Prop
  | _, [] => False
  | st, o :: os => (handler st buf o).2 < 0 ∨ Stops handler buf (handler st buf o).1 os

/-- The `r` bytes at `o` are padded messages followed by less than a header, or they are
padded messages up to one that lies in them and at which, at the latest, the handler
stops. -/
def Delimited (handler : Handler σ) (buf : Mem) (o r : ℕ) (st : σ) : Prop :=
  ∃ (ms : List Message) (tail : List UInt8), bytesAt buf o r = encode ms ++ tail ∧
    (tail.length < 16 ∨
      ∃ last : Message, last.bytes <+: tail ∧ Stops handler buf st (starts o (ms ++ [last])))

/-- The message that the loop finds at `o`. -/
def messageAt (buf : Mem) (o : ℕ) (h : 16 ≤ nlmsgLen buf o) : Message :=
  ofMem buf o (by norm_num) (by norm_num) h

theorem messageAt_padded {o : ℕ} (h : 16 ≤ nlmsgLen buf o) :
    (messageAt buf o h).padded = bytesAt buf o (roundUp 4 (nlmsgLen buf o)) :=
  ofMem_padded _ _ _ _ _

theorem messageAt_length {o : ℕ} (h : 16 ≤ nlmsgLen buf o) :
    (messageAt buf o h).bytes.length = nlmsgLen buf o :=
  ofMem_length _ _ _ _ _

/-- A start whose first round leaves the loop reaches no other state. -/
theorem reaches_of_inr {s s' : MsgLoop σ} {x : MsgExit σ} (hx : msgLoop handler buf s = .inr x)
    (h : Reaches (msgLoop handler buf) s s') : s' = s := by
  rcases h.cases_head with rfl | ⟨t, ht, _⟩
  · rfl
  · rw [hx] at ht
    cases ht

/-- From an in-bounds loop to the messages: at each offset the loop's own bound gives the
next message, and a padding that does not fit would be followed by a read past the end. -/
theorem delimited_of_inBounds {n : ℕ} (hn : n ≤ 16384) (r : ℕ) : ∀ (o : ℕ) (st : σ)
    (calls : List Call), o + r = n →
    (∀ s, Reaches (msgLoop handler buf) ⟨o, r, st, calls⟩ s → msgGuard s.status →
      InBounds buf n s.h) → Delimited handler buf o r st := by
  induction r using Nat.strong_induction_on with
  | _ r ih =>
      intro o st calls hor hin
      obtain hr | hr := Nat.lt_or_ge r 16
      · exact ⟨[], bytesAt buf o r, rfl, .inl (by rwa [length_bytesAt])⟩
      have hg : msgGuard (r : ℤ) := (msgGuard_iff (by omega) (by omega)).mpr (.inr (by omega))
      obtain ⟨h16, hle⟩ := hin _ (.refl _) hg
      simp only at h16 hle
      by_cases herr : (handler st buf o).2 < 0
      · refine ⟨[], bytesAt buf o r, rfl, .inr ⟨messageAt buf o h16, ?_, .inl herr⟩⟩
        obtain ⟨d, rfl⟩ := Nat.exists_eq_add_of_le (show nlmsgLen buf o ≤ r by omega)
        rw [bytesAt_add]
        exact List.prefix_append _ _
      have hstep := msgLoop_next handler buf ⟨o, r, st, calls⟩ hg herr
      rw [msgNext_of_le _ (by omega) (by omega)] at hstep
      have hlt := roundUp_lt (a := 4) (by norm_num) (nlmsgLen buf o)
      have hge := le_roundUp (a := 4) (by norm_num) (nlmsgLen buf o)
      obtain hpad | hpad := Nat.lt_or_ge r (roundUp 4 (nlmsgLen buf o))
      · have hg' : msgGuard ((r : ℤ) - roundUp 4 (nlmsgLen buf o)) :=
          (msgGuard_iff (by omega) (by omega)).mpr (.inl (by omega))
        have hout := hin _ (.single hstep) hg'
        simp only [InBounds] at hout
        omega
      · rw [← Nat.cast_sub hpad] at hstep
        obtain ⟨ms, tail, hbytes, htail⟩ := ih _ (by omega) _ _ _ (by omega)
          fun s hs => hin s ((Reaches.single hstep).trans hs)
        refine ⟨messageAt buf o h16 :: ms, tail, ?_, htail.imp_right ?_⟩
        · rw [encode_cons, messageAt_padded, List.append_assoc, ← hbytes, ← bytesAt_add,
            Nat.add_sub_cancel' hpad]
        · rintro ⟨last, hlast, hstops⟩
          refine ⟨last, hlast, .inr ?_⟩
          rwa [List.append_eq, messageAt_length]

/-- From the messages to an in-bounds loop, along the messages. -/
theorem inBounds_of_delimited {n : ℕ} (hn : n ≤ 16384) : ∀ (ms : List Message) (o r : ℕ) (st : σ)
    (calls : List Call) (tail : List UInt8), o + r = n → bytesAt buf o r = encode ms ++ tail →
    (tail.length < 16 ∨ ∃ last : Message, last.bytes <+: tail ∧
      Stops handler buf st (starts o (ms ++ [last]))) →
    ∀ s, Reaches (msgLoop handler buf) ⟨o, r, st, calls⟩ s → msgGuard s.status →
      InBounds buf n s.h
  | [], o, r, st, calls, tail, hor, hbytes, htail, s, hs, hg => by
      have hlen := congrArg List.length hbytes
      rw [length_bytesAt, encode_nil, List.nil_append] at hlen
      rcases htail with htail | ⟨last, ⟨rest, rfl⟩, hstops⟩
      · have hdone : ¬ msgGuard (r : ℤ) := by
          rw [msgGuard_iff (by omega) (by omega)]
          omega
        cases reaches_of_inr (msgLoop_drained handler buf ⟨o, r, st, calls⟩ hdone) hs
        exact absurd hg hdone
      · have herr : (handler st buf o).2 < 0 := hstops.resolve_right id
        have hr := last.hdr_le
        rw [List.length_append] at hlen
        have hg' : msgGuard (r : ℤ) := (msgGuard_iff (by omega) (by omega)).mpr (.inr (by omega))
        cases reaches_of_inr (msgLoop_stopped handler buf ⟨o, r, st, calls⟩ hg' herr) hs
        have hholds : Holds buf o last.bytes := by
          have := holds_bytesAt buf o r
          rw [hbytes, encode_nil, List.nil_append, holds_append] at this
          exact this.1
        have hnl := Message.nlmsgLen_eq hholds
        exact ⟨show 16 ≤ nlmsgLen buf o by omega, show o + nlmsgLen buf o ≤ n by omega⟩
  | m :: ms, o, r, st, calls, tail, hor, hbytes, htail, s, hs, hg => by
      have hlen := congrArg List.length hbytes
      rw [length_bytesAt, encode_cons, List.append_assoc, List.length_append, m.length_padded]
        at hlen
      have hpad := m.hdr_le_roundUp (by norm_num)
      have hle := le_roundUp (a := 4) (by norm_num) m.bytes.length
      have hmem := holds_bytesAt buf o r
      rw [hbytes, encode_cons, List.append_assoc, holds_append, m.length_padded] at hmem
      have hnl := Message.nlmsgLen_eq (Record.holds_bytes hmem.1)
      have hm := m.hdr_le
      have hstart : InBounds buf n o := ⟨by omega, by omega⟩
      have hg' : msgGuard (r : ℤ) := (msgGuard_iff (by omega) (by omega)).mpr (.inr (by omega))
      by_cases herr : (handler st buf o).2 < 0
      · cases reaches_of_inr (msgLoop_stopped handler buf ⟨o, r, st, calls⟩ hg' herr) hs
        exact hstart
      have hstep := msgLoop_next handler buf ⟨o, r, st, calls⟩ hg' herr
      rw [msgNext_of_le _ (by omega) (by omega), hnl, ← Nat.cast_sub (by omega)] at hstep
      rcases hs.cases_head with rfl | ⟨t, ht, hts⟩
      · exact hstart
      rw [hstep] at ht
      cases ht
      refine inBounds_of_delimited hn ms _ _ _ _ tail (by omega) ?_ (htail.imp_right ?_) s hts hg
      · have hdrop := congrArg (List.drop (roundUp 4 m.bytes.length)) hbytes
        rwa [drop_bytesAt buf o (by omega), encode_cons, List.append_assoc,
          List.drop_left' m.length_padded] at hdrop
      · rintro ⟨last, hlast, hstops⟩
        exact ⟨last, hlast, hstops.resolve_left herr⟩

/-- **Bounds**: the loop reads and delivers only messages inside the datagram exactly when
the datagram is cut into padded messages as far as the handler goes. -/
theorem msgLoop_inBounds_iff (handler : Handler σ) (buf : Mem) (st : σ) {n : ℕ}
    (hn : n ≤ 16384) :
    (∀ o, Touches handler buf n st o → InBounds buf n o) ↔ Delimited handler buf 0 n st := by
  constructor
  · intro h
    exact delimited_of_inBounds hn n 0 st [] (Nat.zero_add n)
      fun s hs hg => h s.h ⟨s, hs, hg, rfl⟩
  · rintro ⟨ms, tail, hbytes, htail⟩ o ⟨s, hs, hg, rfl⟩
    exact inBounds_of_delimited hn ms 0 n st [] tail (Nat.zero_add n) hbytes htail s hs hg

/-- A message of 32 bytes of which 20 arrived: it is handed over as if it were complete. -/
def cutBuf : Mem := write (fun _ => 0) 0 [32, 0, 0, 0, 16, 0]

theorem msgLoop_not_inBounds :
    ¬ ∀ o, Touches (fun (_ : Unit) _ _ => ((), 0)) cutBuf 20 () o → InBounds cutBuf 20 o := by
  intro h
  have := h 0 ⟨_, .refl _, by decide, rfl⟩
  exact absurd this.2 (by decide)

theorem msgLoop_inBounds_iff_cut :
    (∀ o, Touches (fun (_ : Unit) _ _ => ((), 0)) cutBuf 20 () o → InBounds cutBuf 20 o) ↔
      Delimited (fun (_ : Unit) _ _ => ((), 0)) cutBuf 0 20 () :=
  msgLoop_inBounds_iff _ _ _ (by decide)

/-! ### Termination -/

/-- A block starts with a 32-bit length that, rounded up to 4, is the size of the block and
not zero. -/
def Block (b : List UInt8) : Prop :=
  4 ≤ b.length ∧ nlmsgAlign (toSigned 32 (leNat (b.take 4))) = b.length

/-- The datagram is cut into blocks, followed by less than a header. -/
def Blocked (d : List UInt8) : Prop :=
  ∃ (bs : List (List UInt8)) (tail : List UInt8),
    d = bs.flatten ++ tail ∧ tail.length < 16 ∧ ∀ b ∈ bs, Block b

/-- Whatever follows the datagram in memory and whatever the handler does short of stopping,
the inner loop ends, after at most a quarter as many calls as there are bytes. -/
def EndsInQuarter (d : List UInt8) : Prop :=
  ∀ buf : Mem, Holds buf 0 d → ∀ (σ : Type) (handler : Handler σ),
    (∀ st b o, ¬ (handler st b o).2 < 0) → ∀ st : σ,
      ∃ x, Exits (msgLoop handler buf) ⟨0, d.length, st, []⟩ x ∧ x.calls.length ≤ d.length / 4

/-- A length that rounds to zero leaves `h` and `status` as they are: the loop never ends. -/
theorem not_exits_of_align_zero (hgo : ∀ st b o, ¬ (handler st b o).2 < 0) {o : ℕ} {x : ℤ}
    (hg : msgGuard (toSigned 32 x)) (hz : nlmsgAlign (toSigned 32 (nlmsgLen buf o)) = 0) (st : σ)
    (calls : List Call) (y : MsgExit σ) :
    ¬ Exits (msgLoop handler buf) ⟨o, toSigned 32 x, st, calls⟩ y := by
  refine not_exits_of_invariant (I := fun t => t.h = o ∧ t.status = toSigned 32 x) ⟨rfl, rfl⟩ ?_
  rintro t ⟨hh, hs⟩
  refine ⟨_, msgLoop_next handler buf t (hs ▸ hg) (hgo _ _ _), ?_, ?_⟩
  · simp only [msgNext, hh, hz, Nat.add_zero]
  · simp only [msgNext, hh, hz, hs, Nat.cast_zero, sub_zero]
    rw [toSigned_toSigned]

/-- A length that does not fit leaves a status that still passes the loop condition. -/
theorem msgGuard_of_gt {r a : ℕ} (hr : 16 ≤ r) (hra : r < a) (ha : a ≤ 2 ^ 32 - 4) :
    msgGuard (toSigned 32 (r - a)) := by
  rw [msgGuard_toSigned]
  have := toUnsigned_of_neg (w := 32) (x := r - a) (by omega) (by omega)
  omega

theorem nlmsgAlign_le (buf : Mem) (o : ℕ) :
    nlmsgAlign (toSigned 32 (nlmsgLen buf o)) ≤ 2 ^ 32 - 4 := by
  rw [nlmsgAlign_toSigned (nlmsgLen_lt buf o)]
  omega

theorem nlmsgAlign_mod (buf : Mem) (o : ℕ) :
    nlmsgAlign (toSigned 32 (nlmsgLen buf o)) % 4 = 0 := by
  rw [nlmsgAlign_toSigned (nlmsgLen_lt buf o)]
  omega

/-- The datagram `d` with nothing but zeros behind it. -/
def zeroTail (d : List UInt8) : Mem := write (fun _ => 0) 0 d

theorem nlmsgAlign_zeroTail {d : List UInt8} {o : ℕ} (h : d.length ≤ o) :
    nlmsgAlign (toSigned 32 (nlmsgLen (zeroTail d) o)) = 0 := by
  have hz : ∀ a, o ≤ a → zeroTail d a = 0 := fun a ha => write_of_ge _ (by omega)
  have : nlmsgLen (zeroTail d) o = 0 := by
    simp [nlmsgLen, bytesAt, leNat, hz o le_rfl, hz (o + 1) (by omega), hz (o + 1 + 1) (by omega),
      hz (o + 1 + 1 + 1) (by omega)]
  rw [this]
  rfl

/-- Followed by zeros, a loop that ends has gone through blocks of the datagram only. -/
theorem blocked_of_exits {d : List UInt8} (hn : d.length ≤ 16384)
    (hgo : ∀ st b o, ¬ (handler st b o).2 < 0) (y : MsgExit σ) (r : ℕ) : ∀ (o : ℕ) (st : σ)
    (calls : List Call), o + r = d.length →
    Exits (msgLoop handler (zeroTail d)) ⟨o, r, st, calls⟩ y →
    Blocked (bytesAt (zeroTail d) o r) := by
  induction r using Nat.strong_induction_on with
  | _ r ih =>
      intro o st calls hor hx
      obtain hr | hr := Nat.lt_or_ge r 16
      · exact ⟨[], _, rfl, by rwa [length_bytesAt], by simp⟩
      have hg : msgGuard (r : ℤ) := (msgGuard_iff (by omega) (by omega)).mpr (.inr (by omega))
      have hrs : (r : ℤ) = toSigned 32 r := (toSigned_of_mem (by omega) (by omega)).symm
      have hstep := msgLoop_next handler (zeroTail d) ⟨o, r, st, calls⟩ hg (hgo _ _ _)
      set a := nlmsgAlign (toSigned 32 (nlmsgLen (zeroTail d) o)) with ha
      have hmod : a % 4 = 0 := nlmsgAlign_mod _ _
      rcases Nat.eq_zero_or_pos a with h0 | hpos
      · rw [hrs] at hx hg
        exact absurd hx (not_exits_of_align_zero hgo hg h0 st calls y)
      simp only [msgNext, ← ha] at hstep
      rw [exits_iff_of_inl hstep] at hx
      obtain hra | hra := Nat.lt_or_ge r a
      · have hg' : msgGuard (toSigned 32 (r - a)) := msgGuard_of_gt hr hra (nlmsgAlign_le _ _)
        have hz := nlmsgAlign_zeroTail (d := d) (o := o + a) (by omega)
        exact absurd hx (not_exits_of_align_zero hgo hg' hz _ _ y)
      · rw [← Nat.cast_sub hra, toSigned_of_mem (by omega) (by omega)] at hx
        obtain ⟨bs, tail, hbs, htail, hall⟩ := ih _ (by omega) _ _ _ (by omega) hx
        refine ⟨bytesAt (zeroTail d) o a :: bs, tail, ?_, htail, ?_⟩
        · rw [List.flatten_cons, List.append_assoc, ← hbs, ← bytesAt_add,
            Nat.add_sub_cancel' hra]
        · intro b hb
          rcases List.mem_cons.mp hb with rfl | hb
          · refine ⟨by rw [length_bytesAt]; omega, ?_⟩
            rw [take_bytesAt _ _ (show 4 ≤ a by omega), length_bytesAt, ha]
            rfl
          · exact hall b hb

/-- Along blocks the loop ends, with one call for each block it goes through. -/
theorem exits_of_blocked (hgo : ∀ st b o, ¬ (handler st b o).2 < 0) : ∀ (bs : List (List UInt8))
    (o r : ℕ) (st : σ) (calls : List Call) (tail : List UInt8), r ≤ 16384 →
    bytesAt buf o r = bs.flatten ++ tail → tail.length < 16 → (∀ b ∈ bs, Block b) →
    ∃ x, Exits (msgLoop handler buf) ⟨o, r, st, calls⟩ x ∧
      x.calls.length ≤ calls.length + r / 4
  | bs, o, r, st, calls, tail, hr, hbytes, htail, hall => by
      by_cases hg : msgGuard (r : ℤ)
      swap
      · exact ⟨_, .single (msgLoop_drained handler buf _ hg), Nat.le_add_right _ _⟩
      have h16 := (msgGuard_iff (by omega) (by omega)).mp hg
      have hlen := congrArg List.length hbytes
      rw [length_bytesAt, List.length_append] at hlen
      cases bs with
      | nil =>
          rw [List.flatten_nil, List.length_nil] at hlen
          omega
      | cons b bs =>
          obtain ⟨hb4, hb⟩ := hall b (.head _)
          rw [List.flatten_cons, List.length_append] at hlen
          rw [List.flatten_cons, List.append_assoc] at hbytes
          have hhead : bytesAt buf o 4 = b.take 4 := by
            rw [← take_bytesAt buf o (show 4 ≤ r by omega), hbytes,
              List.take_append_of_le_length hb4]
          have hrest : bytesAt buf (o + b.length) (r - b.length) = bs.flatten ++ tail := by
            rw [← drop_bytesAt buf o (by omega), hbytes, List.drop_left]
          obtain ⟨x, hx, hcalls⟩ := exits_of_blocked hgo bs _ (r - b.length)
            (handler st buf o).1 (calls ++ [(buf, o)]) tail (by omega) hrest htail
            fun c hc => hall c (.tail _ hc)
          have hstep := msgLoop_next handler buf ⟨o, r, st, calls⟩ hg (hgo _ _ _)
          simp only [msgNext, nlmsgLen] at hstep
          rw [hhead, hb, ← Nat.cast_sub (by omega), toSigned_of_mem (by omega) (by omega)] at hstep
          refine ⟨x, .step hstep hx, ?_⟩
          rw [List.length_append, List.length_singleton] at hcalls
          omega

/-- **Termination**: the inner loop ends within a quarter of the bytes, whatever lies behind
the datagram, exactly when the datagram is cut into blocks. -/
theorem msgLoop_terminates_iff (d : List UInt8) (hn : d.length ≤ 16384) :
    EndsInQuarter d ↔ Blocked d := by
  constructor
  · intro h
    obtain ⟨x, hx, _⟩ := h (zeroTail d) (holds_write _ _ _) Unit (fun _ _ _ => ((), 0))
      (fun _ _ _ => by norm_num) ()
    have := blocked_of_exits hn (fun _ _ _ => by norm_num) x d.length 0 () [] (Nat.zero_add _) hx
    rwa [show bytesAt (zeroTail d) 0 d.length = d from holds_write _ _ _] at this
  · rintro ⟨bs, tail, hd, htail, hall⟩ buf hbuf σ handler hgo st
    obtain ⟨x, hx, hcalls⟩ := exits_of_blocked hgo bs 0 d.length st [] tail hn
      (hbuf.trans hd) htail hall
    exact ⟨x, hx, by simpa using hcalls⟩

/-- A header whose length is zero. -/
theorem not_endsInQuarter_zero : ¬ EndsInQuarter (List.replicate 16 0) := by
  intro h
  obtain ⟨x, hx, _⟩ := h (fun _ => 0) (by decide) Unit (fun _ _ _ => ((), 0))
    (fun _ _ _ => by norm_num) ()
  exact not_exits_of_align_zero (fun _ _ _ => by norm_num) (x := 16) (by decide) (by decide)
    () [] x hx

theorem msgLoop_terminates_iff_zero :
    EndsInQuarter (List.replicate 16 0) ↔ Blocked (List.replicate 16 0) :=
  msgLoop_terminates_iff _ (by decide)

end Hspp
