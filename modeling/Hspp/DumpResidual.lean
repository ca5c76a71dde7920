import Hspp.Dump
import Hspp.RtaToStr

/-! # What is left in the attribute loops

`rta_len` is a `size_t`, and `RTA_NEXT` takes a rounded length off it.  Through attributes that
fit with their padding it counts down; an attribute that fits without its padding, or a message
shorter than what `IFA_PAYLOAD` takes off, makes it wrap (`neverWraps_iff`).  In an address
message of a length divisible by 4 every attribute that fits does so with its padding, so the
loop stays inside the message whatever is in it (`addrDump_walks`). -/

namespace Hspp

open CInt Loop Memory Records

variable {rtaToStr : RtaToStr} {strlen : ℕ} {m : Mem}

/-- The attributes that the loop finds in `n` bytes, and what lies behind them. -/
theorem exists_attrs (m : Mem) (o n : ℕ) : ∃ attrs : List Attr, Holds m o (encode attrs) ∧
    (encode attrs).length ≤ n ∧ ¬ (4 ≤ rtattrLen m (o + (encode attrs).length) ∧
      roundUp 4 (rtattrLen m (o + (encode attrs).length)) ≤ n - (encode attrs).length) :=
  exists_encode m (by norm_num) (by norm_num) (by norm_num) n o

/-! ### Any length -/

/-- `rta_len` never wraps: if the dump gets to its loop, it starts there with no more than the
bytes behind the header, and each further round makes it smaller; and the dump ends within a
quarter of the length in rounds, and not by a write behind an array, after which nothing is
known of `rta_len`. -/
structure NeverWraps (afMax : ℕ) (rtaToStr : RtaToStr) (kind : MsgKind) (m : Mem) (hdr : ℕ) :
    Prop where
  start : ∀ s, msgDumpStep afMax rtaToStr kind m hdr .fields = .inl (.attrs s) →
    s.rtaLen + 16 ≤ nlmsgLen m hdr
  next : ∀ s t, Reaches (msgDumpStep afMax rtaToStr kind m hdr) .fields (.attrs s) →
    msgDumpStep afMax rtaToStr kind m hdr (.attrs s) = .inl (.attrs t) → t.rtaLen < s.rtaLen
  ends : ∃ passed halt, run (msgDumpStep afMax rtaToStr kind m hdr) (nlmsgLen m hdr / 4 + 1)
    .fields = .inr (passed, halt) ∧ halt ≠ some .overrun

section whole

variable {afMax : ℕ} {kind : MsgKind} {hdr : ℕ}

theorem start_rtaLen (kind : MsgKind) (m : Mem) (hdr : ℕ) :
    (kind.start m hdr).rtaLen = ifaPayload m hdr := rfl

/-- A dump that does not get to its loop has no `rta_len`. -/
theorem neverWraps_of_error {halt : Halt} (h : kind.fieldNames afMax m hdr = .error halt) :
    NeverWraps afMax rtaToStr kind m hdr ↔ halt ≠ .overrun := by
  have hstep := msgDumpStep_fields_of_error rtaToStr h
  constructor
  · rintro ⟨-, -, passed, halt', hrun, hne⟩
    rw [run_succ_of_inr _ hstep] at hrun
    cases hrun
    exact fun hover => hne (congrArg some hover)
  · intro hne
    refine ⟨fun s hs => ?_, fun s t hs => ?_, [], some halt, run_succ_of_inr _ hstep, ?_⟩
    · rw [hstep] at hs
      cases hs
    · rcases hs.cases_head with heq | ⟨u, hu, -⟩
      · cases heq
      · rw [hstep] at hu
        cases hu
    · exact fun hover => hne (Option.some.inj hover)

/-- In the others it is that of the loop. -/
theorem neverWraps_of_ok (h : kind.fieldNames afMax m hdr = .ok ()) :
    NeverWraps afMax rtaToStr kind m hdr ↔ ifaPayload m hdr + 16 ≤ nlmsgLen m hdr ∧
      Descends (attrLoop rtaToStr kind.strlen m) AttrLoop.rtaLen (kind.start m hdr) ∧
      ∃ passed halt, run (attrLoop rtaToStr kind.strlen m) (nlmsgLen m hdr / 4)
        (kind.start m hdr) = .inr (passed, halt) ∧ halt ≠ some .overrun := by
  have hstep := msgDumpStep_fields_of_ok rtaToStr h
  have hreaches (s) : Reaches (msgDumpStep afMax rtaToStr kind m hdr) .fields (.attrs s) ↔
      Reaches (attrLoop rtaToStr kind.strlen m) (kind.start m hdr) s := by
    have hloop : Reaches (msgDumpStep afMax rtaToStr kind m hdr) (.attrs (kind.start m hdr))
        (.attrs s) ↔ Reaches (attrLoop rtaToStr kind.strlen m) (kind.start m hdr) s :=
      reaches_map_iff (f := DumpPc.attrs) (fun _ => rfl) fun _ _ h => DumpPc.attrs.inj h
    rw [← hloop]
    refine ⟨fun hs => ?_, (Reaches.single hstep).trans⟩
    rcases hs.cases_head with heq | ⟨u, hu, hreach⟩
    · cases heq
    · cases hstep.symm.trans hu
      exact hreach
  have hnext (s t) : msgDumpStep afMax rtaToStr kind m hdr (.attrs s) = .inl (.attrs t) ↔
      attrLoop rtaToStr kind.strlen m s = .inl t := by
    rw [msgDumpStep]
    cases attrLoop rtaToStr kind.strlen m s <;> simp
  have hends (x) : run (msgDumpStep afMax rtaToStr kind m hdr) (nlmsgLen m hdr / 4 + 1) .fields =
      .inr x ↔ run (attrLoop rtaToStr kind.strlen m) (nlmsgLen m hdr / 4) (kind.start m hdr) =
        .inr x := by
    rw [run_succ_of_inl _ hstep, run_attrs_eq]
    cases run (attrLoop rtaToStr kind.strlen m) (nlmsgLen m hdr / 4) (kind.start m hdr) <;> simp
  rw [← start_rtaLen kind m hdr]
  constructor
  · rintro ⟨hstart, hdesc, passed, halt, hrun, hne⟩
    exact ⟨hstart _ hstep, fun s t hs ht => hdesc s t ((hreaches s).mpr hs) ((hnext s t).mpr ht),
      passed, halt, (hends _).mp hrun, hne⟩
  · rintro ⟨hstart, hdesc, passed, halt, hrun, hne⟩
    refine ⟨fun s hs => ?_, fun s t hs ht => hdesc s t ((hreaches s).mp hs) ((hnext s t).mp ht),
      passed, halt, (hends _).mpr hrun, hne⟩
    cases hstep.symm.trans hs
    exact hstart

end whole

/-- At the address `o`, with `n` bytes left, the loop goes on. -/
def GoesOn (rtaToStr : RtaToStr) (strlen : ℕ) (m : Mem) (o n : ℕ) : Prop :=
  rtaOk m o n ∧ Returns rtaToStr strlen m o

theorem attrLoop_of_not_goesOn {s : AttrLoop} (h : ¬ GoesOn rtaToStr strlen m s.rta s.rtaLen) :
    ∃ x, attrLoop rtaToStr strlen m s = .inr x := by
  by_cases hok : rtaOk m s.rta s.rtaLen
  · obtain ⟨halt, hstop⟩ := attrLoop_of_not_returns hok fun hr => h ⟨hok, hr⟩
    exact ⟨_, hstop⟩
  · exact ⟨_, attrLoop_done hok⟩

/-- Along attributes that fit with their padding `rta_len` descends, and further if it does
behind them. -/
theorem descends_attrs : ∀ (attrs : List Attr) (o e : ℕ) (passed : List ℕ),
    Holds m o (encode attrs) → (encode attrs).length + e < 2 ^ 64 →
    ((∀ o' ∈ starts o attrs, Returns rtaToStr strlen m o') →
      ¬ GoesOn rtaToStr strlen m (o + (encode attrs).length) e) →
    Descends (attrLoop rtaToStr strlen m) AttrLoop.rtaLen
      ⟨o, (encode attrs).length + e, passed⟩
  | [], o, e, passed, _, _, hend => by
      rw [encode_nil, List.length_nil, Nat.add_zero] at hend
      rw [encode_nil, List.length_nil, Nat.zero_add]
      obtain ⟨x, hx⟩ := attrLoop_of_not_goesOn (s := ⟨o, e, passed⟩) (hend (by simp))
      exact descends_of_inr hx
  | a :: as, o, e, passed, hmem, hlt, hend => by
      rw [holds_encode_cons] at hmem
      rw [length_encode_cons, Nat.add_assoc] at hlt ⊢
      rw [length_encode_cons, starts_cons, List.forall_mem_cons, ← Nat.add_assoc] at hend
      have hround := attrLoop_record rtaToStr strlen ((encode as).length + e) passed
        (Record.holds_bytes hmem.1)
      have hpos := a.hdr_le_roundUp (by norm_num)
      by_cases ho : Returns rtaToStr strlen m o
      · have ih := descends_attrs as (o + roundUp 4 a.bytes.length) e (passed ++ [o]) hmem.2
          (by omega) fun hr => hend ⟨ho, hr⟩
        exact descends_of_inl (hround.2 ho hlt) (by simp only; omega) ih
      · obtain ⟨halt, hstop⟩ := attrLoop_of_not_returns (s := ⟨o, _, passed⟩) hround.1 ho
        exact descends_of_inr hstop

/-- Nor does the loop take more rounds than there are attributes, and one more. -/
theorem run_attrs {attrs : List Attr} {o e : ℕ} (passed : List ℕ) (hmem : Holds m o (encode attrs))
    (hlt : (encode attrs).length + e < 2 ^ 64)
    (hend : (∀ o' ∈ starts o attrs, Returns rtaToStr strlen m o') →
      ¬ GoesOn rtaToStr strlen m (o + (encode attrs).length) e) :
    ∃ x, run (attrLoop rtaToStr strlen m) (attrs.length + 1)
      ⟨o, (encode attrs).length + e, passed⟩ = .inr x := by
  by_cases hr : ∀ o' ∈ starts o attrs, Returns rtaToStr strlen m o'
  · have hreach := attrLoop_reaches attrs o e passed hmem hlt hr
    obtain ⟨x, hx⟩ := attrLoop_of_not_goesOn
      (s := ⟨o + (encode attrs).length, e, passed ++ starts o attrs⟩) (hend hr)
    refine ⟨x, ?_⟩
    rw [run_add_of_inl 1 hreach]
    exact run_succ_of_inr 0 hx
  · obtain ⟨p, halt, -, hx⟩ := attrLoop_stops attrs o e passed hmem hlt hr
    exact ⟨_, run_add_of_inr 1 hx⟩

/-- An attribute that fits without its padding makes `rta_len` wrap. -/
theorem wraps_of_goesOn {s : AttrLoop} (h : GoesOn rtaToStr strlen m s.rta s.rtaLen)
    (hpad : s.rtaLen < roundUp 4 (rtattrLen m s.rta)) :
    ∃ t, attrLoop rtaToStr strlen m s = .inl t ∧ s.rtaLen ≤ t.rtaLen := by
  obtain ⟨hok, str, hx⟩ := h
  have hlen := rtattrLen_lt m s.rta
  have hup := roundUp_lt (a := 4) (by norm_num) (rtattrLen m s.rta)
  have hneg := toUnsigned_of_neg (w := 64)
    (x := (s.rtaLen : ℤ) - roundUp 4 (rtattrLen m s.rta)) (by omega) (by omega)
  refine ⟨⟨s.rta + rtaAlign (rtattrLen m s.rta),
    toUnsigned 64 (s.rtaLen - rtaAlign (rtattrLen m s.rta)), s.passed ++ [s.rta]⟩, ?_, ?_⟩
  · simp only [attrLoop, if_pos hok, hx]
  · simp only [rtaAlign_eq hlen]
    omega

theorem ifaPayload_of_le {hdr : ℕ} (h : 24 ≤ nlmsgLen m hdr) :
    ifaPayload m hdr = nlmsgLen m hdr - 24 := by
  have hlt := nlmsgLen_lt m hdr
  have hspace : nlmsgSpace sizeofIfaddrmsg = 24 := rfl
  rw [ifaPayload, hspace, ← Nat.cast_sub h, toUnsigned_ofNat (by omega)]

/-- What a message that is too short starts with is far too large. -/
theorem ifaPayload_of_lt {hdr : ℕ} (h : nlmsgLen m hdr < 24) :
    nlmsgLen m hdr < ifaPayload m hdr := by
  have hspace : nlmsgSpace sizeofIfaddrmsg = 24 := rfl
  have hneg := toUnsigned_of_neg (w := 64) (x := (nlmsgLen m hdr : ℤ) - (24 : ℕ)) (by omega)
    (by omega)
  rw [ifaPayload, hspace]
  omega

/-- At the address `o`, with `n` bytes left, the loop stops: it finds no attribute, or one at
which a call ends the process. -/
def StopsAt (rtaToStr : RtaToStr) (strlen : ℕ) (m : Mem) (o n : ℕ) : Prop :=
  rtaOk m o n → ∃ halt, rtaToStr m o strlen = .error halt ∧ halt ≠ .overrun

/-- Of a list of attributes, those up to the first for which `rta_to_str` does not return. -/
theorem exists_returning (rtaToStr : RtaToStr) (strlen : ℕ) : ∀ (attrs : List Attr) (o : ℕ),
    ∃ p q, attrs = p ++ q ∧ (∀ o' ∈ starts o p, Returns rtaToStr strlen m o') ∧
      (q ≠ [] → ¬ Returns rtaToStr strlen m (o + (encode p).length))
  | [], o => ⟨[], [], rfl, by simp, fun h => absurd rfl h⟩
  | a :: as, o => by
      by_cases ho : Returns rtaToStr strlen m o
      · obtain ⟨p, q, rfl, hp, hq⟩ := exists_returning rtaToStr strlen as
          (o + roundUp 4 a.bytes.length)
        refine ⟨a :: p, q, rfl, ?_, ?_⟩
        · rw [starts_cons, List.forall_mem_cons]
          exact ⟨ho, hp⟩
        · rwa [length_encode_cons, ← Nat.add_assoc]
      · exact ⟨[], a :: as, rfl, by simp, fun _ => ho⟩

/-- A loop of which `rta_len` descends and that does not end by a write behind an array goes
over attributes with their padding, up to where it stops. -/
theorem exists_of_descends {o n : ℕ} (hlt : n < 2 ^ 32)
    (hdesc : Descends (attrLoop rtaToStr strlen m) AttrLoop.rtaLen ⟨o, n, []⟩)
    {passed : List ℕ} {halt : Option Halt} (hne : halt ≠ some .overrun)
    (hx : Exits (attrLoop rtaToStr strlen m) ⟨o, n, []⟩ (passed, halt)) :
    ∃ (attrs : List Attr) (tail : List UInt8), bytesAt m o n = encode attrs ++ tail ∧
      (∀ o' ∈ starts o attrs, Returns rtaToStr strlen m o') ∧
      StopsAt rtaToStr strlen m (o + (encode attrs).length) tail.length := by
  obtain ⟨found, hfound, hfit, hend⟩ := exists_attrs m o n
  obtain ⟨attrs, rest, rfl, hall, hrest⟩ := exists_returning rtaToStr strlen found o
  rw [encode_append, holds_append] at hfound
  rw [encode_append, List.length_append] at hfit hend
  obtain ⟨k, hk⟩ := Nat.exists_eq_add_of_le (Nat.le_of_add_right_le hfit)
  refine ⟨attrs, bytesAt m (o + (encode attrs).length) k, ?_, hall, fun hok => ?_⟩
  · rw [hk, bytesAt_add]
    exact congrArg (· ++ _) hfound.1
  rw [length_bytesAt] at hok
  have hreach := attrLoop_reaches attrs o k [] hfound.1 (by omega) hall
  rw [← hk] at hreach
  cases herror : rtaToStr m (o + (encode attrs).length) strlen with
  | error halt' =>
      -- the loop ends here, and so as it was given
      rw [exits_iff_of_reaches ⟨_, hreach⟩] at hx
      obtain ⟨-, rfl⟩ := Prod.mk.inj (hx.unique (.single (attrLoop_halts hok herror)))
      exact ⟨halt', rfl, fun hover => hne (congrArg some hover)⟩
  | ok str =>
      -- the attribute does not fit with its padding, and the loop gets past it
      have hnil : rest = [] := by
        by_contra hne
        exact hrest hne ⟨str, herror⟩
      rw [hnil, encode_nil, List.length_nil, Nat.add_zero, hk, Nat.add_sub_cancel_left] at hend
      have hpad : k < roundUp 4 (rtattrLen m (o + (encode attrs).length)) := by
        by_contra hle
        exact hend ⟨hok.2.1, Nat.not_lt.mp hle⟩
      obtain ⟨t, ht, hle⟩ := wraps_of_goesOn
        (s := ⟨o + (encode attrs).length, k, [] ++ starts o attrs⟩) ⟨hok, str, herror⟩ hpad
      exact absurd (hdesc _ _ ⟨_, hreach⟩ ht) (Nat.not_lt.mpr hle)

/-- Over such attributes the loop ends within a round for each, and one more. -/
theorem run_stopsAt {attrs : List Attr} {o e : ℕ} (hmem : Holds m o (encode attrs))
    (hlt : (encode attrs).length + e < 2 ^ 64)
    (hall : ∀ o' ∈ starts o attrs, Returns rtaToStr strlen m o')
    (hstop : StopsAt rtaToStr strlen m (o + (encode attrs).length) e) :
    ∃ passed halt, run (attrLoop rtaToStr strlen m) (attrs.length + 1)
      ⟨o, (encode attrs).length + e, []⟩ = .inr (passed, halt) ∧ halt ≠ some .overrun := by
  have hreach := attrLoop_reaches attrs o e [] hmem hlt hall
  rw [run_add_of_inl 1 hreach]
  by_cases hok : rtaOk m (o + (encode attrs).length) e
  · obtain ⟨halt, herror, hne⟩ := hstop hok
    exact ⟨_, some halt, run_succ_of_inr 0 (attrLoop_halts hok herror),
      fun hover => hne (Option.some.inj hover)⟩
  · exact ⟨_, none, run_succ_of_inr 0 (attrLoop_done hok), by decide⟩

theorem not_goesOn_of_stopsAt {o n : ℕ} (h : StopsAt rtaToStr strlen m o n) :
    ¬ GoesOn rtaToStr strlen m o n := by
  rintro ⟨hok, str, hstr⟩
  obtain ⟨halt, herror, -⟩ := h hok
  cases herror.symm.trans hstr

/-- **Residual**: in a dump `rta_len` never wraps exactly when a number in the fields has no
name, which ends the process before there is an `rta_len`; or the names fit, the message is not
shorter than an `ifaddrmsg` and its header, and the bytes that the loop goes over are attributes
with their padding for which `rta_to_str` returns, up to one at which it ends the process or to
a rest in which the loop finds no attribute. -/
theorem neverWraps_iff (afMax : ℕ) (rtaToStr : RtaToStr) (kind : MsgKind) (m : Mem) (hdr : ℕ) :
    NeverWraps afMax rtaToStr kind m hdr ↔ ¬ HasNames afMax kind m hdr ∨
      FlagsFit kind m hdr ∧ 24 ≤ nlmsgLen m hdr ∧
        ∃ (attrs : List Attr) (tail : List UInt8),
          bytesAt m (kind.rta hdr) (nlmsgLen m hdr - 24) = encode attrs ++ tail ∧
          (∀ o ∈ starts (kind.rta hdr) attrs, Returns rtaToStr kind.strlen m o) ∧
          StopsAt rtaToStr kind.strlen m (kind.rta hdr + (encode attrs).length) tail.length := by
  have hlt := nlmsgLen_lt m hdr
  by_cases hnames : HasNames afMax kind m hdr
  swap
  · rw [neverWraps_of_error (fieldNames_of_not_hasNames hnames)]
    exact iff_of_true (by decide) (.inl hnames)
  rw [or_iff_right (not_not_intro hnames)]
  by_cases hfit : FlagsFit kind m hdr
  swap
  · rw [neverWraps_of_error ((fieldNames_of_hasNames hnames).2 hfit)]
    exact iff_of_false (fun hne => hne rfl) fun h => hfit h.1
  rw [and_iff_right hfit, neverWraps_of_ok ((fieldNames_of_hasNames hnames).1 hfit)]
  constructor
  · rintro ⟨hstart, hdesc, passed, halt, hrun, hne⟩
    have h24 : 24 ≤ nlmsgLen m hdr := by
      by_contra hshort
      have := ifaPayload_of_lt (Nat.not_le.mp hshort)
      omega
    rw [MsgKind.start, ifaPayload_of_le h24] at hdesc hrun
    exact ⟨h24, exists_of_descends (by omega) hdesc hne ⟨_, hrun⟩⟩
  · rintro ⟨h24, attrs, tail, hbytes, hall, hstop⟩
    have hn := congrArg List.length hbytes
    rw [length_bytesAt, List.length_append] at hn
    have hmem : Holds m (kind.rta hdr) (encode attrs) := by
      have hbytesAt := holds_bytesAt m (kind.rta hdr) (nlmsgLen m hdr - 24)
      rw [hbytes, holds_append] at hbytesAt
      exact hbytesAt.1
    have hstart : kind.start m hdr =
        ⟨kind.rta hdr, (encode attrs).length + tail.length, []⟩ := by
      rw [MsgKind.start, ifaPayload_of_le h24, hn]
    have hcount := length_mul_le_length_encode (by norm_num) attrs
    obtain ⟨passed, halt, hrun, hne⟩ := run_stopsAt hmem (by omega) hall hstop
    rw [hstart]
    exact ⟨by rw [ifaPayload_of_le h24]; omega,
      descends_attrs attrs _ _ [] hmem (by omega) fun _ => not_goesOn_of_stopsAt hstop,
      passed, halt, run_mono (by omega) hrun, hne⟩

/-- An address message that is only a header. -/
def bareAddr : Mem := write (fun _ => 0) 0 [16, 0, 0, 0, 20, 0]

theorem not_neverWraps_bare :
    ¬ ∀ (kind : MsgKind) (m : Mem) (hdr : ℕ), msgKind (nlmsgType m hdr) = some kind →
      16 ≤ nlmsgLen m hdr → NeverWraps 46 Hspp.rtaToStr kind m hdr := by
  intro h
  have hfields : MsgKind.addr.fieldNames 46 bareAddr 0 = .ok () := rfl
  have hstart := (h .addr bareAddr 0 (by decide) (by decide)).start _
    (msgDumpStep_fields_of_ok Hspp.rtaToStr hfields)
  have hbig := ifaPayload_of_lt (show nlmsgLen bareAddr 0 < 24 by decide)
  rw [start_rtaLen] at hstart
  omega

/-! ### Address messages -/

/-- The attributes lie one behind the other, each padded to a multiple of 4 bytes, from `o` on. -/
structure Contiguous (m : Mem) (o : ℕ) (passed : List ℕ) : Prop where
  first : ∀ o' ∈ passed.head?, o' = o
  next : passed.IsChain fun o o' => o' = o + roundUp 4 (rtattrLen m o)

/-- So do the first attributes of a list. -/
theorem contiguous_of_isPrefix {attrs : List Attr} {o : ℕ} {passed : List ℕ}
    (hmem : Holds m o (encode attrs)) (h : passed <+: starts o attrs) :
    Contiguous m o passed := by
  have hchain := isChain_starts (by norm_num) hmem
  refine ⟨fun o' ho => ?_, ?_⟩
  swap
  · obtain ⟨rest, hrest⟩ := h
    rw [← hrest] at hchain
    exact hchain.left_of_append
  cases attrs with
  | nil =>
      rw [List.prefix_nil.mp h] at ho
      cases ho
  | cons a as =>
      cases passed with
      | nil => cases ho
      | cons o'' os =>
          cases ho
          exact (List.cons_prefix_cons.mp h).1

/-- In bytes whose number is a multiple of 4, an attribute that fits does so with its padding. -/
theorem not_rtaOk_of_dvd {attrs : List Attr} {o n : ℕ} (hn : 4 ∣ n)
    (hfit : (encode attrs).length ≤ n)
    (hend : ¬ (4 ≤ rtattrLen m o ∧ roundUp 4 (rtattrLen m o) ≤ n - (encode attrs).length)) :
    ¬ rtaOk m o (n - (encode attrs).length) := by
  rintro ⟨-, hle, hle'⟩
  refine hend ⟨hle, ?_⟩
  have hdvd := dvd_length_encode attrs
  unfold roundUp
  omega

/-- The loop over the attributes that it finds ends with some of the first of them, when it
takes nothing behind them for one. -/
theorem run_attrs_isPrefix (rtaToStr : RtaToStr) (strlen : ℕ) {attrs : List Attr} {o e : ℕ}
    (hmem : Holds m o (encode attrs))
    (hlt : (encode attrs).length + e < 2 ^ 64) (hend : ¬ rtaOk m (o + (encode attrs).length) e) :
    ∃ passed halt, passed <+: starts o attrs ∧ run (attrLoop rtaToStr strlen m) (attrs.length + 1)
      ⟨o, (encode attrs).length + e, []⟩ = .inr (passed, halt) := by
  by_cases hr : ∀ o' ∈ starts o attrs, Returns rtaToStr strlen m o'
  · have hreach := attrLoop_reaches attrs o e [] hmem hlt hr
    have hdone : attrLoop rtaToStr strlen m ⟨o + (encode attrs).length, e, starts o attrs⟩ =
        .inr (starts o attrs, none) := attrLoop_done hend
    refine ⟨starts o attrs, none, List.prefix_rfl, ?_⟩
    rw [run_add_of_inl 1 hreach]
    exact run_succ_of_inr 0 hdone
  · obtain ⟨p, halt, hp, hx⟩ := attrLoop_stops attrs o e [] hmem hlt hr
    exact ⟨p, some halt, hp, run_add_of_inr 1 hx⟩

/-- The loop over a message of a length divisible by 4 ends within the rounds that there is room
for attributes, whatever the message holds.  The attributes passed lie in the message, one behind
the other; and if the message is made of attributes, they are passed in order, all of them when
`rta_to_str` returns for each but perhaps the last. -/
theorem addrLoop_walks (rtaToStr : RtaToStr) {m : Mem} {hdr : ℕ} (h24 : 24 ≤ nlmsgLen m hdr)
    (hdvd : 4 ∣ nlmsgLen m hdr) :
    ∃ passed halt, run (attrLoop rtaToStr 512 m) ((nlmsgLen m hdr - 24) / 4 + 1)
        (MsgKind.addr.start m hdr) = .inr (passed, halt) ∧
      passed.length ≤ (nlmsgLen m hdr - 24) / 4 ∧
      (∀ o ∈ passed, hdr + 24 ≤ o ∧ 4 ≤ rtattrLen m o ∧
        o + rtattrLen m o ≤ hdr + nlmsgLen m hdr) ∧
      Contiguous m (hdr + 24) passed ∧
      ∀ attrs : List Attr, Holds m (hdr + 24) (encode attrs) →
        (encode attrs).length = nlmsgLen m hdr - 24 →
        (passed = starts (hdr + 24) attrs ↔
          ReturnsInit rtaToStr 512 m (starts (hdr + 24) attrs)) := by
  have hlt := nlmsgLen_lt m hdr
  obtain ⟨found, hmem, hfit, hend⟩ := exists_attrs m (hdr + 24) (nlmsgLen m hdr - 24)
  have hno := not_rtaOk_of_dvd (by omega) hfit hend
  obtain ⟨e, he⟩ := Nat.exists_eq_add_of_le hfit
  rw [he, Nat.add_sub_cancel_left] at hno
  obtain ⟨passed, halt, hpre, hrun⟩ := run_attrs_isPrefix rtaToStr 512 hmem (by omega) hno
  have hstart : MsgKind.addr.start m hdr = ⟨hdr + 24, (encode found).length + e, []⟩ := by
    rw [MsgKind.start, ifaPayload_of_le h24, he]
    rfl
  have hcount := length_mul_le_length_encode (by norm_num) found
  rw [← hstart] at hrun
  refine ⟨passed, halt, run_mono (by omega) hrun, ?_, ?_, contiguous_of_isPrefix hmem hpre, ?_⟩
  · have hle := hpre.length_le
    rw [length_starts] at hle
    omega
  · intro o ho
    obtain ⟨a, -, ha, hge, hin⟩ := holds_of_mem_starts hmem (hpre.subset ho)
    have hlen := Attr.rtattrLen_eq ha
    have hup := le_roundUp (a := 4) (by norm_num) a.bytes.length
    have hhdr := a.hdr_le
    exact ⟨hge, by omega, by omega⟩
  · intro attrs hattrs hsize
    have hexits := attrLoop_exits_iff rtaToStr 512 0 attrs (hdr + 24) [] hattrs (by omega)
    rw [List.nil_append, hsize, Nat.add_zero, and_iff_left fun _ => not_rtaOk_zero m _] at hexits
    rw [← hexits]
    have hx :
        Exits (attrLoop rtaToStr 512 m) ⟨hdr + 24, nlmsgLen m hdr - 24, []⟩ (passed, halt) := by
      refine ⟨found.length + 1, ?_⟩
      rwa [hstart, ← he] at hrun
    constructor
    · rintro rfl
      exact ⟨halt, hx⟩
    · rintro ⟨halt', hx'⟩
      exact congrArg Prod.fst (hx.unique hx')

/-- An address message with an attribute that has the number of an `IFLA_LINKINFO` and holds
none, and another attribute. -/
def linkinfoAddr : Mem := write (fun _ => 0) 0
  ([32, 0, 0, 0, 20, 0] ++ List.replicate 18 0 ++ [4, 0, 18, 0] ++ [4, 0, 2, 0])

def linkinfoAddrAttrs : List Attr :=
  [⟨[4, 0, 18, 0], [], by decide, by decide, by decide⟩,
    ⟨[4, 0, 2, 0], [], by decide, by decide, by decide⟩]

end Hspp
