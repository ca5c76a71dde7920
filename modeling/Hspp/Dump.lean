import Hspp.Lib.Loop
import Hspp.Netlink
import Hspp.RtaToStr

/-! # The dump functions of `netlink_msg_dump` (`yalin/dump.h`)

Each kind of message is a fixed structure followed by attributes.  Its dump function prints the
fields of the structure, of which the family, the type of a route and the flags of an interface
go through functions that may end the process or write behind an array, and then goes over the
attributes in a loop that is the same in all of them, written with the macros of
`<linux/rtnetlink.h>`.  The start depends on the size of the structure; the length that is left
is `IFA_PAYLOAD` in all of them, which takes off the header and the structure of an address
message.  `rta_len` is a `size_t`, so `IFA_PAYLOAD` and the subtraction in `RTA_NEXT` wrap.

`rta_to_str` is a parameter: it may return a text or not return.  What a loop passes to it
is recorded.

A loop passes exactly the attributes of its message when the length that is left at their end
is too short for what lies there to be taken for one more (`attrLoop_exits_iff`).  For an
address message nothing is left; the other structures are longer, and what is left has the
size of the difference (`dumpsAttrs_iff`). -/

namespace Hspp

open CInt Loop Memory Records

/-! ### The macros -/

def sizeofIfinfomsg : ℕ := 16
def sizeofIfaddrmsg : ℕ := 8
def sizeofRtmsg : ℕ := 12
def sizeofNdmsg : ℕ := 12

/-- `NLMSG_SPACE(len)`, on `size_t`. -/
def nlmsgSpace (len : ℕ) : ℕ := alignUp 64 4 (len + sizeofNlmsghdr)

/-- `IFA_PAYLOAD(hdr)`. -/
def ifaPayload (m : Mem) (hdr : ℕ) : ℕ :=
  toUnsigned 64 (nlmsgLen m hdr - nlmsgSpace sizeofIfaddrmsg)

/-- `RTA_OK(rta, len)`. -/
def rtaOk (m : Mem) (rta rtaLen : ℕ) : Prop :=
  sizeofRtattr ≤ rtaLen ∧ sizeofRtattr ≤ rtattrLen m rta ∧ rtattrLen m rta ≤ rtaLen

instance (m : Mem) (rta rtaLen : ℕ) : Decidable (rtaOk m rta rtaLen) :=
  inferInstanceAs (Decidable (_ ∧ _))

/-- `RTA_ALIGN(len)`: `RTA_ALIGNTO` is `4U`. -/
def rtaAlign (len : ℕ) : ℕ := alignUp 32 4 len

/-! ### The loops -/

/-- `rta_to_str(rta, str, len)`. -/
abbrev RtaToStr := Mem → ℕ → ℕ → Except Halt (List UInt8)

/-- The variables of the loop, and the attributes passed to `rta_to_str`. -/
structure AttrLoop where
  rta : ℕ
  rtaLen : ℕ
  passed : List ℕ
deriving DecidableEq, Repr

/-- One round of `for (rta = ..; RTA_OK(rta, rta_len); rta = RTA_NEXT(rta, rta_len))` with a
buffer of `strlen` bytes.  The loop ends with the attributes passed, and with the reason when
`rta_to_str` does not return. -/
def attrLoop (rtaToStr : RtaToStr) (strlen : ℕ) (m : Mem) (s : AttrLoop) :
    AttrLoop ⊕ (List ℕ × Option Halt) :=
  if rtaOk m s.rta s.rtaLen then
    match rtaToStr m s.rta strlen with
    | .error halt => .inr (s.passed ++ [s.rta], some halt)
    | .ok _ => .inl
        { rta := s.rta + rtaAlign (rtattrLen m s.rta)
          rtaLen := toUnsigned 64 (s.rtaLen - rtaAlign (rtattrLen m s.rta))
          passed := s.passed ++ [s.rta] }
  else .inr (s.passed, none)

/-- The messages that `netlink_msg_dump` tells apart. -/
inductive MsgKind where
  | link
  | addr
  | route
  | neigh
deriving DecidableEq, Repr

/-- The `switch` on `nlmsg_type`: `RTM_NEWLINK` is 16, and `DEL` and `GET` follow `NEW`. -/
def msgKind (type : ℕ) : Option MsgKind :=
  if type = 16 ∨ type = 17 ∨ type = 18 then some .link
  else if type = 20 ∨ type = 21 ∨ type = 22 then some .addr
  else if type = 24 ∨ type = 25 ∨ type = 26 then some .route
  else if type = 28 ∨ type = 29 ∨ type = 30 then some .neigh
  else none

/-- The size of the fixed structure. -/
def MsgKind.fixed : MsgKind → ℕ
  | .link => sizeofIfinfomsg
  | .addr => sizeofIfaddrmsg
  | .route => sizeofRtmsg
  | .neigh => sizeofNdmsg

/-- `IFLA_RTA`, `IFA_RTA`, `RTM_RTA` and `NDM_RTA` of the structure behind the header. -/
def MsgKind.rta (kind : MsgKind) (hdr : ℕ) : ℕ := hdr + sizeofNlmsghdr + nlmsgAlign kind.fixed

/-- `sizeof(str)`. -/
def MsgKind.strlen : MsgKind → ℕ
  | .link => 1000
  | .addr => 512
  | .route => 512
  | .neigh => 512

/-- The state in which the loop of the dump function for `kind` starts. -/
def MsgKind.start (kind : MsgKind) (m : Mem) (hdr : ℕ) : AttrLoop :=
  ⟨kind.rta hdr, ifaPayload m hdr, []⟩

/-! ### The fields -/

/-- The address of the fixed structure, `hdr + 1`. -/
def fixedPtr (hdr : ℕ) : ℕ := hdr + sizeofNlmsghdr

/-- `ifi_family`, `ifa_family` and `rtm_family`: the first byte of the structure. -/
def msgFamily (m : Mem) (hdr : ℕ) : ℕ := (m (fixedPtr hdr)).toNat

def ifiFlagsOf (m : Mem) (hdr : ℕ) : BitVec 32 :=
  BitVec.ofNat 32 (leNat (bytesAt m (fixedPtr hdr + 8) 4))

def rtmType (m : Mem) (hdr : ℕ) : ℕ := (m (fixedPtr hdr + 7)).toNat

/-- The calls for fields of the structure that may not return.  The other fields are printed as
numbers, or with a name for each number. -/
def MsgKind.fieldNames (afMax : ℕ) (kind : MsgKind) (m : Mem) (hdr : ℕ) : Except Halt Unit :=
  match kind with
  | .link => do
      let _ ← ifaFamilyToStr afMax (msgFamily m hdr)
      let _ ← ifiFlagsToStr (ifiFlagsOf m hdr) 100
      return ()
  | .addr => do
      let _ ← ifaFamilyToStr afMax (msgFamily m hdr)
      return ()
  | .route => do
      let _ ← ifaFamilyToStr afMax (msgFamily m hdr)
      let _ ← rtnTypeToStr (rtmType m hdr)
      return ()
  | .neigh => return ()

/-! ### The whole function -/

/-- Where a dump function is: at the fields of the structure, or in its loop. -/
inductive DumpPc where
  | fields
  | attrs (s : AttrLoop)
deriving DecidableEq, Repr

/-- One step of the dump function for `kind`.  It ends with the attributes passed, and with the
reason when a call does not return. -/
def msgDumpStep (afMax : ℕ) (rtaToStr : RtaToStr) (kind : MsgKind) (m : Mem) (hdr : ℕ) :
    DumpPc → DumpPc ⊕ (List ℕ × Option Halt)
  | .fields =>
      match kind.fieldNames afMax m hdr with
      | .error halt => .inr ([], some halt)
      | .ok _ => .inl (.attrs (kind.start m hdr))
  | .attrs s => (attrLoop rtaToStr kind.strlen m s).map .attrs id

/-- The dump function that `netlink_msg_dump` calls ends with the attributes passed and the
reason `x`. -/
def DumpsAttrs (afMax : ℕ) (rtaToStr : RtaToStr) (m : Mem) (hdr : ℕ)
    (x : List ℕ × Option Halt) : Prop :=
  ∃ kind, msgKind (nlmsgType m hdr) = some kind ∧
    Exits (msgDumpStep afMax rtaToStr kind m hdr) .fields x

/-- It passes exactly the attributes `os`.  It may then be ended by a call that does not return,
but not by a write behind an array, since nothing is known of what follows that. -/
def DumpsExactly (afMax : ℕ) (rtaToStr : RtaToStr) (m : Mem) (hdr : ℕ) (os : List ℕ) : Prop :=
  ∃ halt, DumpsAttrs afMax rtaToStr m hdr (os, halt) ∧ halt ≠ some .overrun

/-- The numbers in the fields have names. -/
structure HasNames (afMax : ℕ) (kind : MsgKind) (m : Mem) (hdr : ℕ) : Prop where
  family : kind ≠ .neigh → msgFamily m hdr < 41 ∨ msgFamily m hdr = afMax
  rtnType : kind = .route → rtmType m hdr < 12

/-- The names of the flags of an interface fit `strbuf`. -/
def FlagsFit (kind : MsgKind) (m : Mem) (hdr : ℕ) : Prop :=
  kind = .link → (flagsText FlagsStr.nameLong (ifiFlagsOf m hdr) ifiFlags).length < 100

section fields

variable {afMax : ℕ} {kind : MsgKind} {m : Mem} {hdr : ℕ}

theorem fieldNames_of_not_hasNames (h : ¬ HasNames afMax kind m hdr) :
    kind.fieldNames afMax m hdr = .error (.exit 1) := by
  by_cases hfamily : kind ≠ .neigh → msgFamily m hdr < 41 ∨ msgFamily m hdr = afMax
  · obtain ⟨rfl, htype⟩ := Classical.not_imp.mp fun htype => h ⟨hfamily, htype⟩
    obtain ⟨name, hname⟩ := (ifaFamilyToStr_eq_ok_iff _ _).mpr (hfamily (by decide))
    have hexit : rtnTypeToStr (rtmType m hdr) = .error (.exit 1) :=
      nameOrExit_of_le (Nat.not_lt.mp htype)
    rw [MsgKind.fieldNames, hname, hexit]
    rfl
  · obtain ⟨hkind, hfamily⟩ := Classical.not_imp.mp hfamily
    have hexit := ifaFamilyToStr_of_not hfamily
    cases kind with
    | neigh => exact absurd rfl hkind
    | _ =>
        rw [MsgKind.fieldNames, hexit]
        rfl

/-- When the numbers have names, only the text of the flags can do harm. -/
theorem fieldNames_of_hasNames (h : HasNames afMax kind m hdr) :
    (FlagsFit kind m hdr → kind.fieldNames afMax m hdr = .ok ()) ∧
      (¬ FlagsFit kind m hdr → kind.fieldNames afMax m hdr = .error .overrun) := by
  have hfit := inArray_eq_ok_iff FlagsStr.nameLong (show 0 < 100 by norm_num) (ifiFlagsOf m hdr)
    ifiFlags
  have hname (hkind : kind ≠ .neigh) := (ifaFamilyToStr_eq_ok_iff afMax _).mpr (h.family hkind)
  cases kind with
  | link =>
      obtain ⟨name, hname⟩ := hname (by decide)
      have hflags : FlagsFit .link m hdr ↔
          ∃ text, ifiFlagsToStr (ifiFlagsOf m hdr) 100 = .ok text :=
        (forall_prop_of_true rfl).trans hfit.symm
      rw [MsgKind.fieldNames, hname, hflags]
      refine ⟨fun ⟨text, htext⟩ => by rw [htext]; rfl, fun hno => ?_⟩
      cases htext : ifiFlagsToStr (ifiFlagsOf m hdr) 100 with
      | ok text => exact absurd ⟨text, htext⟩ hno
      | error halt =>
          unfold ifiFlagsToStr inArray at htext
          split_ifs at htext
          cases htext
          rfl
  | addr =>
      obtain ⟨name, hname⟩ := hname (by decide)
      rw [MsgKind.fieldNames, hname]
      exact ⟨fun _ => rfl, fun hno => absurd (fun hkind => by cases hkind) hno⟩
  | route =>
      obtain ⟨name, hname⟩ := hname (by decide)
      obtain ⟨type, htype⟩ := (rtnTypeToStr_eq_ok_iff _).mpr (h.rtnType rfl)
      rw [MsgKind.fieldNames, hname, htype]
      exact ⟨fun _ => rfl, fun hno => absurd (fun hkind => by cases hkind) hno⟩
  | neigh => exact ⟨fun _ => rfl, fun hno => absurd (fun hkind => by cases hkind) hno⟩

theorem fieldNames_eq_ok_iff :
    kind.fieldNames afMax m hdr = .ok () ↔ HasNames afMax kind m hdr ∧ FlagsFit kind m hdr := by
  by_cases hnames : HasNames afMax kind m hdr
  swap
  · rw [fieldNames_of_not_hasNames hnames]
    exact iff_of_false (fun h => by cases h) fun h => hnames h.1
  by_cases hfit : FlagsFit kind m hdr
  · exact iff_of_true ((fieldNames_of_hasNames hnames).1 hfit) ⟨hnames, hfit⟩
  · rw [(fieldNames_of_hasNames hnames).2 hfit]
    exact iff_of_false (fun h => by cases h) fun h => hfit h.2

theorem msgDumpStep_fields_of_ok (rtaToStr : RtaToStr)
    (h : kind.fieldNames afMax m hdr = .ok ()) :
    msgDumpStep afMax rtaToStr kind m hdr .fields = .inl (.attrs (kind.start m hdr)) := by
  rw [msgDumpStep, h]

theorem msgDumpStep_fields_of_error (rtaToStr : RtaToStr) {halt : Halt}
    (h : kind.fieldNames afMax m hdr = .error halt) :
    msgDumpStep afMax rtaToStr kind m hdr .fields = .inr ([], some halt) := by
  rw [msgDumpStep, h]

/-- The dump in its loop runs as the loop does. -/
theorem run_attrs_eq (rtaToStr : RtaToStr) (k : ℕ) (s : AttrLoop) :
    run (msgDumpStep afMax rtaToStr kind m hdr) k (.attrs s) =
      (run (attrLoop rtaToStr kind.strlen m) k s).map .attrs id :=
  run_map (f := DumpPc.attrs) (fun _ => rfl) k s

theorem exits_fields_of_ok {rtaToStr : RtaToStr} {x : List ℕ × Option Halt}
    (h : kind.fieldNames afMax m hdr = .ok ()) :
    Exits (msgDumpStep afMax rtaToStr kind m hdr) .fields x ↔
      Exits (attrLoop rtaToStr kind.strlen m) (kind.start m hdr) x := by
  rw [exits_iff_of_inl (msgDumpStep_fields_of_ok rtaToStr h)]
  exact exits_map_iff (f := DumpPc.attrs) fun s => rfl

theorem exits_fields_of_error {rtaToStr : RtaToStr} {x : List ℕ × Option Halt} {halt : Halt}
    (h : kind.fieldNames afMax m hdr = .error halt) :
    Exits (msgDumpStep afMax rtaToStr kind m hdr) .fields x ↔ x = ([], some halt) := by
  have hx := Exits.single (msgDumpStep_fields_of_error rtaToStr h)
  refine ⟨fun hx' => hx'.unique hx, ?_⟩
  rintro rfl
  exact hx

end fields

/-! ### One round -/

variable {rtaToStr : RtaToStr} {strlen : ℕ} {m : Mem}

/-- `rta_to_str` returns for the attribute at `o`. -/
def Returns (rtaToStr : RtaToStr) (strlen : ℕ) (m : Mem) (o : ℕ) : Prop :=
  ∃ str, rtaToStr m o strlen = .ok str

/-- It writes behind one of its arrays. -/
def Overruns (rtaToStr : RtaToStr) (strlen : ℕ) (m : Mem) (o : ℕ) : Prop :=
  rtaToStr m o strlen = .error .overrun

theorem rtaAlign_eq {n : ℕ} (hn : n < 2 ^ 16) : rtaAlign n = roundUp 4 n :=
  alignUp_of_lt (k := 2) (by norm_num) (by omega)

theorem not_rtaOk_zero (m : Mem) (o : ℕ) : ¬ rtaOk m o 0 := fun h => Nat.not_succ_le_zero 3 h.1

theorem attrLoop_done {s : AttrLoop} (h : ¬ rtaOk m s.rta s.rtaLen) :
    attrLoop rtaToStr strlen m s = .inr (s.passed, none) := by
  rw [attrLoop, if_neg h]

theorem attrLoop_halts {s : AttrLoop} {halt : Halt} (h : rtaOk m s.rta s.rtaLen)
    (hx : rtaToStr m s.rta strlen = .error halt) :
    attrLoop rtaToStr strlen m s = .inr (s.passed ++ [s.rta], some halt) := by
  simp only [attrLoop, if_pos h, hx]

/-- A length that fits after rounding up is taken off what is left. -/
theorem attrLoop_next {s : AttrLoop} (h : rtaOk m s.rta s.rtaLen)
    (hr : Returns rtaToStr strlen m s.rta) (hle : roundUp 4 (rtattrLen m s.rta) ≤ s.rtaLen)
    (hlt : s.rtaLen < 2 ^ 64) :
    attrLoop rtaToStr strlen m s = .inl ⟨s.rta + roundUp 4 (rtattrLen m s.rta),
      s.rtaLen - roundUp 4 (rtattrLen m s.rta), s.passed ++ [s.rta]⟩ := by
  obtain ⟨str, hx⟩ := hr
  simp only [attrLoop, if_pos h, hx, rtaAlign_eq (rtattrLen_lt m s.rta)]
  rw [← Nat.cast_sub hle, toUnsigned_ofNat (by omega)]

/-- A round either ends the loop or goes on, and passes one attribute. -/
theorem attrLoop_of_ok {s : AttrLoop} (h : rtaOk m s.rta s.rtaLen) :
    (∃ halt, attrLoop rtaToStr strlen m s = .inr (s.passed ++ [s.rta], some halt)) ∨
      ∃ t, attrLoop rtaToStr strlen m s = .inl t ∧ t.passed = s.passed ++ [s.rta] := by
  cases hx : rtaToStr m s.rta strlen with
  | error halt => exact .inl ⟨halt, attrLoop_halts h hx⟩
  | ok str =>
      refine .inr ⟨⟨s.rta + rtaAlign (rtattrLen m s.rta),
        toUnsigned 64 (s.rtaLen - rtaAlign (rtattrLen m s.rta)), s.passed ++ [s.rta]⟩, ?_, rfl⟩
      simp only [attrLoop, if_pos h, hx]

/-- The loop ends with an attribute for which `rta_to_str` does not return. -/
theorem attrLoop_of_not_returns {s : AttrLoop} (h : rtaOk m s.rta s.rtaLen)
    (hr : ¬ Returns rtaToStr strlen m s.rta) :
    ∃ halt, attrLoop rtaToStr strlen m s = .inr (s.passed ++ [s.rta], some halt) := by
  cases hx : rtaToStr m s.rta strlen with
  | error halt => exact ⟨halt, attrLoop_halts h hx⟩
  | ok str => exact absurd ⟨str, hx⟩ hr

/-- What has been passed stays passed. -/
theorem passed_isPrefix {s : AttrLoop} {x : List ℕ × Option Halt}
    (h : Exits (attrLoop rtaToStr strlen m) s x) : s.passed <+: x.1 := by
  obtain ⟨k, hk⟩ := h
  induction k generalizing s with
  | zero => cases hk
  | succ k ih =>
      by_cases hok : rtaOk m s.rta s.rtaLen
      swap
      · rw [run_succ_of_inr k (attrLoop_done hok)] at hk
        cases hk
        exact List.prefix_rfl
      rcases attrLoop_of_ok hok with ⟨halt, hx⟩ | ⟨t, hx, ht⟩
      · rw [run_succ_of_inr k hx] at hk
        cases hk
        exact List.prefix_append _ _
      · rw [run_succ_of_inl k hx] at hk
        exact (List.prefix_append _ _).trans (ht ▸ ih hk)

/-- A loop that takes something for an attribute passes it. -/
theorem passed_of_ok {s : AttrLoop} {x : List ℕ × Option Halt} (hok : rtaOk m s.rta s.rtaLen)
    (h : Exits (attrLoop rtaToStr strlen m) s x) : s.passed ++ [s.rta] <+: x.1 := by
  rcases attrLoop_of_ok hok with ⟨halt, hx⟩ | ⟨t, hx, ht⟩
  · cases h.unique (.single hx)
    exact List.prefix_rfl
  · rw [exits_iff_of_inl hx] at h
    exact ht ▸ passed_isPrefix h

/-- A loop that ends for a reason was given it for the last attribute passed. -/
theorem error_of_exits {s : AttrLoop} {p : List ℕ} {halt : Halt}
    (h : Exits (attrLoop rtaToStr strlen m) s (p, some halt)) :
    ∃ o, p.getLast? = some o ∧ rtaToStr m o strlen = .error halt := by
  refine h.of_invariant (I := fun _ => True)
    (Q := fun x => ∀ halt, x.2 = some halt →
      ∃ o, x.1.getLast? = some o ∧ rtaToStr m o strlen = .error halt) trivial
    (fun _ _ _ _ => trivial) ?_ halt rfl
  rintro t x - hx halt' hhalt
  by_cases hok : rtaOk m t.rta t.rtaLen
  · cases hr : rtaToStr m t.rta strlen with
    | error halt'' =>
        rw [attrLoop_halts hok hr] at hx
        cases hx
        cases hhalt
        exact ⟨t.rta, List.getLast?_concat, hr⟩
    | ok str =>
        simp only [attrLoop, if_pos hok, hr] at hx
        cases hx
  · rw [attrLoop_done hok] at hx
    cases hx
    cases hhalt

/-! ### The attributes of a message -/

/-- `rta_to_str` returns for all addresses but perhaps the last. -/
def ReturnsInit (rtaToStr : RtaToStr) (strlen : ℕ) (m : Mem) (os : List ℕ) : Prop :=
  ∀ o ∈ os.dropLast, Returns rtaToStr strlen m o

theorem returnsInit_cons {o : ℕ} (h : Returns rtaToStr strlen m o) (os : List ℕ) :
    ReturnsInit rtaToStr strlen m (o :: os) ↔ ReturnsInit rtaToStr strlen m os := by
  cases os with
  | nil => simp [ReturnsInit]
  | cons o' os => simp [ReturnsInit, h]

/-- A stored attribute is taken while it and its padding fit what is left, and the loop goes
on behind the padding if `rta_to_str` returns. -/
theorem attrLoop_record (rtaToStr : RtaToStr) (strlen n : ℕ) {a : Attr} {o : ℕ}
    (passed : List ℕ) (ha : Holds m o a.bytes) :
    rtaOk m o (roundUp 4 a.bytes.length + n) ∧
      (Returns rtaToStr strlen m o → roundUp 4 a.bytes.length + n < 2 ^ 64 →
        attrLoop rtaToStr strlen m ⟨o, roundUp 4 a.bytes.length + n, passed⟩ =
          .inl ⟨o + roundUp 4 a.bytes.length, n, passed ++ [o]⟩) := by
  have hlen := Attr.rtattrLen_eq ha
  have hhdr := a.hdr_le
  have hle := le_roundUp (a := 4) (by norm_num) a.bytes.length
  have hok : rtaOk m o (roundUp 4 a.bytes.length + n) := by
    unfold rtaOk sizeofRtattr
    omega
  refine ⟨hok, fun hr hlt => ?_⟩
  have hstep := attrLoop_next (s := ⟨o, roundUp 4 a.bytes.length + n, passed⟩) hok hr
    (by simp only [hlen]; omega) hlt
  rwa [hlen, Nat.add_sub_cancel_left] at hstep

/-- When `rta_to_str` returns for all attributes of a stream, the loop gets to its end, and
each round takes something off what is left. -/
theorem attrLoop_reaches : ∀ (attrs : List Attr) (o e : ℕ) (passed : List ℕ),
    Holds m o (encode attrs) → (encode attrs).length + e < 2 ^ 64 →
    (∀ o' ∈ starts o attrs, Returns rtaToStr strlen m o') →
    run (attrLoop rtaToStr strlen m) attrs.length ⟨o, (encode attrs).length + e, passed⟩ =
      .inl ⟨o + (encode attrs).length, e, passed ++ starts o attrs⟩
  | [], o, e, passed, _, _, _ => by
      rw [encode_nil, starts_nil, List.append_nil]
      simp only [List.length_nil, Nat.zero_add, Nat.add_zero, run_zero]
  | a :: as, o, e, passed, hmem, hlt, hr => by
      rw [holds_encode_cons] at hmem
      rw [length_encode_cons, Nat.add_assoc] at hlt ⊢
      rw [starts_cons, List.forall_mem_cons] at hr
      have hstep := (attrLoop_record rtaToStr strlen _ passed (Record.holds_bytes hmem.1)).2
        hr.1 hlt
      have ih := attrLoop_reaches as (o + roundUp 4 a.bytes.length) e (passed ++ [o]) hmem.2
        (by omega) hr.2
      rw [List.append_assoc, List.singleton_append, Nat.add_assoc o] at ih
      rw [List.length_cons, run_succ_of_inl _ hstep]
      exact ih

/-- Otherwise it ends at one of them. -/
theorem attrLoop_stops : ∀ (attrs : List Attr) (o e : ℕ) (passed : List ℕ),
    Holds m o (encode attrs) → (encode attrs).length + e < 2 ^ 64 →
    ¬ (∀ o' ∈ starts o attrs, Returns rtaToStr strlen m o') →
    ∃ p halt, p <+: starts o attrs ∧
      run (attrLoop rtaToStr strlen m) attrs.length ⟨o, (encode attrs).length + e, passed⟩ =
        .inr (passed ++ p, some halt)
  | [], _, _, _, _, _, hr => absurd (by simp) hr
  | a :: as, o, e, passed, hmem, hlt, hr => by
      rw [holds_encode_cons] at hmem
      rw [length_encode_cons, Nat.add_assoc] at hlt ⊢
      rw [starts_cons, List.forall_mem_cons, not_and] at hr
      have hround := attrLoop_record rtaToStr strlen ((encode as).length + e) passed
        (Record.holds_bytes hmem.1)
      by_cases ho : Returns rtaToStr strlen m o
      · obtain ⟨p, halt, hp, hx⟩ := attrLoop_stops as (o + roundUp 4 a.bytes.length) e
          (passed ++ [o]) hmem.2 (by omega) (hr ho)
        rw [List.append_assoc, List.singleton_append] at hx
        refine ⟨o :: p, halt, List.cons_prefix_cons.mpr ⟨rfl, hp⟩, ?_⟩
        rw [List.length_cons, run_succ_of_inl _ (hround.2 ho hlt)]
        exact hx
      · obtain ⟨halt, hstop⟩ := attrLoop_of_not_returns (s := ⟨o, _, passed⟩) hround.1 ho
        refine ⟨[o], halt, List.cons_prefix_cons.mpr ⟨rfl, List.nil_prefix⟩, ?_⟩
        rw [List.length_cons, run_succ_of_inr _ hstop]

/-- The loop over a stream of attributes with `e` bytes left behind it passes exactly these
attributes when `rta_to_str` lets it get to the last one, and the loop then ends there. -/
theorem attrLoop_exits_iff (rtaToStr : RtaToStr) (strlen e : ℕ) :
    ∀ (attrs : List Attr) (o : ℕ) (passed : List ℕ),
    Holds m o (encode attrs) → (encode attrs).length + e < 2 ^ 64 →
    ((∃ halt, Exits (attrLoop rtaToStr strlen m) ⟨o, (encode attrs).length + e, passed⟩
        (passed ++ starts o attrs, halt)) ↔
      ReturnsInit rtaToStr strlen m (starts o attrs) ∧
        ((∀ o' ∈ starts o attrs, Returns rtaToStr strlen m o') →
          ¬ rtaOk m (o + (encode attrs).length) e))
  | [], o, passed, _, hlt => by
      simp only [encode_nil, List.length_nil, Nat.zero_add, starts_nil, List.append_nil,
        Nat.add_zero]
      constructor
      · rintro ⟨halt, hx⟩
        refine ⟨by simp [ReturnsInit], fun _ hok => ?_⟩
        have hle := (passed_of_ok hok hx).length_le
        rw [List.length_append, List.length_singleton] at hle
        exact absurd hle (Nat.not_succ_le_self _)
      · rintro ⟨-, hno⟩
        exact ⟨none, .single (attrLoop_done (hno (by simp)))⟩
  | a :: as, o, passed, hmem, hlt => by
      rw [holds_encode_cons] at hmem
      rw [length_encode_cons, Nat.add_assoc] at hlt ⊢
      rw [starts_cons]
      obtain ⟨hok, hround⟩ := attrLoop_record rtaToStr strlen ((encode as).length + e) passed
        (Record.holds_bytes hmem.1)
      by_cases hr : Returns rtaToStr strlen m o
      · have ih := attrLoop_exits_iff rtaToStr strlen e as (o + roundUp 4 a.bytes.length)
          (passed ++ [o]) hmem.2 (by omega)
        rw [List.append_assoc, List.singleton_append, Nat.add_assoc] at ih
        simp only [exits_iff_of_inl (hround hr hlt), returnsInit_cons hr, List.forall_mem_cons, hr,
          true_and, ih]
      · -- the loop ends here, so this has to be the last attribute
        obtain ⟨halt, hstop⟩ := attrLoop_of_not_returns (s := ⟨o, _, passed⟩) hok hr
        cases as with
        | nil =>
            refine ⟨fun _ => ⟨by simp [ReturnsInit], fun hall => absurd (hall o (.head _)) hr⟩, ?_⟩
            exact fun _ => ⟨some halt, .single hstop⟩
        | cons b bs =>
            constructor
            · rintro ⟨halt', hx⟩
              have heq := congrArg (fun x => x.1.length) (hx.unique (.single hstop))
              simp at heq
            · rintro ⟨hinit, -⟩
              exact absurd (hinit o (by simp)) hr

theorem MsgKind.fixed_mem (kind : MsgKind) :
    kind.fixed = 8 ∨ kind.fixed = 12 ∨ kind.fixed = 16 := by
  cases kind <;> decide

theorem MsgKind.rta_eq (kind : MsgKind) (hdr : ℕ) : kind.rta hdr = hdr + 16 + kind.fixed := by
  cases kind <;> rfl

/-- What `IFA_PAYLOAD` leaves of a message with `n` bytes of attributes: those, and what the
fixed structure is longer than that of an address message. -/
theorem ifaPayload_eq {hdr : ℕ} {kind : MsgKind} {n : ℕ}
    (hlen : nlmsgLen m hdr = 16 + kind.fixed + n) : ifaPayload m hdr = n + (kind.fixed - 8) := by
  have hlt := nlmsgLen_lt m hdr
  have hfix := kind.fixed_mem
  have hspace : nlmsgSpace sizeofIfaddrmsg = 24 := rfl
  rw [ifaPayload, hspace, hlen, show ((16 + kind.fixed + n : ℕ) : ℤ) - (24 : ℕ) =
    (n + (kind.fixed - 8) : ℕ) by omega, toUnsigned_ofNat (by omega)]

/-- The loop over a message that is made of attributes starts with them, and with what the
fixed structure is longer than that of an address message. -/
theorem start_eq {hdr : ℕ} {kind : MsgKind} {n : ℕ} (hlen : nlmsgLen m hdr = 16 + kind.fixed + n) :
    kind.start m hdr = ⟨hdr + 16 + kind.fixed, n + (kind.fixed - 8), []⟩ := by
  rw [MsgKind.start, kind.rta_eq, ifaPayload_eq hlen]

/-- The loop passes the attributes of its message and nothing else. -/
theorem attrLoop_message_iff (rtaToStr : RtaToStr) {hdr : ℕ} {kind : MsgKind} {attrs : List Attr}
    (hlen : nlmsgLen m hdr = 16 + kind.fixed + (encode attrs).length)
    (hmem : Holds m (hdr + 16 + kind.fixed) (encode attrs)) :
    (∃ halt, Exits (attrLoop rtaToStr kind.strlen m) (kind.start m hdr)
        (starts (hdr + 16 + kind.fixed) attrs, halt)) ↔
      ReturnsInit rtaToStr kind.strlen m (starts (hdr + 16 + kind.fixed) attrs) ∧
        ((∀ o ∈ starts (hdr + 16 + kind.fixed) attrs, Returns rtaToStr kind.strlen m o) →
          ¬ rtaOk m (hdr + nlmsgLen m hdr) (kind.fixed - 8)) := by
  have hlt := nlmsgLen_lt m hdr
  have hfix := kind.fixed_mem
  have hend : hdr + nlmsgLen m hdr = hdr + 16 + kind.fixed + (encode attrs).length := by omega
  rw [start_eq hlen, hend]
  exact attrLoop_exits_iff rtaToStr kind.strlen (kind.fixed - 8) attrs
    (hdr + 16 + kind.fixed) [] hmem (by omega)

/-- That it did not end by a write behind an array depends on the attributes only. -/
theorem attrLoop_exactly_iff {attrs : List Attr} {o e : ℕ} (hmem : Holds m o (encode attrs))
    (hlt : (encode attrs).length + e < 2 ^ 64) :
    (∃ halt, Exits (attrLoop rtaToStr strlen m) ⟨o, (encode attrs).length + e, []⟩
        (starts o attrs, halt) ∧ halt ≠ some .overrun) ↔
      (∃ halt, Exits (attrLoop rtaToStr strlen m) ⟨o, (encode attrs).length + e, []⟩
        (starts o attrs, halt)) ∧ ∀ o' ∈ starts o attrs, ¬ Overruns rtaToStr strlen m o' := by
  constructor
  · rintro ⟨halt, hx, hne⟩
    refine ⟨⟨halt, hx⟩, fun o' ho hover => ?_⟩
    have hnot : ¬ Returns rtaToStr strlen m o' := by
      rintro ⟨str, hstr⟩
      cases hover.symm.trans hstr
    have hinit := ((attrLoop_exits_iff rtaToStr strlen e attrs o [] hmem hlt).mp ⟨halt, hx⟩).1
    obtain ⟨p, halt', -, hstop⟩ := attrLoop_stops attrs o e [] hmem hlt fun hall =>
      hnot (hall o' ho)
    obtain ⟨-, rfl⟩ := Prod.mk.inj (hx.unique ⟨_, hstop⟩)
    obtain ⟨last, hlast, herror⟩ := error_of_exits hx
    rw [← List.dropLast_append_getLast? last hlast, List.mem_append, List.mem_singleton] at ho
    rcases ho with ho | rfl
    · exact hnot (hinit o' ho)
    · exact hne (congrArg some (Except.error.inj (herror.symm.trans hover)))
  · rintro ⟨⟨halt, hx⟩, hno⟩
    refine ⟨halt, hx, ?_⟩
    rintro rfl
    obtain ⟨last, hlast, herror⟩ := error_of_exits hx
    exact hno last (List.mem_of_getLast? hlast) herror

/-- **Dumps**: a dump passes the attributes of its message and nothing else exactly when either
a number in the fields has no name, which ends the process, and there are no attributes; or the
names are known and fit, `rta_to_str` lets it get to the last attribute, no call writes behind
an array, and the 16-bit word behind the message, if the loop comes to look at it, is not the
length of an attribute that fits what the fixed structure is longer than that of an address
message. -/
theorem dumpsAttrs_iff (afMax : ℕ) (rtaToStr : RtaToStr) {m : Mem} {hdr : ℕ} {kind : MsgKind}
    (hkind : msgKind (nlmsgType m hdr) = some kind) {attrs : List Attr}
    (hlen : nlmsgLen m hdr = 16 + kind.fixed + (encode attrs).length)
    (hmem : Holds m (hdr + 16 + kind.fixed) (encode attrs)) :
    DumpsExactly afMax rtaToStr m hdr (starts (hdr + 16 + kind.fixed) attrs) ↔
      (¬ HasNames afMax kind m hdr ∧ attrs = []) ∨
      (HasNames afMax kind m hdr ∧ FlagsFit kind m hdr ∧
        ReturnsInit rtaToStr kind.strlen m (starts (hdr + 16 + kind.fixed) attrs) ∧
        ((∀ o ∈ starts (hdr + 16 + kind.fixed) attrs, Returns rtaToStr kind.strlen m o) →
          ¬ (4 ≤ rtattrLen m (hdr + nlmsgLen m hdr) ∧
            rtattrLen m (hdr + nlmsgLen m hdr) ≤ kind.fixed - 8)) ∧
        ∀ o ∈ starts (hdr + 16 + kind.fixed) attrs, ¬ Overruns rtaToStr kind.strlen m o) := by
  have hlt := nlmsgLen_lt m hdr
  have hfix := kind.fixed_mem
  have hdump (x) : DumpsAttrs afMax rtaToStr m hdr x ↔
      Exits (msgDumpStep afMax rtaToStr kind m hdr) .fields x := by
    simp only [DumpsAttrs, hkind, Option.some.injEq, exists_eq_left']
  by_cases hnames : HasNames afMax kind m hdr
  swap
  · -- the process exits
    simp only [DumpsExactly, hdump, exits_fields_of_error (fieldNames_of_not_hasNames hnames),
      hnames, not_false_eq_true, true_and, false_and, or_false, Prod.mk.injEq]
    rw [← List.length_eq_zero_iff, length_starts, List.length_eq_zero_iff]
    exact ⟨fun ⟨_, ⟨h, _⟩, _⟩ => h, fun h => ⟨_, ⟨h, rfl⟩, by decide⟩⟩
  by_cases hfit : FlagsFit kind m hdr
  swap
  · -- the text of the flags is written behind the array
    simp only [DumpsExactly, hdump, exits_fields_of_error ((fieldNames_of_hasNames hnames).2 hfit),
      hnames, hfit, not_true_eq_false, false_and, and_false, or_false, Prod.mk.injEq, iff_false]
    rintro ⟨halt, ⟨-, rfl⟩, hne⟩
    exact hne rfl
  have hok : rtaOk m (hdr + nlmsgLen m hdr) (kind.fixed - 8) ↔
      4 ≤ rtattrLen m (hdr + nlmsgLen m hdr) ∧
        rtattrLen m (hdr + nlmsgLen m hdr) ≤ kind.fixed - 8 := by
    unfold rtaOk sizeofRtattr
    omega
  have hloop := attrLoop_message_iff rtaToStr hlen hmem
  rw [start_eq hlen] at hloop
  simp only [DumpsExactly, hdump, exits_fields_of_ok ((fieldNames_of_hasNames hnames).1 hfit),
    start_eq hlen, hnames, hfit, not_true_eq_false, false_and, true_and, false_or]
  rw [attrLoop_exactly_iff hmem (by omega), hloop, hok, and_assoc]

/-- A link message with one attribute, and behind it an attribute of a longer message that
was in the buffer before. -/
def staleBuf : Mem := write (fun _ => 0) 0
  ([40, 0, 0, 0, 16, 0] ++ List.replicate 26 0 ++ [8, 0, 4, 0, 0xdc, 5, 0, 0] ++
    [8, 0, 13, 0, 0xe8, 3, 0, 0])

def mtuAttr : Attr := ⟨[8, 0, 4, 0, 0xdc, 5, 0, 0], [], by decide, by decide, by decide⟩

theorem not_dumpsAttrs_stale :
    ¬ ∀ (m : Mem) (hdr : ℕ) (kind : MsgKind) (attrs : List Attr),
      msgKind (nlmsgType m hdr) = some kind →
      nlmsgLen m hdr = 16 + kind.fixed + (encode attrs).length →
      Holds m (hdr + 16 + kind.fixed) (encode attrs) →
      DumpsExactly 46 Hspp.rtaToStr m hdr (starts (hdr + 16 + kind.fixed) attrs) := by
  intro h
  have hlen : nlmsgLen staleBuf 0 = 16 + MsgKind.link.fixed + (encode [mtuAttr]).length := by decide
  have hmem : Holds staleBuf (0 + 16 + MsgKind.link.fixed) (encode [mtuAttr]) := by decide
  have hkind : msgKind (nlmsgType staleBuf 0) = some .link := by decide
  have hnames : HasNames 46 .link staleBuf 0 := ⟨fun _ => by decide, fun hroute => by cases hroute⟩
  have hfit : FlagsFit .link staleBuf 0 := fun _ => by decide
  obtain ⟨halt, ⟨kind, hkind', hx⟩, -⟩ := h staleBuf 0 .link [mtuAttr] hkind hlen hmem
  cases Option.some.inj (hkind.symm.trans hkind')
  rw [exits_fields_of_ok ((fieldNames_of_hasNames hnames).1 hfit)] at hx
  -- the number in the attribute is printed, and the loop goes on behind the message
  refine ((attrLoop_message_iff Hspp.rtaToStr hlen hmem).mp ⟨halt, hx⟩).2 ?_ (by decide)
  intro o ho
  cases List.mem_singleton.mp ho
  exact (rtaToStr_eq_ok_iff (m := staleBuf) (by decide) (by decide) 1000).mpr trivial

theorem dumpsAttrs_iff_stale :
    DumpsExactly 46 Hspp.rtaToStr staleBuf 0 (starts 32 [mtuAttr]) ↔
      (¬ HasNames 46 .link staleBuf 0 ∧ [mtuAttr] = []) ∨
      (HasNames 46 .link staleBuf 0 ∧ FlagsFit .link staleBuf 0 ∧
        ReturnsInit Hspp.rtaToStr 1000 staleBuf (starts 32 [mtuAttr]) ∧
        ((∀ o ∈ starts 32 [mtuAttr], Returns Hspp.rtaToStr 1000 staleBuf o) →
          ¬ (4 ≤ rtattrLen staleBuf (0 + nlmsgLen staleBuf 0) ∧
            rtattrLen staleBuf (0 + nlmsgLen staleBuf 0) ≤ 8)) ∧
        ∀ o ∈ starts 32 [mtuAttr], ¬ Overruns Hspp.rtaToStr 1000 staleBuf o) :=
  dumpsAttrs_iff 46 _ (show msgKind (nlmsgType staleBuf 0) = some .link by decide) (by decide)
    (by decide)

end Hspp
