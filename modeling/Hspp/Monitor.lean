import Hspp.DumpResidual
import Hspp.RequestDelivery
import Hspp.RtaToStr

/-! # The monitor (`yalin/dump.h`, `main.c`)

`netlink_msg_dump` as far as it decides whether the process lives on: the flags of the
header, the family, the route type and the interface flags of the fixed structure, and the
loop over the attributes.  The monitor is `netlink_listen` with this function as handler.  The
handler's state keeps why a dump did not return: then nothing more happens, which the model
says with a negative answer.

A message is dumped when its flags fit their arrays, its numbers have names, and
`rta_to_str` returns for the attributes of the message and for those that the loop takes
behind it (`netlinkMsgDump_iff`).  A monitor goes on as long as this is so for each message
received (`monitor_survives_iff`). -/

namespace Hspp

open CInt Feed Loop Memory Records

/-! ### The dump functions -/

/-- The field `nlmsg_flags` of the header at `h`. -/
def nlmsgFlags (m : Mem) (h : ℕ) : BitVec 32 := BitVec.ofNat 32 (leNat (bytesAt m (h + 6) 2))

/-- The loop of the dump function for `kind`.  After so many rounds it would have stepped over
more bytes than there are addresses. -/
def dumpAttrs (kind : MsgKind) (m : Mem) (hdr : ℕ) : Except Halt Unit :=
  match run (attrLoop rtaToStr kind.strlen m) (2 ^ 62) (kind.start m hdr) with
  | .inl _ => .error .spins
  | .inr (_, some halt) => .error halt
  | .inr (_, none) => .ok ()

def netlinkLinkMsgDump (afMax : ℕ) (m : Mem) (hdr : ℕ) : Except Halt Unit := do
  let _ ← ifaFamilyToStr afMax (msgFamily m hdr)
  let _ ← ifiFlagsToStr (ifiFlagsOf m hdr) 100
  dumpAttrs .link m hdr

def netlinkAddrMsgDump (afMax : ℕ) (m : Mem) (hdr : ℕ) : Except Halt Unit := do
  let _ ← ifaFamilyToStr afMax (msgFamily m hdr)
  dumpAttrs .addr m hdr

def netlinkRouteMsgDump (afMax : ℕ) (m : Mem) (hdr : ℕ) : Except Halt Unit := do
  let _ ← ifaFamilyToStr afMax (msgFamily m hdr)
  let _ ← rtnTypeToStr (rtmType m hdr)
  dumpAttrs .route m hdr

def netlinkNeighMsgDump (m : Mem) (hdr : ℕ) : Except Halt Unit := dumpAttrs .neigh m hdr

/-- `netlink_msg_dump`.  A message of another kind is printed by `hexdump`. -/
def netlinkMsgDump (afMax : ℕ) (m : Mem) (hdr : ℕ) : Except Halt Unit := do
  let _ ← nlmsgFlagsToStrGet (nlmsgFlags m hdr) 100
  let _ ← nlmsgFlagsToStrNew (nlmsgFlags m hdr) 100
  match msgKind (nlmsgType m hdr) with
  | some .link => netlinkLinkMsgDump afMax m hdr
  | some .addr => netlinkAddrMsgDump afMax m hdr
  | some .route => netlinkRouteMsgDump afMax m hdr
  | some .neigh => netlinkNeighMsgDump m hdr
  | none => return ()

/-- For each kind `netlink_msg_dump` is the names of the fields and the loop. -/
theorem netlinkMsgDump_of_kind {afMax : ℕ} {m : Mem} {hdr : ℕ} {kind : MsgKind}
    (hkind : msgKind (nlmsgType m hdr) = some kind) : netlinkMsgDump afMax m hdr = (do
      let _ ← nlmsgFlagsToStrGet (nlmsgFlags m hdr) 100
      let _ ← nlmsgFlagsToStrNew (nlmsgFlags m hdr) 100
      let _ ← kind.fieldNames afMax m hdr
      dumpAttrs kind m hdr) := by
  rw [netlinkMsgDump, hkind]
  cases kind with
  | link => simp [netlinkLinkMsgDump, MsgKind.fieldNames]
  | addr => simp [netlinkAddrMsgDump, MsgKind.fieldNames]
  | route => simp [netlinkRouteMsgDump, MsgKind.fieldNames]
  | neigh => simp [netlinkNeighMsgDump, MsgKind.fieldNames]

/-- Those are what the dump function does step by step. -/
theorem fieldNames_dumpAttrs (afMax : ℕ) (kind : MsgKind) (m : Mem) (hdr : ℕ) :
    (do let _ ← kind.fieldNames afMax m hdr; dumpAttrs kind m hdr) =
      match run (msgDumpStep afMax rtaToStr kind m hdr) (2 ^ 62 + 1) .fields with
      | .inl _ => .error .spins
      | .inr (_, some halt) => .error halt
      | .inr (_, none) => .ok () := by
  cases hfields : kind.fieldNames afMax m hdr with
  | error halt =>
      rw [run_succ_of_inr _ (msgDumpStep_fields_of_error rtaToStr hfields)]
      rfl
  | ok u =>
      rw [run_succ_of_inl _ (msgDumpStep_fields_of_ok rtaToStr hfields), run_attrs_eq]
      change dumpAttrs kind m hdr = _
      rw [dumpAttrs]
      rcases run (attrLoop rtaToStr kind.strlen m) (2 ^ 62) (kind.start m hdr) with
        s | ⟨passed, _ | halt⟩ <;> rfl

/-- `dump_msg`, the handler of the monitor. -/
def dumpMsg (afMax : ℕ) : Handler (Option Halt) := fun _ m hdr =>
  match netlinkMsgDump afMax m hdr with
  | .error halt => (some halt, -1)
  | .ok _ => (none, 0)

/-- Every message received is dumped, and the monitor ends as the events say. -/
def Survives (afMax : ℕ) (buf : Mem) (es : List Event) : Prop :=
  Exits (netlinkListen (dumpMsg afMax)) (.recv buf (es.map Event.toRecv) none [])
    ⟨endOf es, none, planned buf es⟩

/-! ### Well-formed messages -/

/-- The message at `hdr` is of `kind`, and `attrs` are its attributes. -/
structure HasAttrs (m : Mem) (hdr : ℕ) (kind : MsgKind) (attrs : List Attr) : Prop where
  isKind : msgKind (nlmsgType m hdr) = some kind
  len : nlmsgLen m hdr = 16 + kind.fixed + (encode attrs).length
  holds : Holds m (hdr + 16 + kind.fixed) (encode attrs)

/-- If the message at `hdr` is one of the four kinds, it has attributes, and none of them is an
`IFLA_LINKINFO`. -/
def WellFormedAt (m : Mem) (hdr : ℕ) : Prop :=
  ∀ kind, msgKind (nlmsgType m hdr) = some kind →
    ∃ attrs, HasAttrs m hdr kind attrs ∧ ∀ a ∈ attrs, a.type ≠ IFLA_LINKINFO

/-- The type of a message. -/
def Message.type (msg : Message) : ℕ := leNat ((msg.bytes.drop 4).take 2)

/-- A message of one of the four kinds is a header, its fixed structure and a list of
attributes, none of them an `IFLA_LINKINFO`. -/
def Message.WellFormed (msg : Message) : Prop :=
  ∀ kind, msgKind msg.type = some kind → 16 + kind.fixed ≤ msg.bytes.length ∧
    ∃ attrs : List Attr, msg.bytes.drop (16 + kind.fixed) = encode attrs ∧
      ∀ a ∈ attrs, a.type ≠ IFLA_LINKINFO

theorem Message.nlmsgType_eq {m : Mem} {o : ℕ} {msg : Message} (h : Holds m o msg.bytes) :
    nlmsgType m o = msg.type := by
  have hhdr := msg.hdr_le
  have := (h.drop (k := 4) (by omega)).bytesAt_eq (k := 2) (by rw [List.length_drop]; omega)
  rw [nlmsgType, this, type]

/-- A well-formed message stays one where it is stored. -/
theorem Message.WellFormed.at {m : Mem} {o : ℕ} {msg : Message} (hwf : msg.WellFormed)
    (h : Holds m o msg.bytes) : WellFormedAt m o := by
  intro kind hkind
  obtain ⟨hle, attrs, hattrs, hno⟩ := hwf kind (Message.nlmsgType_eq h ▸ hkind)
  have hlen := congrArg List.length hattrs
  rw [List.length_drop] at hlen
  refine ⟨attrs, ⟨hkind, ?_, ?_⟩, hno⟩
  · rw [Message.nlmsgLen_eq h]
    omega
  · rw [Nat.add_assoc, ← hattrs]
    exact h.drop hle

/-- In the `n` bytes from `o` on, there is an attribute at `o'`, behind other ones or none. -/
def AttrIn (m : Mem) (o n o' : ℕ) : Prop :=
  ∃ attrs : List Attr, Holds m o (encode attrs) ∧ (encode attrs).length ≤ n ∧ o' ∈ starts o attrs

/-- The attributes of the message can be printed.  The loop goes on behind a message whose
fixed structure is longer than `ifaddrmsg`; of the attributes that it finds there, in at most
8 bytes, only an `IFLA_LINKINFO` can do harm. -/
structure PrintableAttrs (kind : MsgKind) (m : Mem) (hdr : ℕ) : Prop where
  fits : ∀ attrs, HasAttrs m hdr kind attrs → ∀ a ∈ attrs, a.type ≠ IFLA_LINKINFO →
    FitsArray a.type a.payload.length
  behind : ∀ o, AttrIn m (hdr + nlmsgLen m hdr) (kind.fixed - 8) o →
    rtattrType m o = IFLA_LINKINFO → ∃ str, rtaToStrIflaLinkinfo m o [] kind.strlen = .ok str

/-- The message at `hdr` can be printed. -/
@[mk_iff] structure Printable (afMax : ℕ) (m : Mem) (hdr : ℕ) : Prop where
  flagsGet : (flagsText FlagsStr.nameLong (nlmsgFlags m hdr) fGet).length < 100
  flagsNew : (flagsText FlagsStr.nameLong (nlmsgFlags m hdr) fNew).length < 100
  family : ∀ kind, msgKind (nlmsgType m hdr) = some kind → kind ≠ .neigh →
    msgFamily m hdr < 41 ∨ msgFamily m hdr = afMax
  ifiFlags : msgKind (nlmsgType m hdr) = some .link →
    (flagsText FlagsStr.nameLong (ifiFlagsOf m hdr) ifiFlags).length < 100
  rtnType : msgKind (nlmsgType m hdr) = some .route → rtmType m hdr < 12
  attrs : ∀ kind, msgKind (nlmsgType m hdr) = some kind → PrintableAttrs kind m hdr

/-! ### The loop -/

section loop

variable {rtaToStr : RtaToStr} {strlen : ℕ} {m : Mem}

/-- The loop over a stream of attributes comes to its end just when `rta_to_str` returns for all
of them and the loop over what lies behind comes to its end. -/
theorem attrLoop_completes_iff {attrs : List Attr} {o e : ℕ} (passed : List ℕ)
    (hmem : Holds m o (encode attrs)) (hlt : (encode attrs).length + e < 2 ^ 64) :
    (∃ p, Exits (attrLoop rtaToStr strlen m) ⟨o, (encode attrs).length + e, passed⟩ (p, none)) ↔
      (∀ o' ∈ starts o attrs, Returns rtaToStr strlen m o') ∧
        ∃ p, Exits (attrLoop rtaToStr strlen m)
          ⟨o + (encode attrs).length, e, passed ++ starts o attrs⟩ (p, none) := by
  by_cases hr : ∀ o' ∈ starts o attrs, Returns rtaToStr strlen m o'
  · have hreach := attrLoop_reaches attrs o e passed hmem hlt hr
    rw [and_iff_right hr]
    simp only [exits_iff_of_reaches ⟨_, hreach⟩]
  · rw [iff_false_intro hr, false_and, iff_false]
    rintro ⟨p, hx⟩
    obtain ⟨p', halt, -, hstop⟩ := attrLoop_stops attrs o e passed hmem hlt hr
    cases hx.unique ⟨_, hstop⟩

/-- Over bytes whose number is a multiple of 4 the loop ends, and it comes to its end just when
`rta_to_str` returns for all attributes in them. -/
theorem attrLoop_completes_iff_attrIn {o n : ℕ} (passed : List ℕ) (hn : 4 ∣ n)
    (hlt : n < 2 ^ 64) :
    (∃ p, Exits (attrLoop rtaToStr strlen m) ⟨o, n, passed⟩ (p, none)) ↔
      ∀ o', AttrIn m o n o' → Returns rtaToStr strlen m o' := by
  constructor
  · rintro hx o' ⟨attrs, hmem, hfit, ho⟩
    obtain ⟨e, rfl⟩ := Nat.exists_eq_add_of_le hfit
    exact ((attrLoop_completes_iff passed hmem hlt).mp hx).1 o' ho
  · intro hr
    obtain ⟨attrs, hmem, hfit, hend⟩ := exists_attrs m o n
    have hno := not_rtaOk_of_dvd hn hfit hend
    have hall : ∀ o' ∈ starts o attrs, Returns rtaToStr strlen m o' :=
      fun o' ho => hr o' ⟨attrs, hmem, hfit, ho⟩
    obtain ⟨e, rfl⟩ := Nat.exists_eq_add_of_le hfit
    rw [Nat.add_sub_cancel_left] at hno
    have hdone : attrLoop rtaToStr strlen m
        ⟨o + (encode attrs).length, e, passed ++ starts o attrs⟩ =
        .inr (passed ++ starts o attrs, none) := attrLoop_done hno
    exact (attrLoop_completes_iff passed hmem hlt).mpr ⟨hall, _, .single hdone⟩

/-- It takes at most a round for every 4 bytes, and one more. -/
theorem attrLoop_ends (rtaToStr : RtaToStr) (strlen : ℕ) (m : Mem) (o : ℕ) {n : ℕ}
    (passed : List ℕ) (hn : 4 ∣ n) (hlt : n < 2 ^ 64) :
    ∃ x, run (attrLoop rtaToStr strlen m) (n / 4 + 1) ⟨o, n, passed⟩ = .inr x := by
  obtain ⟨attrs, hmem, hfit, hend⟩ := exists_attrs m o n
  have hno := not_rtaOk_of_dvd hn hfit hend
  have hcount := length_mul_le_length_encode (by norm_num) attrs
  obtain ⟨e, rfl⟩ := Nat.exists_eq_add_of_le hfit
  rw [Nat.add_sub_cancel_left] at hno
  obtain ⟨x, hx⟩ := run_attrs passed hmem hlt fun _ hgo => hno hgo.1
  exact ⟨x, run_mono (by omega) hx⟩

end loop

variable {m : Mem} {hdr : ℕ} {kind : MsgKind}

/-- The loop of a dump function gets to the end just when `rta_to_str` returns for the
attributes of the message and for those in the bytes that are taken behind it. -/
theorem dumpAttrs_iff {attrs : List Attr} (h : HasAttrs m hdr kind attrs) :
    dumpAttrs kind m hdr = .ok () ↔
      (∀ o ∈ starts (hdr + 16 + kind.fixed) attrs, Returns rtaToStr kind.strlen m o) ∧
        ∀ o, AttrIn m (hdr + nlmsgLen m hdr) (kind.fixed - 8) o →
          Returns rtaToStr kind.strlen m o := by
  have hlt := nlmsgLen_lt m hdr
  have hlen := h.len
  have hfix := kind.fixed_mem
  have hdvd := dvd_length_encode attrs
  have hstart := start_eq h.len
  have hbehind : hdr + 16 + kind.fixed + (encode attrs).length = hdr + nlmsgLen m hdr := by omega
  obtain ⟨x, hx⟩ := attrLoop_ends rtaToStr kind.strlen m (hdr + 16 + kind.fixed)
    (n := (encode attrs).length + (kind.fixed - 8)) [] (by omega) (by omega)
  rw [← attrLoop_completes_iff_attrIn ([] ++ starts (hdr + 16 + kind.fixed) attrs) (by omega)
    (by omega), ← hbehind, ← attrLoop_completes_iff [] h.holds (by omega), ← hstart]
  rw [← hstart] at hx
  have hrun : run (attrLoop rtaToStr kind.strlen m) (2 ^ 62) (kind.start m hdr) = .inr x :=
    run_mono (by omega) hx
  rw [dumpAttrs, hrun]
  obtain ⟨passed, halt⟩ := x
  cases halt with
  | none => exact iff_of_true rfl ⟨passed, _, hrun⟩
  | some halt =>
      refine iff_of_false (fun hok => by cases hok) ?_
      rintro ⟨p, hp⟩
      cases hp.unique ⟨_, hrun⟩

/-! ### One message -/

/-- `rta_to_str` returns for an attribute of a message just when its payload fits. -/
theorem returns_iff {a : Attr} {o : ℕ} (ha : Holds m o a.bytes) (htype : a.type ≠ IFLA_LINKINFO)
    (strlen : ℕ) : Returns rtaToStr strlen m o ↔ FitsArray a.type a.payload.length := by
  have hlen := Attr.rtattrLen_eq ha
  have heq := Attr.rtattrType_eq ha
  rw [Returns, rtaToStr_eq_ok_iff (hlen ▸ a.hdr_le) (heq ▸ htype), hlen, heq, a.length_payload]

/-- What is as short as the attributes behind a message fits any array. -/
theorem fitsArray_of_le (type : ℕ) {n : ℕ} (hn : n ≤ 333) : FitsArray type n := by
  unfold FitsArray
  cases rtaCase type with
  | address => exact hn
  | default => exact hn.trans (by norm_num)
  | _ => trivial

/-- `rta_to_str` returns for an attribute behind a message unless it is taken for an
`IFLA_LINKINFO` for which the decoder does not. -/
theorem returns_behind_iff {o e o' : ℕ} (he : e ≤ 8) (h : AttrIn m o e o') (strlen : ℕ) :
    Returns rtaToStr strlen m o' ↔ (rtattrType m o' = IFLA_LINKINFO →
      ∃ str, rtaToStrIflaLinkinfo m o' [] strlen = .ok str) := by
  obtain ⟨attrs, hmem, hfit, ho⟩ := h
  obtain ⟨a, -, ha, hge, hin⟩ := holds_of_mem_starts hmem ho
  have hlen := Attr.rtattrLen_eq ha
  have hup := le_roundUp (a := 4) (by norm_num) a.bytes.length
  have hhdr := a.hdr_le
  by_cases htype : rtattrType m o' = IFLA_LINKINFO
  · rw [Returns, rtaToStr, if_pos htype]
    exact (imp_iff_right htype).symm
  · rw [Returns, rtaToStr_eq_ok_iff (by omega) htype]
    exact iff_of_true (fitsArray_of_le _ (by omega)) fun h => absurd h htype

theorem dumpAttrs_iff_printable (hkind : msgKind (nlmsgType m hdr) = some kind)
    (hwf : WellFormedAt m hdr) : dumpAttrs kind m hdr = .ok () ↔ PrintableAttrs kind m hdr := by
  have hfix := kind.fixed_mem
  obtain ⟨attrs, h, hno⟩ := hwf kind hkind
  constructor
  · intro hok
    refine ⟨fun as has a ha htype => ?_, fun o ho => ?_⟩
    · obtain ⟨o, ho, hbytes⟩ := exists_start_of_mem has.holds ha
      exact (returns_iff hbytes htype _).mp (((dumpAttrs_iff has).mp hok).1 o ho)
    · exact (returns_behind_iff (by omega) ho _).mp (((dumpAttrs_iff h).mp hok).2 o ho)
  · intro hp
    refine (dumpAttrs_iff h).mpr ⟨fun o ho => ?_, fun o ho => ?_⟩
    · obtain ⟨a, ha, hbytes, -, -⟩ := holds_of_mem_starts h.holds ho
      exact (returns_iff hbytes (hno a ha) _).mpr (hp.fits attrs h a ha (hno a ha))
    · exact (returns_behind_iff (by omega) ho _).mpr (hp.behind o ho)

/-- A call that is made for its effects and a rest return when both do. -/
theorem bind_eq_ok_iff {α β : Type} (x : Except Halt α) (y : Except Halt β) (b : β) :
    (do let _ ← x; y) = .ok b ↔ (∃ a, x = .ok a) ∧ y = .ok b := by
  cases x with
  | error e => exact iff_of_false (fun h => by cases h) (by rintro ⟨⟨a, ha⟩, -⟩; cases ha)
  | ok a => exact (and_iff_right ⟨a, rfl⟩).symm

/-- When a message of one of the kinds is dumped, the dump function for its kind has come to the
end of its loop. -/
theorem dumpsAttrs_of_netlinkMsgDump {afMax : ℕ} (hkind : msgKind (nlmsgType m hdr) = some kind)
    (h : netlinkMsgDump afMax m hdr = .ok ()) :
    ∃ passed, DumpsAttrs afMax rtaToStr m hdr (passed, none) := by
  rw [netlinkMsgDump_of_kind hkind, bind_eq_ok_iff, bind_eq_ok_iff, fieldNames_dumpAttrs] at h
  obtain ⟨-, -, h⟩ := h
  rcases hrun : run (msgDumpStep afMax rtaToStr kind m hdr) (2 ^ 62 + 1) .fields with
    s | ⟨passed, _ | halt⟩
  · rw [hrun] at h
    cases h
  · exact ⟨passed, kind, hkind, _, hrun⟩
  · rw [hrun] at h
    cases h

/-- **Messages**: a well-formed message is dumped just when it can be printed. -/
theorem netlinkMsgDump_iff (afMax : ℕ) (hwf : WellFormedAt m hdr) :
    netlinkMsgDump afMax m hdr = .ok () ↔ Printable afMax m hdr := by
  have hifi := inArray_eq_ok_iff FlagsStr.nameLong (show 0 < 100 by norm_num) (ifiFlagsOf m hdr)
    ifiFlags
  have hattrs (kind) (hkind : msgKind (nlmsgType m hdr) = some kind) :
      (∀ kind', msgKind (nlmsgType m hdr) = some kind' → PrintableAttrs kind' m hdr) ↔
        dumpAttrs kind m hdr = .ok () := by
    rw [dumpAttrs_iff_printable hkind hwf, hkind]
    simp only [Option.some.injEq, forall_eq']
  rw [netlinkMsgDump, bind_eq_ok_iff, bind_eq_ok_iff, nlmsgFlagsToStrGet_eq_ok_iff,
    nlmsgFlagsToStrNew_eq_ok_iff, printable_iff]
  refine and_congr_right fun _ => and_congr_right fun _ => ?_
  cases hkind : msgKind (nlmsgType m hdr) with
  | none => simp [pure, Except.pure]
  | some kind =>
      rw [← hkind, hattrs kind hkind, hkind, ← ifaFamilyToStr_eq_ok_iff,
        ← rtnTypeToStr_eq_ok_iff, ← hifi]
      cases kind with
      | link => simp [netlinkLinkMsgDump, bind_eq_ok_iff, ifiFlagsToStr, snprintflagsLong]
      | addr => simp [netlinkAddrMsgDump, bind_eq_ok_iff]
      | route => simp [netlinkRouteMsgDump, bind_eq_ok_iff]
      | neigh => simp [netlinkNeighMsgDump]

/-! ### The whole run -/

/-- The handler takes all calls when each message is dumped, and otherwise keeps why one was
not. -/
theorem deliver_dumpMsg (afMax : ℕ) : ∀ cs : List Call,
    ((∀ c ∈ cs, netlinkMsgDump afMax c.1 c.2 = .ok ()) →
        deliver (dumpMsg afMax) none cs = ⟨none, cs, none⟩) ∧
      ((deliver (dumpMsg afMax) none cs).st = none →
        ∀ c ∈ cs, netlinkMsgDump afMax c.1 c.2 = .ok ())
  | [] => ⟨fun _ => rfl, fun _ c hc => absurd hc List.not_mem_nil⟩
  | c :: cs => by
      obtain ⟨ih, ih'⟩ := deliver_dumpMsg afMax cs
      rw [deliver] at ih ih' ⊢
      cases hc : netlinkMsgDump afMax c.1 c.2 with
      | error halt =>
          have htake : take (dumpMsg afMax) none c = (some halt, -1) := by
            simp only [take, dumpMsg, hc]
          rw [feed_cons_of_halts (by rw [htake]; norm_num), htake]
          refine ⟨fun hall => ?_, fun hst => by cases hst⟩
          rw [hall c (.head _)] at hc
          cases hc
      | ok u =>
          have htake : take (dumpMsg afMax) none c = (none, 0) := by simp only [take, dumpMsg, hc]
          rw [feed_cons_of_not (by rw [htake]; norm_num), htake]
          constructor
          · intro hall
            rw [ih fun d hd => hall d (.tail _ hd)]
          · intro hst d hd
            rcases List.mem_cons.mp hd with rfl | hd
            · exact hc
            · exact ih' hst d hd

/-- **Monitor**: on any run of well-formed messages the monitor dumps each message received and
goes on until the events end, exactly when each of them can be printed where it lies. -/
theorem monitor_survives_iff (afMax : ℕ) (buf : Mem) (es : List Event)
    (hwf : ∀ msg ∈ received es, Message.WellFormed msg) :
    Survives afMax buf es ↔ ∀ c ∈ planned buf es, Printable afMax c.1 c.2 := by
  have hat : ∀ c ∈ planned buf es, WellFormedAt c.1 c.2 := by
    intro c hc
    obtain ⟨hlen, hholds⟩ := List.forall₂_iff_get.mp (planned_messages es buf)
    obtain ⟨i, rfl⟩ := List.mem_iff_get.mp hc
    have hi : i.1 < (received es).length := hlen ▸ i.2
    exact (hwf _ (List.get_mem _ ⟨i.1, hi⟩)).at (hholds i.1 i.2 hi)
  have hdump : (∀ c ∈ planned buf es, netlinkMsgDump afMax c.1 c.2 = .ok ()) ↔
      ∀ c ∈ planned buf es, Printable afMax c.1 c.2 :=
    forall₂_congr fun c hc => netlinkMsgDump_iff afMax (hat c hc)
  have hrun : Exits (netlinkListen (dumpMsg afMax)) _ _ := netlinkListen_run es buf none []
  obtain ⟨hall, hsome⟩ := deliver_dumpMsg afMax (planned buf es)
  rw [← hdump]
  constructor
  · intro hsurvives
    have hst := congrArg Outcome.st (hsurvives.unique hrun)
    exact hsome hst.symm
  · intro hok
    rw [hall hok] at hrun
    exact hrun

/-- A multicast route as the kernel reports it: its family is `RTNL_FAMILY_IPMR`. -/
def ipmrRoute : Message :=
  ⟨[28, 0, 0, 0, 24, 0, 0, 0, 0, 0, 0, 0, 0, 0, 0, 0, 128, 32, 32, 0, 253, 17, 0, 5, 0, 0, 0, 0],
    [], by decide, by decide, by decide⟩

theorem wellFormed_ipmrRoute : ipmrRoute.WellFormed := by
  intro kind hkind
  cases Option.some.inj (show some MsgKind.route = some kind from hkind)
  exact ⟨by decide, [], rfl, fun a ha => absurd ha List.not_mem_nil⟩

def ipmrEvent : Event := .datagram ⟨[ipmrRoute], by decide, by decide⟩

theorem wellFormed_ipmrEvent : ∀ msg ∈ received [ipmrEvent], Message.WellFormed msg := by
  intro msg hmsg
  rw [List.mem_singleton.mp hmsg]
  exact wellFormed_ipmrRoute

theorem monitor_survives_iff_ipmr : Survives 46 (fun _ => 0) [ipmrEvent] ↔
    ∀ c ∈ planned (fun _ => 0) [ipmrEvent], Printable 46 c.1 c.2 :=
  monitor_survives_iff 46 _ _ wellFormed_ipmrEvent

theorem not_survives_ipmr : ¬ ∀ (buf : Mem) (es : List Event),
    (∀ msg ∈ received es, Message.WellFormed msg) → Survives 46 buf es := by
  intro h
  have hsurvives := h (fun _ => 0) [ipmrEvent] wellFormed_ipmrEvent
  have hprint := (deliver_dumpMsg 46 _).2 (congrArg Outcome.st (hsurvives.unique
    (netlinkListen_run _ _ _ _))).symm
  have hcall := hprint (write (fun _ => 0) 0 (encode [ipmrRoute]), 0) (.head _)
  rw [netlinkMsgDump_iff 46 (wellFormed_ipmrRoute.at (by decide))] at hcall
  have hfamily := hcall.family .route (by decide) (by decide)
  exact absurd hfamily (by decide)

end Hspp
