import Hspp.MonitorErr
import Hspp.RtaToStrReads

/-! # What is printed depends on the messages only

A message is `SelfContained` when all that `rta_to_str` reads for its attributes lies in them,
and a call is `Fenced` when the loop does not take the bytes behind the message for one more
attribute.  For such calls the dump prints the same wherever the message lies
(`netlinkMsgPrint_congr`).  So what a monitor prints depends neither on what was in the buffer
before nor on how the messages are put into datagrams (`prints_of_same_messages`). -/

namespace Hspp

open CInt Feed Loop Memory Memory.Access Records Rows Text

/-! ### Attributes -/

/-- The attribute is no `IFLA_LINKINFO`, and what the block for its type reads is in its
payload. -/
structure Attr.SelfContained (a : Attr) : Prop where
  type : a.type ≠ IFLA_LINKINFO
  covers : match rtaCase a.type with
    | .ifname => (0 : UInt8) ∈ a.payload
    | c => c.width ≤ a.payload.length

theorem rtaBlock_shift (name : List UInt8) (d rta len : ℕ) (m : Mem) (block : RtaCase) :
    (rtaBlock name rta len block).val (shift d m) = (rtaBlock name (d + rta) len block).val m := by
  cases block with
  | stats64 =>
      simp only [rtaBlock, val_bind, val_pure, val_nums_shift, Nat.add_assoc]
  | stats =>
      simp only [rtaBlock, val_bind, val_pure, val_nums_shift, Nat.add_assoc]
  | map =>
      simp only [rtaBlock, val_bind, val_pure, val_nums_shift, Nat.add_assoc]
  | promiscuity =>
      have hnum : (num (rta + 4) 4).val (shift d m) = (num (d + rta + 4) 4).val m := by
        rw [val_num, val_num, bytesAt_shift, Nat.add_assoc]
      exact congrArg (fun promisc => (Except.ok (name ++ ascii (if promisc = 0 then
        " <promisc=off>" else " <promisc=on>")) : Except Halt (List UInt8))) hnum
  | _ =>
      simp only [rtaBlock, val_bind, val_pure, val_num, val_bytes, val_str, bytesAt_shift,
        Nat.add_assoc]

theorem rtaText_shift (rta len : ℕ) (m : Mem) :
    (rtaText 0 len).val (shift rta m) = (rtaText rta len).val m := by
  simp only [rtaText, val_bind, val_num, bytesAt_shift, rtaBlock_shift]
  rfl

section attr

variable {a : Attr} {m m' : Mem} {o o' : ℕ}

theorem Attr.SelfContained.coversReads (h : a.SelfContained) (ha : Holds m 0 a.bytes) :
    CoversReads m 0 := by
  have hpay : bytesAt m (0 + 4) (rtattrLen m 0 - 4) = a.payload := by
    rw [Attr.rtattrLen_eq ha, ← a.length_payload]
    exact Attr.holds_payload ha
  have hcovers := h.covers
  unfold CoversReads
  rw [hpay, Attr.rtattrType_eq ha, Attr.rtattrLen_eq ha, ← a.length_payload]
  exact hcovers

/-- The text of an attribute is the same wherever the attribute lies. -/
theorem rtaToStr_congr (h : a.SelfContained) (ha : Holds m o a.bytes) (ha' : Holds m' o' a.bytes)
    (strlen : ℕ) : rtaToStr m o strlen = rtaToStr m' o' strlen := by
  have hval : (rtaText o strlen).val m = (rtaText o' strlen).val m' := by
    have hlen := Attr.rtattrLen_eq ha.shift
    have hconfined := (rtaText_confined_iff (hlen ▸ a.hdr_le) strlen).mpr (h.coversReads ha.shift)
    have hagree : Agree (shift o m) (shift o' m') 0 (rtattrLen (shift o m) 0) := by
      rw [agree_iff, hlen, ha.shift, ha'.shift]
    rw [← rtaText_shift o, hconfined.val_eq hagree, rtaText_shift]
  unfold rtaToStr
  rw [Attr.rtattrType_eq ha, Attr.rtattrType_eq ha', if_neg h.type, if_neg h.type, hval]

/-- And so is what is printed with it. -/
theorem rtaToStrPrints_congr (h : a.SelfContained) (ha : Holds m o a.bytes)
    (ha' : Holds m' o' a.bytes) (host : Host) :
    rtaToStrPrints host m o = rtaToStrPrints host m' o' := by
  have hdump : hexdumpText m o a.bytes.length = hexdumpText m' o' a.bytes.length := by
    rw [hexdumpText, hexdumpText, ha, ha']
  unfold rtaToStrPrints
  rw [Attr.rtattrType_eq ha, Attr.rtattrType_eq ha', if_neg h.type, if_neg h.type,
    Attr.rtattrLen_eq ha, Attr.rtattrLen_eq ha', hdump]

end attr

/-- The memory that holds the attribute and zeros. -/
def Attr.mem (a : Attr) : Mem := write (fun _ => 0) 0 a.bytes

theorem Attr.holds_mem (a : Attr) : Holds a.mem 0 a.bytes := holds_write _ _ _

/-- What is printed for attribute `i` of a message, with a buffer of `strlen` bytes. -/
def Attr.printed (host : Host) (strlen i : ℕ) (a : Attr) : Printed :=
  match rtaToStr a.mem 0 strlen with
  | .error _ => ∅
  | .ok str => rtaToStrPrints host a.mem 0 ++ ⟨attrLine i (cstr str), []⟩

/-- What is printed for attributes, the first of them attribute `i`. -/
def printedAttrs (host : Host) (strlen : ℕ) : ℕ → List Attr → Printed
  | _, [] => ∅
  | i, a :: as => a.printed host strlen i ++ printedAttrs host strlen (i + 1) as

section loop

variable {host : Host} {strlen : ℕ} {m : Mem}

theorem attrPrints_eq {a : Attr} {o n : ℕ} (h : a.SelfContained) (ha : Holds m o a.bytes)
    (hok : rtaOk m o n) (passed : List ℕ) :
    attrPrints host strlen m ⟨o, n, passed⟩ = a.printed host strlen passed.length := by
  unfold attrPrints Attr.printed
  rw [if_pos hok, rtaToStr_congr h ha a.holds_mem]
  cases rtaToStr a.mem 0 strlen with
  | error e => rfl
  | ok str => simp only [rtaToStrPrints_congr h ha a.holds_mem]

variable (host strlen) in
/-- The loop over attributes for which `rta_to_str` returns. -/
theorem printLoop_reaches : ∀ (attrs : List Attr) (o e : ℕ) (passed : List ℕ) (p : Printed),
    Holds m o (encode attrs) → (encode attrs).length + e < 2 ^ 64 →
    (∀ a ∈ attrs, a.SelfContained) → (∀ o' ∈ starts o attrs, Returns rtaToStr strlen m o') →
    run (traced (attrPrints host strlen m) (attrLoop rtaToStr strlen m)) attrs.length
        (⟨o, (encode attrs).length + e, passed⟩, p) =
      .inl (⟨o + (encode attrs).length, e, passed ++ starts o attrs⟩,
        p ++ printedAttrs host strlen passed.length attrs)
  | [], o, e, passed, p, _, _, _, _ => by
      rw [encode_nil, starts_nil, List.append_nil, printedAttrs, Printed.append_empty]
      simp only [List.length_nil, Nat.zero_add, Nat.add_zero, run_zero]
  | a :: as, o, e, passed, p, hmem, hlt, hself, hr => by
      rw [holds_encode_cons] at hmem
      rw [length_encode_cons, Nat.add_assoc] at hlt ⊢
      rw [starts_cons, List.forall_mem_cons] at hr
      rw [List.forall_mem_cons] at hself
      have ha := Record.holds_bytes hmem.1
      obtain ⟨hok, hnext⟩ := attrLoop_record rtaToStr strlen ((encode as).length + e) passed ha
      have hround : traced (attrPrints host strlen m) (attrLoop rtaToStr strlen m)
          (⟨o, roundUp 4 a.bytes.length + ((encode as).length + e), passed⟩, p) =
          .inl (⟨o + roundUp 4 a.bytes.length, (encode as).length + e, passed ++ [o]⟩,
            p ++ a.printed host strlen passed.length) := by
        rw [traced, hnext hr.1 hlt, attrPrints_eq hself.1 ha hok]
      have ih := printLoop_reaches as (o + roundUp 4 a.bytes.length) e (passed ++ [o])
        (p ++ a.printed host strlen passed.length) hmem.2 (by omega) hself.2 hr.2
      rw [List.append_assoc, List.singleton_append, Nat.add_assoc o, Printed.append_assoc,
        List.length_append, List.length_singleton] at ih
      rw [List.length_cons, run_succ_of_inl _ hround]
      exact ih

end loop

/-- The loop does not take what lies behind the message for an attribute. -/
def Fenced (kind : MsgKind) (m : Mem) (hdr : ℕ) : Prop :=
  ¬ (4 ≤ rtattrLen m (hdr + nlmsgLen m hdr) ∧ rtattrLen m (hdr + nlmsgLen m hdr) ≤ kind.fixed - 8)

section message

variable {host : Host} {kind : MsgKind} {m m' : Mem} {hdr hdr' : ℕ} {attrs : List Attr}
  {p : Printed}

theorem rtaOk_of_not_fenced (h : Fenced kind m hdr) :
    ¬ rtaOk m (hdr + nlmsgLen m hdr) (kind.fixed - 8) := fun hok => h hok.2

/-- Self-contained attributes return where they lie just when they do for themselves. -/
theorem returns_starts_iff {o strlen : ℕ} (hmem : Holds m o (encode attrs))
    (hself : ∀ a ∈ attrs, a.SelfContained) :
    (∀ o' ∈ starts o attrs, Returns rtaToStr strlen m o') ↔
      ∀ a ∈ attrs, Returns rtaToStr strlen a.mem 0 := by
  constructor
  · intro hr a ha
    obtain ⟨o', ho', hbytes⟩ := exists_start_of_mem hmem ha
    obtain ⟨str, hstr⟩ := hr o' ho'
    exact ⟨str, by rw [← hstr, rtaToStr_congr (hself a ha) (Attr.holds_mem a) hbytes]⟩
  · intro hr o' ho'
    obtain ⟨a, ha, hbytes, -, -⟩ := holds_of_mem_starts hmem ho'
    obtain ⟨str, hstr⟩ := hr a ha
    exact ⟨str, by rw [← hstr, rtaToStr_congr (hself a ha) hbytes (Attr.holds_mem a)]⟩

variable (host) in
theorem printAttrs_of_returns (h : HasAttrs m hdr kind attrs)
    (hself : ∀ a ∈ attrs, a.SelfContained) (hf : Fenced kind m hdr)
    (hr : ∀ a ∈ attrs, Returns rtaToStr kind.strlen a.mem 0) :
    printAttrs host kind m hdr = .ok (printedAttrs host kind.strlen 0 attrs) := by
  have hlt := nlmsgLen_lt m hdr
  have hlen := h.len
  have hfix := kind.fixed_mem
  have hcount := length_mul_le_length_encode (by norm_num) attrs
  have hend : hdr + 16 + kind.fixed + (encode attrs).length = hdr + nlmsgLen m hdr := by omega
  have hreach := printLoop_reaches host kind.strlen attrs
    (hdr + 16 + kind.fixed) (kind.fixed - 8) [] ∅ h.holds (by omega) hself
    ((returns_starts_iff h.holds hself).mpr hr)
  rw [← start_eq h.len, hend, List.nil_append, Printed.empty_append, List.length_nil] at hreach
  have hno := rtaOk_of_not_fenced hf
  have hlast : traced (attrPrints host kind.strlen m) (attrLoop rtaToStr kind.strlen m)
      (⟨hdr + nlmsgLen m hdr, kind.fixed - 8, starts (hdr + 16 + kind.fixed) attrs⟩,
        printedAttrs host kind.strlen 0 attrs) =
      .inr ((starts (hdr + 16 + kind.fixed) attrs, none),
        printedAttrs host kind.strlen 0 attrs) := by
    rw [traced, attrLoop_done hno, attrPrints, if_neg hno, Printed.append_empty]
  have hrun : run (traced (attrPrints host kind.strlen m) (attrLoop rtaToStr kind.strlen m))
      (2 ^ 62) (kind.start m hdr, ∅) = _ :=
    run_mono (j := attrs.length + 1) (by omega)
      (by rw [run_add_of_inl 1 hreach]; exact run_succ_of_inr 0 hlast)
  rw [printAttrs, hrun]

theorem printAttrs_eq_ok_iff (h : HasAttrs m hdr kind attrs)
    (hself : ∀ a ∈ attrs, a.SelfContained) (hf : Fenced kind m hdr) :
    printAttrs host kind m hdr = .ok p ↔ (∀ a ∈ attrs, Returns rtaToStr kind.strlen a.mem 0) ∧
      p = printedAttrs host kind.strlen 0 attrs := by
  constructor
  · intro hp
    have hdump : dumpAttrs kind m hdr = .ok () := by
      rw [← printAttrs_returns host, hp]
      rfl
    have hr := (returns_starts_iff h.holds hself).mp ((dumpAttrs_iff h).mp hdump).1
    have hok := printAttrs_of_returns host h hself hf hr
    rw [hp] at hok
    exact ⟨hr, Except.ok.inj hok⟩
  · rintro ⟨hr, rfl⟩
    exact printAttrs_of_returns host h hself hf hr

theorem printFields_congr {o o' : ℕ} : ∀ {fs : List Field},
    (∀ f ∈ fs, f.num m o = f.num m' o') → printFields host m o fs = printFields host m' o' fs
  | [], _ => rfl
  | f :: fs, h => by
      rw [printFields, printFields, h f (.head _),
        printFields_congr fun g hg => h g (.tail _ hg)]

end message

/-! ### Messages -/

/-- A message of one of the four kinds is its fixed structure and self-contained attributes. -/
def Message.SelfContained (msg : Message) : Prop :=
  ∀ kind, msgKind msg.type = some kind → 16 + kind.fixed ≤ msg.bytes.length ∧
    ∃ attrs : List Attr, msg.bytes.drop (16 + kind.fixed) = encode attrs ∧
      ∀ a ∈ attrs, a.SelfContained

/-- The dump does not look behind the message of a call. -/
def FencedCall (c : Call) : Prop :=
  ∀ kind, msgKind (nlmsgType c.1 c.2) = some kind → Fenced kind c.1 c.2

theorem Field.num_congr {f : Field} {m m' : Mem} {o o' : ℕ} {bytes : List UInt8}
    (h : Holds m o bytes) (h' : Holds m' o' bytes) (hle : f.offset + f.width ≤ bytes.length) :
    f.num m o = f.num m' o' := by
  have hbytes {m : Mem} {o : ℕ} (h : Holds m o bytes) :=
    (h.drop (k := f.offset) (by omega)).bytesAt_eq (k := f.width)
      (by rw [List.length_drop]; omega)
  rw [Field.num, Field.num, hbytes h, hbytes h']

theorem msgKindPrint_congr {host : Host} {msg : Message} (hself : msg.SelfContained) {c c' : Call}
    (hc : Holds c.1 c.2 msg.bytes) (hc' : Holds c'.1 c'.2 msg.bytes) (hf : FencedCall c)
    (hf' : FencedCall c') {p : Printed} (h : msgKindPrint host c.1 c.2 = .ok p) :
    msgKindPrint host c'.1 c'.2 = .ok p := by
  have htype := Message.nlmsgType_eq hc
  have htype' := Message.nlmsgType_eq hc'
  rw [msgKindPrint_eq, htype] at h
  rw [msgKindPrint_eq, htype']
  cases hkind : msgKind msg.type with
  | none =>
      rw [hkind] at h
      cases h
      simp only
      rw [unknownMsgPrint, unknownMsgPrint, htype, htype', hexdumpText, hexdumpText,
        Message.nlmsgLen_eq hc, Message.nlmsgLen_eq hc', hc, hc']
  | some kind =>
      rw [hkind] at h
      obtain ⟨hle, attrs, hattrs, hself⟩ := hself kind hkind
      have hlen := congrArg List.length hattrs
      rw [List.length_drop] at hlen
      have hhas {c : Call} (hc : Holds c.1 c.2 msg.bytes) : HasAttrs c.1 c.2 kind attrs := by
        refine ⟨(Message.nlmsgType_eq hc).symm ▸ hkind, ?_, ?_⟩
        · rw [Message.nlmsgLen_eq hc]
          omega
        · rw [Nat.add_assoc, ← hattrs]
          exact hc.drop hle
      obtain ⟨text, attrsText, htext, hprint, rfl⟩ := printStruct_eq_ok h
      have hfields : printFields host c'.1 (fixedPtr c'.2) kind.fields = .ok text := by
        rw [← htext]
        refine printFields_congr fun f hfmem => Field.num_congr (hc'.drop (k := 16) (by omega))
          (hc.drop (k := 16) (by omega)) ?_
        have hfield := le_of_mem_fields kind f hfmem
        rw [List.length_drop]
        omega
      rw [printAttrs_eq_ok_iff (hhas hc) hself (hf kind (htype.symm ▸ hkind)),
        ← printAttrs_eq_ok_iff (hhas hc') hself (hf' kind (htype'.symm ▸ hkind))] at hprint
      simp only
      rw [printStruct, hfields, hprint]
      rfl

/-- **One message**: a self-contained message prints the same wherever it lies, when the dump does
not look behind it. -/
theorem netlinkMsgPrint_congr {host : Host} {msg : Message} (hself : msg.SelfContained)
    {c c' : Call} (hc : Holds c.1 c.2 msg.bytes) (hc' : Holds c'.1 c'.2 msg.bytes)
    (hf : FencedCall c) (hf' : FencedCall c') {p : Printed} (h : CallPrints host c p) :
    CallPrints host c' p := by
  have hhdr := msg.hdr_le
  have hfields : printFields host c'.1 c'.2 hdrFields = printFields host c.1 c.2 hdrFields :=
    printFields_congr fun f hfmem => Field.num_congr hc' hc
      ((le_of_mem_hdrFields f hfmem).trans hhdr)
  unfold CallPrints netlinkMsgPrint at h ⊢
  rw [hfields]
  cases hhead : printFields host c.1 c.2 hdrFields with
  | error e => rw [hhead] at h; cases h
  | ok head =>
      cases hbody : msgKindPrint host c.1 c.2 with
      | error e => rw [hhead, hbody] at h; cases h
      | ok body =>
          rw [hhead, hbody] at h
          rw [msgKindPrint_congr hself hc hc' hf hf' hbody, Message.nlmsgType_eq hc',
            ← Message.nlmsgType_eq hc]
          exact h

/-! ### Runs -/

theorem forall₂_of_map_bytes_eq {host : Host} : ∀ {cs cs' : List Call} {msgs msgs' : List Message}
    {ps : List Printed}, List.Forall₂ (fun c msg => Holds c.1 c.2 msg.bytes) cs msgs →
    List.Forall₂ (fun c msg => Holds c.1 c.2 msg.bytes) cs' msgs' →
    msgs.map (·.bytes) = msgs'.map (·.bytes) → (∀ msg ∈ msgs, Message.SelfContained msg) →
    (∀ c ∈ cs, FencedCall c) → (∀ c ∈ cs', FencedCall c) →
    List.Forall₂ (CallPrints host) cs ps → List.Forall₂ (CallPrints host) cs' ps
  | _, _, _, _, _, .nil, .nil, _, _, _, _, .nil => .nil
  | _, _, _, _, _, .nil, .cons _ _, heq, _, _, _, _ => nomatch heq
  | _, _, _, _, _, .cons _ _, .nil, heq, _, _, _, _ => nomatch heq
  | c :: cs, c' :: cs', msg :: msgs, msg' :: msgs', p :: ps, .cons hc hcs, .cons hc' hcs', heq,
      hself, hf, hf', .cons hp hps => by
      obtain ⟨hbytes, hrest⟩ := List.cons_eq_cons.mp heq
      have hc' : Holds c'.1 c'.2 msg.bytes := by
        rw [show msg.bytes = msg'.bytes from hbytes]
        exact hc'
      refine .cons (netlinkMsgPrint_congr (hself msg (.head _)) hc hc' (hf c (.head _))
        (hf' c' (.head _)) hp) ?_
      exact forall₂_of_map_bytes_eq hcs hcs' hrest (fun msg h => hself msg (.tail _ h))
        (fun c h => hf c (.tail _ h)) (fun c h => hf' c (.tail _ h)) hps

/-- **Messages only**: when all messages are self-contained and no dump looks behind its message,
a monitor that receives the same messages in other datagrams, between other failures and in a
buffer with other contents prints the same. -/
theorem prints_of_same_messages {host : Host} {buf buf' : Mem} {es es' : List Event} {p : Printed}
    (hprints : Prints host buf es p)
    (hsame : (received es).map (·.bytes) = (received es').map (·.bytes))
    (hself : ∀ msg ∈ received es, Message.SelfContained msg)
    (hf : ∀ c ∈ planned buf es, FencedCall c) (hf' : ∀ c ∈ planned buf' es', FencedCall c) :
    ∃ p', Prints host buf' es' p' ∧ p'.out = p.out ∧
      ∃ err, p.err = err ++ listenErr es ∧ p'.err = err ++ listenErr es' := by
  obtain ⟨ps, hps, rfl⟩ := prints_iff.mp hprints
  have hps' := forall₂_of_map_bytes_eq (planned_messages es buf) (planned_messages es' buf') hsame
    hself hf hf' hps
  refine ⟨_, prints_iff.mpr ⟨ps, hps', rfl⟩, rfl, ps.flatMap Printed.err, rfl, rfl⟩

/-- The two messages in datagrams of their own, with an interrupted call in between. -/
def splitEvents : List Event :=
  [.datagram ⟨[ruleMsg], by decide, by decide⟩, .fail .EINTR, neighEvent]

/-- The address of the neighbour. -/
def dstAttr : Attr := ⟨[8, 0, 1, 0, 192, 168, 0, 1], [], by decide, by decide, by decide⟩

theorem selfContained_rule : ∀ msg ∈ received [ruleEvent], Message.SelfContained msg := by
  intro msg hmsg kind hkind
  rcases List.mem_pair.mp (show msg ∈ [ruleMsg, neighMsg] from hmsg) with rfl | rfl
  · cases (show (none : Option MsgKind) = some kind from hkind)
  · cases Option.some.inj (show some MsgKind.neigh = some kind from hkind)
    refine ⟨by decide, [dstAttr], rfl, fun a ha => ?_⟩
    rw [List.mem_singleton.mp ha]
    exact ⟨by decide, Nat.zero_le _⟩

theorem fencedCall_of_zeros : ∀ c ∈ planned (fun _ => 0) [ruleEvent], FencedCall c := by
  intro c hc kind hkind
  change c ∈ [(write (fun _ => 0) 0 (encode [ruleMsg, neighMsg]), 0),
    (write (fun _ => 0) 0 (encode [ruleMsg, neighMsg]), 28)] at hc
  rcases List.mem_pair.mp hc with rfl | rfl
  · cases (show (none : Option MsgKind) = some kind from hkind)
  · cases Option.some.inj (show some MsgKind.neigh = some kind from hkind)
    unfold Fenced
    decide +kernel

theorem fencedCall_split : ∀ c ∈ planned (fun _ => 0xff) splitEvents, FencedCall c := by
  intro c hc kind hkind
  change c ∈ [(write (fun _ => 0xff) 0 (encode [ruleMsg]), 0),
    (write (write (fun _ => 0xff) 0 (encode [ruleMsg])) 0 (encode [neighMsg]), 0)] at hc
  rcases List.mem_pair.mp hc with rfl | rfl
  · cases (show (none : Option MsgKind) = some kind from hkind)
  · cases Option.some.inj (show some MsgKind.neigh = some kind from hkind)
    unfold Fenced
    decide +kernel

theorem prints_of_same_messages_split : ∃ p p', Prints someHost (fun _ => 0) [ruleEvent] p ∧
    Prints someHost (fun _ => 0xff) splitEvents p' ∧ p'.out = p.out := by
  obtain ⟨p, hp⟩ := exists_prints_rule
  obtain ⟨p', hp', hout, -⟩ := prints_of_same_messages hp
    (show _ = (received splitEvents).map (·.bytes) from rfl)
    selfContained_rule fencedCall_of_zeros fencedCall_split
  exact ⟨p, p', hp, hp', hout⟩

end Hspp
