import Hspp.MonitorLog

/-! # The monitor's messages on `stderr`

A message of a kind that `netlink_msg_dump` does not know is dumped to `stderr`, behind a line
that says so.  In between there may be lines about unknown types; no line of these is taken for
a row of a dump, since a row begins with a digit of its offset.  So the bytes of the messages of
unknown kinds are read back from what a run prints to `stderr` (`err_reads_back`). -/

namespace Hspp

open CInt Feed Loop Memory Records Rows Text

/-! ### Reading -/

/-- The first character is that of a hexadecimal number. -/
def isRow (line : List UInt8) : Bool :=
  line.head?.any fun c => 48 ≤ c && c ≤ 57 || 97 ≤ c && c ≤ 102

/-- The line before a dump. -/
def isHead (line : List UInt8) : Bool := (ascii "netlink_msg_dump: ").isPrefixOf line

/-- The messages that were dumped. -/
def readErr (err : List UInt8) : List (List UInt8) :=
  (((lines err).filter fun l => isRow l || isHead l).splitOnP isHead).tail.map
    (·.flatMap undumpLine)

/-- A line that is no part of a dump. -/
def Noise (line : List UInt8) : Prop := (isRow line || isHead line) = false

/-! ### What is printed for a message -/

theorem noise_unknownErr (func : String) (hfunc : (10 : UInt8) ∉ ascii func)
    (hnoise : ∀ rest, Noise (ascii func ++ ascii ": unknown(" ++ rest)) (type : ℕ) :
    AllLines Noise (unknownErr func type) := by
  have hopen : (10 : UInt8) ∉ ascii ": unknown(" := by decide
  have hclose : (10 : UInt8) ∉ ascii ")" := by decide
  have hend : ascii ")\n" = ascii ")" ++ [10] := rfl
  rw [unknownErr, hend, ← List.append_assoc]
  refine allLines_line ?_ ?_
  · simp only [List.mem_append, not_or]
    exact ⟨⟨⟨hfunc, hopen⟩, notMem_printNum (by norm_num) (by norm_num) (by decide) 1 type⟩, hclose⟩
  · rw [List.append_assoc]
    exact hnoise _

theorem noise_nlmsgTypeErr (type : ℕ) : AllLines Noise (nlmsgTypeErr type) := by
  unfold nlmsgTypeErr
  split_ifs
  · exact allLines_nil
  · exact noise_unknownErr "nlmsg_type_to_str" (by decide) (fun _ => rfl) type

theorem noise_rtaTypeErr (type : ℕ) : AllLines Noise (rtaTypeErr type) := by
  unfold rtaTypeErr
  split_ifs
  · exact allLines_nil
  · exact noise_unknownErr "rta_type_to_str" (by decide) (fun _ => rfl) type

theorem noise_rtaToStrPrints (host : Host) (m : Mem) (rta : ℕ) :
    AllLines Noise (rtaToStrPrints host m rta).err := by
  unfold rtaToStrPrints
  split_ifs
  · exact allLines_nil
  · split
    · exact allLines_nil
    · exact noise_rtaTypeErr _
    · exact noise_rtaTypeErr _

theorem noise_attrPrints (host : Host) (strlen : ℕ) (m : Mem) (s : AttrLoop) :
    AllLines Noise (attrPrints host strlen m s).err := by
  unfold attrPrints
  split_ifs
  · split
    · exact allLines_nil
    · exact (noise_rtaToStrPrints host m s.rta).append allLines_nil
  · exact allLines_nil

theorem noise_printAttrs {host : Host} {kind : MsgKind} {m : Mem} {hdr : ℕ} {p : Printed}
    (h : printAttrs host kind m hdr = .ok p) : AllLines Noise p.err := by
  unfold printAttrs at h
  split at h
  · cases h
  · cases h
  · rename_i passed p' hrun
    cases h
    exact run_traced_induct (P := fun p => AllLines Noise p.err)
      (fun s t o _ _ ho => ho.append (noise_attrPrints host _ m s))
      (fun s o _ ho => ho.append (noise_attrPrints host _ m s)) hrun allLines_nil

/-- The line before the dump of a message of unknown kind. -/
def headLine (type : ℕ) : List UInt8 :=
  ascii "netlink_msg_dump: unknown type(" ++ printNum 10 1 type ++ ascii ")"

theorem isHead_headLine (type : ℕ) : isHead (headLine type) = true := rfl

theorem newline_notMem_headLine (type : ℕ) : (10 : UInt8) ∉ headLine type := by
  have hopen : (10 : UInt8) ∉ ascii "netlink_msg_dump: unknown type(" := by decide
  have hclose : (10 : UInt8) ∉ ascii ")" := by decide
  simp only [headLine, List.mem_append, not_or]
  exact ⟨⟨hopen, notMem_printNum (by norm_num) (by norm_num) (by decide) 1 type⟩, hclose⟩

/-- A row of a dump is one, and no head. -/
theorem isRow_hexdumpLine (row : ℕ) (bytes : List UInt8) :
    isRow (hexdumpLine row bytes) = true ∧ isHead (hexdumpLine row bytes) = false := by
  have hdigit : ∀ c ∈ printNum 16 4 row, (48 ≤ c ∧ c ≤ 57 ∨ 97 ≤ c ∧ c ≤ 102) ∧ c ≠ 110 :=
    forall_mem_printNum (by norm_num) le_rfl (by decide)
  obtain ⟨rest, hrest⟩ := hexdumpLine_starts row bytes
  have hpos : 0 < (printNum 16 4 row).length := by
    rw [printNum, List.length_map, List.length_append, List.length_replicate, List.length_reverse]
    omega
  obtain ⟨c, cs, hc⟩ := List.exists_cons_of_length_pos hpos
  obtain ⟨hrange, hne⟩ := hdigit c (hc ▸ .head _)
  have hn : (110 == c) = false := beq_eq_false_iff_ne.mpr hne.symm
  have hhead : ascii "netlink_msg_dump: " = 110 :: ascii "etlink_msg_dump: " := rfl
  rw [← hrest, hc]
  constructor
  · simpa [isRow] using hrange
  · rw [isHead, hhead, List.cons_append, List.cons_append, List.isPrefixOf_cons_cons, hn,
      Bool.false_and]

/-- The message of a call is of a kind that is not known. -/
def isUnknown (c : Call) : Bool := (msgKind (nlmsgType c.1 c.2)).isNone

/-- The rows of the dump of its message. -/
def dumpRows (c : Call) : List (List UInt8) :=
  dumpLines 16 hexdumpLine 0 (bytesAt c.1 c.2 (nlmsgLen c.1 c.2))

/-- The lines of a dump, with the line before it. -/
def dumpOf (c : Call) : List (List UInt8) := headLine (nlmsgType c.1 c.2) :: dumpRows c

theorem filter_noise {text : List UInt8} (h : AllLines Noise text) :
    (lines text).filter (fun l => isRow l || isHead l) = [] :=
  List.filter_eq_nil_iff.mpr fun l hl => by rw [h.all l hl]; exact Bool.false_ne_true

theorem filter_dumpOf (c : Call) :
    (dumpOf c).filter (fun l => isRow l || isHead l) = dumpOf c := by
  refine List.filter_eq_self.mpr fun l hl => ?_
  rcases List.mem_cons.mp hl with rfl | hl
  · rw [isHead_headLine, Bool.or_true]
  · obtain ⟨r, -, rfl⟩ := List.mem_map.mp hl
    rw [(isRow_hexdumpLine _ _).1, Bool.true_or]

theorem err_unknownMsgPrint (m : Mem) (hdr : ℕ) :
    (unknownMsgPrint m hdr).err = (dumpOf (m, hdr)).flatMap (· ++ [10]) := by
  have hend : ascii ")\n" = ascii ")" ++ [10] := rfl
  rw [dumpOf, List.flatMap_cons, headLine, unknownMsgPrint, hend]
  simp only [List.append_assoc]
  rfl

theorem newline_notMem_dumpOf (c : Call) : ∀ l ∈ dumpOf c, (10 : UInt8) ∉ l := by
  intro l hl
  rcases List.mem_cons.mp hl with rfl | hl
  · exact newline_notMem_headLine _
  · obtain ⟨r, -, rfl⟩ := List.mem_map.mp hl
    exact newline_notMem_hexdumpLine _ _

theorem lines_err_msgKindPrint {host : Host} {c : Call} {p : Printed}
    (h : msgKindPrint host c.1 c.2 = .ok p) : Whole p.err ∧
      (lines p.err).filter (fun l => isRow l || isHead l) =
        if isUnknown c then dumpOf c else [] := by
  rw [msgKindPrint_eq] at h
  unfold isUnknown
  cases hkind : msgKind (nlmsgType c.1 c.2) with
  | none =>
      rw [hkind] at h
      cases h
      rw [err_unknownMsgPrint, lines_flatMap (newline_notMem_dumpOf c), filter_dumpOf]
      exact ⟨whole_flatMap (newline_notMem_dumpOf c), rfl⟩
  | some kind =>
      rw [hkind] at h
      obtain ⟨text, attrs, -, hattrs, rfl⟩ := printStruct_eq_ok h
      have hnoise := noise_printAttrs hattrs
      exact ⟨hnoise.whole, filter_noise hnoise⟩

/-- **One message**: what is printed of it to `stderr` is noise, but for the dump of a message
of unknown kind. -/
theorem lines_err {host : Host} {c : Call} {p : Printed} (h : CallPrints host c p) :
    Whole p.err ∧ (lines p.err).filter (fun l => isRow l || isHead l) =
      if isUnknown c then dumpOf c else [] := by
  unfold CallPrints netlinkMsgPrint at h
  cases hhead : printFields host c.1 c.2 hdrFields with
  | error e => rw [hhead] at h; cases h
  | ok head =>
      cases hbody : msgKindPrint host c.1 c.2 with
      | error e => rw [hhead, hbody] at h; cases h
      | ok body =>
          rw [hhead, hbody] at h
          cases h
          obtain ⟨hwhole, hfilter⟩ := lines_err_msgKindPrint hbody
          have hnoise := (noise_nlmsgTypeErr (nlmsgType c.1 c.2)).append
            (noise_nlmsgTypeErr (nlmsgType c.1 c.2))
          simp only [Printed.err_append, List.append_nil]
          refine ⟨hnoise.whole.append hwhole, ?_⟩
          rw [lines_append hnoise.whole, List.filter_append, filter_noise hnoise, hfilter,
            List.nil_append]

/-! ### The whole run -/

theorem lines_errs {host : Host} : ∀ {cs : List Call} {ps : List Printed},
    List.Forall₂ (CallPrints host) cs ps → Whole (ps.flatMap Printed.err) ∧
      (lines (ps.flatMap Printed.err)).filter (fun l => isRow l || isHead l) =
        (cs.filter isUnknown).flatMap dumpOf
  | _, _, .nil => ⟨whole_nil, rfl⟩
  | c :: cs, p :: ps, .cons hp hps => by
      obtain ⟨hwhole, hfilter⟩ := lines_err hp
      obtain ⟨hwhole', hfilter'⟩ := lines_errs hps
      rw [List.flatMap_cons, lines_append hwhole, List.filter_append, hfilter, hfilter',
        List.filter_cons]
      refine ⟨hwhole.append hwhole', ?_⟩
      split_ifs
      · rw [List.flatMap_cons]
      · rw [List.nil_append]

theorem noise_listenErr : ∀ es : List Event, AllLines Noise (listenErr es)
  | [] => allLines_nil
  | .datagram _ :: es => noise_listenErr es
  | .fail errno :: es => by
      rw [listenErr]
      split_ifs
      · exact noise_listenErr es
      · exact allLines_nil
  | .eof :: _ => allLines_line (l := ascii "EOF on netlink") (by decide) rfl

/-- The bytes of the messages of unknown kind. -/
def unknownMessages (msgs : List Message) : List (List UInt8) :=
  (msgs.filter fun msg => (msgKind msg.type).isNone).map (·.bytes)

/-- The bytes that are dumped are those of the messages of unknown kind. -/
theorem dumped_eq : ∀ {cs : List Call} {msgs : List Message},
    List.Forall₂ (fun c msg => Holds c.1 c.2 msg.bytes) cs msgs →
      (cs.filter isUnknown).map (fun c => bytesAt c.1 c.2 (nlmsgLen c.1 c.2)) =
        unknownMessages msgs
  | _, _, .nil => rfl
  | c :: cs, msg :: msgs, .cons hc hrest => by
      have ih := dumped_eq hrest
      have hunknown : isUnknown c = (msgKind msg.type).isNone := by
        rw [isUnknown, Message.nlmsgType_eq hc]
      unfold unknownMessages at ih ⊢
      rw [List.filter_cons, List.filter_cons, hunknown]
      split_ifs
      · rw [List.map_cons, List.map_cons, ih, Message.nlmsgLen_eq hc]
        exact congrArg (· :: _) hc
      · exact ih

/-- **Unknown messages**: from what a run prints to `stderr` the messages of the kinds that the
monitor does not know are read back, byte by byte and in order. -/
theorem err_reads_back {host : Host} {buf : Mem} {es : List Event} {p : Printed}
    (hprints : Prints host buf es p) : readErr p.err = unknownMessages (received es) := by
  obtain ⟨ps, hps, rfl⟩ := prints_iff.mp hprints
  obtain ⟨hwhole, hfilter⟩ := lines_errs hps
  have hrows : ∀ c ∈ (planned buf es).filter isUnknown,
      isHead (headLine (nlmsgType c.1 c.2)) = true ∧ ∀ l ∈ dumpRows c, isHead l = false := by
    refine fun c _ => ⟨isHead_headLine _, fun l hl => ?_⟩
    obtain ⟨r, -, rfl⟩ := List.mem_map.mp hl
    exact (isRow_hexdumpLine _ _).2
  have hsplit := splitOnP_heads [] (fun l hl => absurd hl List.not_mem_nil) hrows
  rw [readErr, Printed.err_append]
  change (((lines (ps.flatMap Printed.err ++ listenErr es)).filter _).splitOnP isHead).tail.map _ =
    _
  rw [lines_append hwhole, List.filter_append, filter_noise (noise_listenErr es), List.append_nil,
    hfilter, ← dumped_eq (planned_messages es buf)]
  rw [List.nil_append] at hsplit
  unfold dumpOf
  rw [hsplit, List.tail_cons, List.map_map]
  exact List.map_congr_left fun c _ => flatMap_undumpLine 0 _

/-- A routing rule; the monitor does not know this kind. -/
def ruleMsg : Message :=
  ⟨[28, 0, 0, 0, 32, 0, 0, 0, 0, 0, 0, 0, 0, 0, 0, 0, 2, 0, 0, 0, 254, 0, 0, 1, 0, 0, 0, 0],
    [], by decide, by decide, by decide⟩

def ruleEvent : Event := .datagram ⟨[ruleMsg, neighMsg], by decide, by decide⟩

/-- Both messages are printed. -/
theorem exists_prints_rule : ∃ p, Prints someHost (fun _ => 0) [ruleEvent] p := by
  have hok : ∀ c ∈ planned (fun _ => 0) [ruleEvent],
      (netlinkMsgPrint someHost c.1 c.2).isOk = true := by
    intro c hc
    change c ∈ [(write (fun _ => 0) 0 (encode [ruleMsg, neighMsg]), 0),
      (write (fun _ => 0) 0 (encode [ruleMsg, neighMsg]), 28)] at hc
    rcases List.mem_pair.mp hc with rfl | rfl <;> decide +kernel
  obtain ⟨ps, hps⟩ := exists_forall₂_iff.mpr fun c hc => by
    have h := hok c hc
    cases hp : netlinkMsgPrint someHost c.1 c.2 with
    | error halt => rw [hp] at h; cases h
    | ok p => exact (⟨p, hp⟩ : ∃ p, CallPrints someHost c p)
  exact ⟨_, prints_iff.mpr ⟨ps, hps, rfl⟩⟩

theorem err_reads_back_rule : ∃ p, Prints someHost (fun _ => 0) [ruleEvent] p ∧
    readErr p.err = [ruleMsg.bytes] := by
  obtain ⟨p, hp⟩ := exists_prints_rule
  exact ⟨p, hp, (err_reads_back hp).trans rfl⟩

end Hspp
