import Hspp.FlagsText
import Hspp.MonitorPrint
import Hspp.RtaToStrText

/-! # The lines of an entry

What `netlink_msg_dump` prints to `stdout` for a message is an entry of the monitor's log.  It
is made of whole lines, and the last of them is one that no other line begins with, unless a
name that is printed as it stands holds a newline (`PlainNames`).  The lines of an entry begin
with the fields of the header and of the fixed structure, in an order that depends on the type
only, so their numbers can be read back (`lines_netlinkMsgPrint`). -/

namespace Hspp

open CInt Feed Loop Memory Records Rows Text

/-! ### Texts without newlines -/

theorem newline_notMem_flagsText {name : FlagsStr → Name} {fstr : List FlagsStr}
    (h : ∀ f ∈ fstr, (10 : UInt8) ∉ (name f).text) (flags : BitVec 32) :
    (10 : UInt8) ∉ flagsText name flags fstr := by
  intro hmem
  rw [flagsText_eq] at hmem
  rcases mem_of_mem_intercalate hmem with hbar | ⟨s, hs, hc⟩
  · exact absurd hbar (by decide)
  · obtain ⟨i, -, rfl⟩ := List.mem_map.mp hs
    exact h _ (entry_mem fstr i) hc

/-- A flags text that is printed is that of the set bits. -/
theorem newline_notMem_inArray {fstr : List FlagsStr} {len : ℕ} (hlen : 0 < len)
    (h : ∀ f ∈ fstr, (10 : UInt8) ∉ f.nameLong.text) {flags : BitVec 32} {text : List UInt8}
    (htext : inArray len (snprintflagsLong len flags fstr) = .ok text) : (10 : UInt8) ∉ text := by
  have hfits := (inArray_eq_ok_iff FlagsStr.nameLong hlen flags fstr).mp ⟨text, htext⟩
  rw [snprintflagsLong, inArray_snprintflags hfits] at htext
  cases htext
  exact newline_notMem_flagsText h flags

/-- What is read of a buffer was formatted. -/
theorem mem_of_mem_snprintf {c : UInt8} {len : ℕ} {text : List UInt8}
    (h : c ∈ cstr (snprintf [] len text)) : c ∈ text := by
  have hne : c ≠ 0 := fun h0 => nul_notMem_cstr _ (h0 ▸ h)
  have hmem : c ∈ snprintf [] len text := (List.takeWhile_sublist _).mem h
  unfold snprintf at hmem
  split_ifs at hmem
  · cases hmem
  · rcases List.mem_append.mp hmem with hmem | hmem
    · exact List.mem_of_mem_take hmem
    · rw [List.drop_nil, List.mem_singleton] at hmem
      exact absurd hmem hne

theorem newline_notMem_lookup {table : List (ℕ × String)} {other : String}
    (h : ∀ s ∈ other :: table.map Prod.snd, (10 : UInt8) ∉ ascii s) (n : ℕ) :
    (10 : UInt8) ∉ ascii ((table.lookup n).getD other) := by
  cases hn : table.lookup n with
  | none => exact h _ (.head _)
  | some s =>
      obtain ⟨xs, ys, rfl, -⟩ := List.lookup_eq_some_iff.mp hn
      exact h s (.tail _ (List.mem_map.mpr ⟨(n, s), List.mem_append_right _ (.head _), rfl⟩))

theorem newline_notMem_nameOrExit {names : List String} (h : ∀ s ∈ names, (10 : UInt8) ∉ ascii s)
    {n : ℕ} {name : List UInt8} (hn : nameOrExit names n = .ok name) : (10 : UInt8) ∉ name := by
  unfold nameOrExit at hn
  split at hn
  · rename_i s hs
    cases hn
    exact h s (List.mem_of_getElem? hs)
  · cases hn

/-! ### Fields -/

/-- A note is nothing, or stands behind a blank and on the same line. -/
def NoteOk (note : Host → ℕ → Except Halt (List UInt8)) : Prop :=
  ∀ host n text, note host n = .ok text → (10 : UInt8) ∉ text ∧ (text = [] ∨ text.head? = some 32)

theorem noteOk_noNote : NoteOk noNote := by
  rintro host n text h
  cases h
  exact ⟨List.not_mem_nil, .inl rfl⟩

/-- A name between brackets, behind a blank. -/
theorem noteOk_map {name : Host → ℕ → Except Halt (List UInt8)}
    (h : ∀ host n s, name host n = .ok s → (10 : UInt8) ∉ s) {left right : List UInt8}
    (hleft : (10 : UInt8) ∉ left) (hright : (10 : UInt8) ∉ right) :
    NoteOk fun host n => (name host n).map fun s => 32 :: left ++ s ++ right := by
  intro host n text htext
  cases hs : name host n with
  | error e =>
      simp only [hs] at htext
      cases htext
  | ok s =>
      simp only [hs] at htext
      cases htext
      have hblank : (10 : UInt8) ≠ 32 := by decide
      simp only [List.cons_append, List.mem_cons, List.mem_append, not_or]
      exact ⟨⟨hblank, ⟨hleft, h host n s hs⟩, hright⟩, .inr rfl⟩

theorem noteOk_angled {name : Host → ℕ → Except Halt (List UInt8)}
    (h : ∀ host n s, name host n = .ok s → (10 : UInt8) ∉ s) : NoteOk (angled name) :=
  noteOk_map h (show (10 : UInt8) ∉ ascii "<" by decide) (show (10 : UInt8) ∉ ascii ">" by decide)

theorem noteOk_inParens {name : Host → ℕ → Except Halt (List UInt8)}
    (h : ∀ host n s, name host n = .ok s → (10 : UInt8) ∉ s) : NoteOk (inParens name) :=
  noteOk_map h (show (10 : UInt8) ∉ ascii "(" by decide) (show (10 : UInt8) ∉ ascii ")" by decide)

/-- The number of a field can be found on its line. -/
structure Field.Legible (f : Field) : Prop where
  label : ∀ c ∈ ascii f.label, c ≠ 10 ∧ c ≠ 45 ∧ c ≠ 58
  note : NoteOk f.note

theorem legible {f : Field} (h : (ascii f.label).all (fun c => c ≠ 10 ∧ c ≠ 45 ∧ c ≠ 58) = true)
    (hnote : NoteOk f.note) : f.Legible :=
  ⟨fun c hc => of_decide_eq_true (List.all_eq_true.mp h c hc), hnote⟩

/-- The number on a line, up to the next blank. -/
def readField (line : List UInt8) : ℤ := readNum ((afterColon line).tail.takeWhile (· ≠ 32))

theorem readNum_text (conv : Conv) (n : ℕ) : readNum (conv.text n) = conv.value n := by
  cases conv with
  | u => exact readNum_dec 1 n
  | d => exact readNum_printInt _
  | x => exact readNum_hex 1 n

/-- A number is printed without blanks and newlines. -/
theorem notMem_text (conv : Conv) (n : ℕ) {c : UInt8} (hc : c = 10 ∨ c = 32) :
    c ∉ conv.text n := by
  have hnum (b : ℕ) (hb : 1 < b) (hb' : b ≤ 16) (k : ℕ) : c ∉ printNum b 1 k :=
    notMem_printNum hb hb' (by rcases hc with rfl | rfl <;> decide) 1 k
  have hsign : c ∉ ascii "-" := by rcases hc with rfl | rfl <;> decide
  have hhex : c ∉ ascii "0x" := by rcases hc with rfl | rfl <;> decide
  cases conv with
  | u => exact hnum 10 (by norm_num) (by norm_num) n
  | d =>
      change c ∉ printInt (toSigned 32 n)
      unfold printInt
      split_ifs
      · exact fun h => (List.mem_append.mp h).elim hsign (hnum 10 (by norm_num) (by norm_num) _)
      · rw [List.nil_append]
        exact hnum 10 (by norm_num) (by norm_num) _
  | x => exact fun h => (List.mem_append.mp h).elim hhex (hnum 16 (by norm_num) le_rfl n)

section field

variable {f : Field} {host : Host} {n : ℕ} {note : List UInt8}

theorem readField_line (h : f.Legible) (hnote : f.note host n = .ok note) :
    readField (f.line n note) = f.conv.value n := by
  have hlabel : ∀ c ∈ ascii f.label, decide (c ≠ 58) = true :=
    fun c hc => decide_eq_true (h.label c hc).2.2
  have hword : ∀ c ∈ f.conv.text n, decide (c ≠ 32) = true := by
    intro c hc
    exact decide_eq_true fun h32 => notMem_text f.conv n (.inr h32) hc
  have hafter : (afterColon (f.line n note)).tail = f.conv.text n ++ note := by
    have hcolon : ascii ": " = [58, 32] := rfl
    unfold afterColon Field.line
    rw [hcolon, List.append_assoc, List.append_assoc, List.dropWhile_append_of_pos hlabel]
    rfl
  have hstop : note.takeWhile (· ≠ 32) = [] := by
    rcases (h.note host n note hnote).2 with rfl | h32
    · rfl
    · cases note with
      | nil => rfl
      | cons c note =>
          cases Option.some.inj h32
          rfl
  rw [readField, hafter, List.takeWhile_append_of_pos hword, hstop, List.append_nil, readNum_text]

theorem newline_notMem_field (h : f.Legible) (hnote : f.note host n = .ok note) :
    (10 : UInt8) ∉ f.line n note := by
  have hcolon : (10 : UInt8) ∉ ascii ": " := by decide
  simp only [Field.line, List.mem_append, not_or]
  exact ⟨⟨⟨fun hc => (h.label 10 hc).1 rfl, hcolon⟩, notMem_text f.conv n (.inl rfl)⟩,
    (h.note host n note hnote).1⟩

end field

/-- The line does not begin with a dash. -/
def NoDash (line : List UInt8) : Prop := line.head? ≠ some 45

theorem noDash_field {f : Field} (h : f.Legible) (n : ℕ) (note : List UInt8) :
    NoDash (f.line n note) := by
  unfold NoDash Field.line
  cases hl : ascii f.label with
  | nil => exact fun h45 => absurd (Option.some.inj h45) (by decide)
  | cons c cs => exact fun h45 => (h.label c (hl ▸ .head _)).2.1 (Option.some.inj h45)

/-- The lines of the fields, and their numbers. -/
theorem lines_printFields {host : Host} {m : Mem} {p : ℕ} : ∀ {fs : List Field} {text : List UInt8},
    (∀ f ∈ fs, f.Legible) → printFields host m p fs = .ok text → AllLines NoDash text ∧
      (lines text).map readField = fs.map fun f => f.conv.value (f.num m p)
  | [], text, _, ht => by
      cases ht
      exact ⟨allLines_nil, rfl⟩
  | f :: fs, text, h, ht => by
      rw [printFields] at ht
      cases hnote : f.note host (f.num m p) with
      | error e => rw [hnote] at ht; cases ht
      | ok note =>
          cases hrest : printFields host m p fs with
          | error e => rw [hnote, hrest] at ht; cases ht
          | ok rest =>
              rw [hnote, hrest] at ht
              cases ht
              have hf := h f (.head _)
              have hnl := newline_notMem_field hf hnote
              have hline := allLines_line hnl (noDash_field hf (f.num m p) note)
              obtain ⟨hall, hread⟩ := lines_printFields (fun g hg => h g (.tail _ hg)) hrest
              refine ⟨hline.append hall, ?_⟩
              rw [lines_append hline.whole, lines_line hnl, List.map_append, hread,
                List.map_singleton, readField_line hf hnote]
              rfl

theorem newline_notMem_ifaFamilyToStr (host : Host) (n : ℕ) (s : List UInt8)
    (h : ifaFamilyToStr host.afMax n = .ok s) : (10 : UInt8) ∉ s := by
  have hnames : ∀ s ∈ ifaFamilies, (10 : UInt8) ∉ ascii s := by decide
  unfold ifaFamilyToStr at h
  split_ifs at h
  · cases h
    decide
  · exact newline_notMem_nameOrExit hnames h

theorem newline_notMem_ifIndextoname (host : Host) (n : ℕ) :
    (10 : UInt8) ∉ ifIndextoname host n := by
  unfold ifIndextoname
  cases host.ifName n with
  | none => decide
  | some name => exact name.noNewline

theorem newline_notMem_flagsToStr {fstr : List FlagsStr}
    (h : ∀ f ∈ fstr, (10 : UInt8) ∉ f.nameLong.text) {flags : BitVec 32} {s : List UInt8}
    (hs : ((inArray 100 (snprintflagsLong 100 flags fstr)).map (snprintf [] 100)).map cstr =
      .ok s) :
    (10 : UInt8) ∉ s := by
  cases htext : inArray 100 (snprintflagsLong 100 flags fstr) with
  | error e => rw [htext] at hs; cases hs
  | ok text =>
      rw [htext] at hs
      cases hs
      exact fun hc => newline_notMem_inArray (by norm_num) h htext (mem_of_mem_snprintf hc)

theorem legible_hdrFields : ∀ f ∈ hdrFields, f.Legible := by
  have htypes : ∀ s ∈ "UNKOWN" :: nlmsgTypes.map Prod.snd, (10 : UInt8) ∉ ascii s := by decide
  have hfget : ∀ f ∈ fGet, (10 : UInt8) ∉ f.nameLong.text := by decide
  have hfnew : ∀ f ∈ fNew, (10 : UInt8) ∉ f.nameLong.text := by decide
  have htype : NoteOk (angled fun _ n => .ok (nlmsgTypeToStr n)) := noteOk_angled <| by
    rintro host n s ⟨⟩
    exact newline_notMem_lookup htypes n
  have hget : NoteOk (angled fun _ n => (nlmsgFlagsToStrGet (BitVec.ofNat 32 n) 100).map cstr) :=
    noteOk_angled fun host n s hs => newline_notMem_flagsToStr hfget hs
  have hnew : NoteOk (angled fun _ n => (nlmsgFlagsToStrNew (BitVec.ofNat 32 n) 100).map cstr) :=
    noteOk_angled fun host n s hs => newline_notMem_flagsToStr hfnew hs
  simp only [hdrFields, List.forall_mem_cons]
  exact ⟨legible rfl noteOk_noNote, legible rfl htype, legible rfl hget, legible rfl hnew,
    legible rfl noteOk_noNote, legible rfl noteOk_noNote, fun f hf => absurd hf List.not_mem_nil⟩

/-- The fields of the fixed structure. -/
def MsgKind.fields : MsgKind → List Field
  | .link => ifinfoFields
  | .addr => ifaddrFields
  | .route => rtmsgFields
  | .neigh => ndmsgFields

theorem legible_fields (kind : MsgKind) : ∀ f ∈ kind.fields, f.Legible := by
  have hno := noteOk_noNote
  cases kind with
  | link =>
      have htypes : ∀ s ∈ "unknown" :: ifiTypes.map Prod.snd, (10 : UInt8) ∉ ascii s := by decide
      have hflags : ∀ f ∈ ifiFlags, (10 : UInt8) ∉ f.nameLong.text := by decide
      have hfamily : NoteOk (angled fun host n => ifaFamilyToStr host.afMax n) :=
        noteOk_angled newline_notMem_ifaFamilyToStr
      have htype : NoteOk (angled fun _ n => .ok (ifiTypeToStr n)) := noteOk_angled <| by
        rintro host n s ⟨⟩
        exact newline_notMem_lookup htypes n
      have hifi : NoteOk (angled fun _ n => ifiFlagsToStr (BitVec.ofNat 32 n) 100) :=
        noteOk_angled fun host n s hs => newline_notMem_inArray (by norm_num) hflags hs
      simp only [MsgKind.fields, ifinfoFields, List.forall_mem_cons]
      exact ⟨legible rfl hfamily, legible rfl htype, legible rfl hno, legible rfl hifi,
        legible rfl hno, fun f hf => absurd hf List.not_mem_nil⟩
  | addr =>
      have hfamily : NoteOk (inParens fun host n => ifaFamilyToStr host.afMax n) :=
        noteOk_inParens newline_notMem_ifaFamilyToStr
      have hindex : NoteOk (inParens fun host n => .ok (ifIndextoname host n)) :=
        noteOk_inParens <| by
          rintro host n s ⟨⟩
          exact newline_notMem_ifIndextoname host n
      simp only [MsgKind.fields, ifaddrFields, List.forall_mem_cons]
      exact ⟨legible rfl hfamily, legible rfl hno, legible rfl hno, legible rfl hno,
        legible rfl hindex, fun f hf => absurd hf List.not_mem_nil⟩
  | route =>
      have hnames : ∀ s ∈ rtnTypes, (10 : UInt8) ∉ ascii s := by decide
      have hfamily : NoteOk (inParens fun host n => ifaFamilyToStr host.afMax n) :=
        noteOk_inParens newline_notMem_ifaFamilyToStr
      have htype : NoteOk (inParens fun _ n => rtnTypeToStr n) :=
        noteOk_inParens fun host n s hs => newline_notMem_nameOrExit hnames hs
      simp only [MsgKind.fields, rtmsgFields, List.forall_mem_cons]
      exact ⟨legible rfl hfamily, legible rfl hno, legible rfl hno, legible rfl hno,
        legible rfl hno, legible rfl hno, legible rfl hno, legible rfl htype,
        legible rfl hno, fun f hf => absurd hf List.not_mem_nil⟩
  | neigh =>
      simp only [MsgKind.fields, ndmsgFields, List.forall_mem_cons]
      exact ⟨legible rfl hno, legible rfl hno, legible rfl hno, legible rfl hno,
        legible rfl hno, legible rfl hno, legible rfl hno,
        fun f hf => absurd hf List.not_mem_nil⟩

/-! ### Attributes -/

/-- The string that is printed of the attribute as it stands, if there is one, holds no
newline. -/
structure PlainName (strlen : ℕ) (m : Mem) (rta : ℕ) : Prop where
  ifname : rtattrType m rta = IFLA_IFNAME → (10 : UInt8) ∉ cstr (bytesAt m (rta + 4) strlen)
  kind : rtattrType m rta = IFLA_LINKINFO → (10 : UInt8) ∉ cstr (bytesAt m (rta + 8) 99)

/-- What stands behind the name of a type is on one line, or there is no dash in it. -/
theorem rtaRest_lines {m : Mem} {rta len : ℕ} (block : RtaCase)
    (hplain : block = .ifname → (10 : UInt8) ∉ cstr (bytesAt m (rta + 4) len)) :
    (10 : UInt8) ∉ rtaRest m rta len block ∨ (45 : UInt8) ∉ rtaRest m rta len block := by
  cases block with
  | stats64 => exact .inr (notMem_rtaRest (by decide) (fun h => by cases h) (by decide))
  | stats => exact .inr (notMem_rtaRest (by decide) (fun h => by cases h) (by decide))
  | map => exact .inr (notMem_rtaRest (by decide) (fun h => by cases h) (by decide))
  | num width =>
      have hlit : ∀ s ∈ [" <", ">"], (10 : UInt8) ∉ ascii s := by decide
      exact .inl (notMem_rtaRest (by decide) hplain hlit)
  | _ => exact .inl (notMem_rtaRest (by decide) hplain (by decide))

theorem newline_notMem_vlanText (v : InterfaceInfoVlan) : (10 : UInt8) ∉ vlanText v := by
  have hid : (10 : UInt8) ∉ ascii "IFLA_LINKINFO vlan(id:" := by decide
  have hproto : (10 : UInt8) ∉ ascii ", proto:0x" := by decide
  have hflags : (10 : UInt8) ∉ ascii ", flags:0x" := by decide
  have hclose : (10 : UInt8) ∉ ascii ")" := by decide
  have hdec : (10 : UInt8) ∉ printNum 10 1 v.id :=
    notMem_printNum (by norm_num) (by norm_num) (by decide) 1 _
  simp only [vlanText, List.mem_append, not_or]
  exact ⟨⟨⟨⟨⟨⟨hid, hdec⟩, hproto⟩, newline_notMem_printNum 4 _⟩, hflags⟩,
    newline_notMem_printNum 8 _⟩, hclose⟩

section attr

variable {host : Host} {m : Mem} {rta strlen : ℕ}

/-- The text of an attribute is on one line, or there is no dash in it. -/
theorem rtaToStr_lines (hplain : PlainName strlen m rta) {str : List UInt8}
    (h : rtaToStr m rta strlen = .ok str) :
    (10 : UInt8) ∉ cstr str ∨ (45 : UInt8) ∉ cstr str := by
  unfold rtaToStr at h
  split_ifs at h with htype
  · left
    unfold rtaToStrIflaLinkinfo at h
    cases htext : linkinfoText m rta with
    | error e => rw [htext] at h; cases h
    | ok text =>
        rw [htext] at h
        cases h
        refine fun hc => absurd (mem_of_mem_snprintf hc) ?_
        have hunknown : ∀ s : List UInt8, (10 : UInt8) ∉ s → (10 : UInt8) ∉ unknownKindText s := by
          have hopen : (10 : UInt8) ∉ ascii "UNKNOWN LINK KIND (" := by decide
          have hclose : (10 : UInt8) ∉ ascii ")" := by decide
          intro s hs
          simp only [unknownKindText, List.mem_append, not_or]
          exact ⟨⟨hopen, hs⟩, hclose⟩
        obtain ⟨-, -, -, hresult⟩ := linkinfoText_eq_ok_iff.mp htext
        split_ifs at hresult
        · obtain ⟨-, hdata⟩ := hresult
          simp only at hdata
          split_ifs at hdata
          · obtain ⟨v, -, rfl⟩ := hdata
            exact newline_notMem_vlanText v
          · rw [hdata]
            exact hunknown _ (by decide)
        · rw [hresult]
          exact hunknown _ (hplain.kind htype)
  · cases htext : (rtaText rta strlen).val m with
    | error e => rw [htext] at h; cases h
    | ok text =>
        rw [htext] at h
        cases h
        have hifname : rtaCase (rtattrType m rta) = .ifname →
            (10 : UInt8) ∉ cstr (bytesAt m (rta + 4) strlen) := by
          intro hcase
          apply hplain.ifname
          unfold rtaCase at hcase
          split_ifs at hcase with hname
          exact hname
        have hname : (10 : UInt8) ∉ rtaTypeToStr (rtattrType m rta) ∧
            (45 : UInt8) ∉ rtaTypeToStr (rtattrType m rta) :=
          ⟨notMem_rtaTypeToStr (by decide) _, notMem_rtaTypeToStr (by decide) _⟩
        rw [rtaText_eq htext]
        refine (rtaRest_lines (rtaCase (rtattrType m rta)) hifname).imp ?_ ?_
        · intro hno hc
          exact (List.mem_append.mp (mem_of_mem_snprintf hc)).elim hname.1 hno
        · intro hno hc
          exact (List.mem_append.mp (mem_of_mem_snprintf hc)).elim hname.2 hno

theorem noDash_of_notMem {l : List UInt8} (h : (45 : UInt8) ∉ l) : NoDash l :=
  fun h45 => h (List.mem_of_mem_head? h45)

theorem allLines_attrLine (i : ℕ) {str : List UInt8}
    (h : (10 : UInt8) ∉ str ∨ (45 : UInt8) ∉ str) : AllLines NoDash (attrLine i str) := by
  have hattr : attrLine i str =
      97 :: (ascii "ttr[" ++ (printNum 10 1 i ++ (ascii "]: " ++ str))) ++ [10] := by
    have hopen : ascii "attr[" = 97 :: ascii "ttr[" := rfl
    have hend : ascii "\n" = [10] := rfl
    rw [attrLine, hopen, hend]
    simp only [List.append_assoc, List.cons_append]
  have hrest (c : UInt8) (hc : c = 10 ∨ c = 45) (hstr : c ∉ str) :
      c ∉ 97 :: (ascii "ttr[" ++ (printNum 10 1 i ++ (ascii "]: " ++ str))) := by
    have ha : c ≠ 97 := by rcases hc with rfl | rfl <;> decide
    have hopen : c ∉ ascii "ttr[" := by rcases hc with rfl | rfl <;> decide
    have hclose : c ∉ ascii "]: " := by rcases hc with rfl | rfl <;> decide
    have hnum : c ∉ printNum 10 1 i :=
      notMem_printNum (by norm_num) (by norm_num) (by rcases hc with rfl | rfl <;> decide) 1 i
    simp only [List.mem_cons, List.mem_append, not_or]
    exact ⟨ha, hopen, hnum, hclose, hstr⟩
  rw [hattr]
  rcases h with h | h
  · refine allLines_line (hrest 10 (.inl rfl) h) fun h45 => ?_
    exact absurd (Option.some.inj h45) (by decide)
  · exact (allLines_of_notMem (hrest 45 (.inr rfl) h) (by decide)).mono
      fun _ => noDash_of_notMem

theorem allLines_hexdumpText (m : Mem) (buffer bufferlen : ℕ) :
    AllLines NoDash (hexdumpText m buffer bufferlen) := by
  apply allLines_flatMap
  · intro l hl
    obtain ⟨r, -, rfl⟩ := List.mem_map.mp hl
    exact newline_notMem_hexdumpLine _ _
  · intro l hl h45
    obtain ⟨r, -, rfl⟩ := List.mem_map.mp hl
    -- a row begins with a digit of its offset
    obtain ⟨rest, hrest⟩ := hexdumpLine_starts (16 * r.2) r.1
    have hdigit : ∀ c ∈ printNum 16 4 (16 * r.2), c ≠ 45 :=
      forall_mem_printNum (by norm_num) le_rfl (by decide)
    rw [← hrest] at h45
    cases hnum : printNum 16 4 (16 * r.2) with
    | nil =>
        rw [hnum] at h45
        exact absurd (Option.some.inj h45) (by decide)
    | cons c cs =>
        rw [hnum] at h45
        exact hdigit c (hnum ▸ .head _) (Option.some.inj h45)

theorem allLines_unknownKindDump (m : Mem) (rootRta : ℕ) :
    AllLines NoDash (unknownKindDump m rootRta) := by
  rw [unknownKindDump, carryText_eq]
  refine allLines_flatMap (fun l hl => (mem_carryLines hl).1) fun l hl h45 => ?_
  rw [carryLines, List.mem_append, List.mem_cons, List.mem_append, List.mem_singleton] at hl
  rcases hl with hl | rfl | hl | rfl
  · rw [List.mem_singleton.mp hl] at h45
    exact absurd (Option.some.inj h45) (by decide)
  · exact absurd (Option.some.inj h45) (by decide)
  · obtain ⟨r, -, rfl⟩ := List.mem_map.mp hl
    exact absurd (Option.some.inj h45) (by decide)
  · exact absurd (Option.some.inj h45) (by decide)

theorem allLines_vlanSkip (host : Host) (m : Mem) (nrta : ℕ) :
    AllLines NoDash (vlanSkip host m nrta) := by
  unfold vlanSkip
  split_ifs
  · have hopen : (10 : UInt8) ∉ ascii "unsupport ... skip type=0x" := by decide
    have hat : (10 : UInt8) ∉ ascii " @0x" := by decide
    refine allLines_line ?_ fun h45 => absurd (Option.some.inj h45) (by decide)
    simp only [List.mem_append, not_or]
    exact ⟨⟨⟨hopen, newline_notMem_printNum 4 _⟩, hat⟩, newline_notMem_printNum 1 _⟩
  · exact allLines_nil

theorem allLines_vlanSkips (host : Host) (m : Mem) (rta : ℕ) :
    AllLines NoDash (vlanSkips host m rta) := by
  unfold vlanSkips
  split
  · exact allLines_nil
  · rename_i r out hrun
    exact run_traced_induct (fun s t o _ _ ho => ho.append (allLines_vlanSkip host m s.nrta))
      (fun s o _ ho => ho.append (allLines_vlanSkip host m s.nrta)) hrun allLines_nil

theorem allLines_rtaToStrPrints (host : Host) (m : Mem) (rta : ℕ) :
    AllLines NoDash (rtaToStrPrints host m rta).out := by
  unfold rtaToStrPrints linkinfoPrints
  split_ifs
  · simp only
    split
    · exact allLines_nil
    · split_ifs
      · split
        · exact allLines_nil
        · split_ifs
          · exact allLines_vlanSkips host m _
          · exact allLines_unknownKindDump m rta
      · exact allLines_unknownKindDump m rta
  · split
    · exact allLines_nil
    · exact allLines_hexdumpText m rta _
    · exact allLines_nil

/-- What a round of a loop prints, when the attribute that it passes has a plain name. -/
theorem allLines_attrPrints {s : AttrLoop} {x : List ℕ × Option Halt}
    (hx : Exits (attrLoop rtaToStr strlen m) s x) (hplain : ∀ rta ∈ x.1, PlainName strlen m rta) :
    AllLines NoDash (attrPrints host strlen m s).out := by
  unfold attrPrints
  split_ifs with hok
  · have hmem : s.rta ∈ x.1 := (passed_of_ok hok hx).subset (by simp)
    cases hstr : rtaToStr m s.rta strlen with
    | error e => exact allLines_nil
    | ok str =>
        exact (allLines_rtaToStrPrints host m s.rta).append
          (allLines_attrLine _ (rtaToStr_lines (hplain s.rta hmem) hstr))
  · exact allLines_nil

end attr

/-- The attributes that the dump of a message passes have plain names. -/
def PlainNames (m : Mem) (hdr : ℕ) : Prop :=
  ∀ kind x, msgKind (nlmsgType m hdr) = some kind →
    Exits (attrLoop rtaToStr kind.strlen m) (kind.start m hdr) x →
      ∀ rta ∈ x.1, PlainName kind.strlen m rta

theorem allLines_printAttrs {host : Host} {m : Mem} {hdr : ℕ} {kind : MsgKind} {p : Printed}
    (hkind : msgKind (nlmsgType m hdr) = some kind) (hplain : PlainNames m hdr)
    (h : printAttrs host kind m hdr = .ok p) : AllLines NoDash p.out := by
  unfold printAttrs at h
  split at h
  · cases h
  · cases h
  · rename_i passed p' hrun
    cases h
    have hexits := hplain kind (passed, none) hkind ⟨_, run_of_run_traced hrun⟩
    refine run_traced_induct (P := fun p => AllLines NoDash p.out) ?_ ?_ hrun allLines_nil
    · intro s t o hb hx ho
      exact ho.append (allLines_attrPrints (hx.step hb) hexits)
    · intro s o hb ho
      exact ho.append (allLines_attrPrints (.single hb) hexits)

/-! ### Entries -/

/-- The fields that are printed for the type behind those of the header. -/
def fieldsOf (type : ℕ) : List Field := (msgKind type).elim [] MsgKind.fields

/-- The numbers that are printed for the message at `hdr`. -/
def fieldsAt (m : Mem) (hdr : ℕ) : List ℤ :=
  (hdrFields.map fun f => f.conv.value (f.num m hdr)) ++
    (fieldsOf (nlmsgType m hdr)).map fun f => f.conv.value (f.num m (fixedPtr hdr))

/-- The numbers in the lines of an entry, behind its first line. -/
def readEntry (ls : List (List UInt8)) : List ℤ :=
  let hdr := ((ls.drop 1).take 6).map readField
  hdr ++ ((ls.drop 7).take (fieldsOf (hdr.getD 1 0).toNat).length).map readField

theorem readEntry_append {first : List UInt8} {head fixed rest : List (List UInt8)} {m : Mem}
    {hdr : ℕ} (hhead : head.map readField = hdrFields.map fun f => f.conv.value (f.num m hdr))
    (hfixed : fixed.map readField =
      (fieldsOf (nlmsgType m hdr)).map fun f => f.conv.value (f.num m (fixedPtr hdr))) :
    readEntry (first :: (head ++ (fixed ++ rest))) = fieldsAt m hdr := by
  have hlen : head.length = 6 := by
    rw [← List.length_map readField, hhead]
    rfl
  have hlen' : fixed.length = (fieldsOf (nlmsgType m hdr)).length := by
    rw [← List.length_map readField, hfixed, List.length_map]
  have htake : ((first :: (head ++ (fixed ++ rest))).drop 1).take 6 = head := by
    rw [List.drop_one, List.tail_cons, List.take_left' hlen]
  have hdrop : (first :: (head ++ (fixed ++ rest))).drop 7 = fixed ++ rest := by
    rw [List.drop_succ_cons, List.drop_left' hlen]
  have htype : ((head.map readField).getD 1 0).toNat = nlmsgType m hdr := by
    rw [hhead]
    rfl
  unfold readEntry
  simp only [htake, hdrop, htype]
  rw [List.take_left' hlen', hhead, hfixed, fieldsAt]

theorem not_endLine_of_noDash {l : List UInt8} (h : NoDash l) : ¬ endLine <+: l := by
  rintro ⟨rest, rfl⟩
  exact h rfl

theorem printStruct_eq_ok {fields : List Field} {kind : MsgKind} {host : Host} {m : Mem} {hdr : ℕ}
    {p : Printed} (h : printStruct fields kind host m hdr = .ok p) :
    ∃ text attrs, printFields host m (fixedPtr hdr) fields = .ok text ∧
      printAttrs host kind m hdr = .ok attrs ∧ p = ⟨text, []⟩ ++ attrs := by
  unfold printStruct at h
  cases htext : printFields host m (fixedPtr hdr) fields with
  | error e => rw [htext] at h; cases h
  | ok text =>
      cases hattrs : printAttrs host kind m hdr with
      | error e => rw [htext, hattrs] at h; cases h
      | ok attrs =>
          rw [htext, hattrs] at h
          cases h
          exact ⟨text, attrs, rfl, rfl, rfl⟩

theorem msgKindPrint_eq (host : Host) (m : Mem) (hdr : ℕ) :
    msgKindPrint host m hdr = match msgKind (nlmsgType m hdr) with
      | some kind => printStruct kind.fields kind host m hdr
      | none => .ok (unknownMsgPrint m hdr) := by
  unfold msgKindPrint
  cases msgKind (nlmsgType m hdr) with
  | none => rfl
  | some kind => cases kind <;> rfl

/-- What is printed to `stdout` behind the header. -/
theorem lines_msgKindPrint {host : Host} {m : Mem} {hdr : ℕ} {p : Printed}
    (hplain : PlainNames m hdr) (h : msgKindPrint host m hdr = .ok p) :
    AllLines NoDash p.out ∧ ∃ fixed rest, lines p.out = fixed ++ rest ∧ fixed.map readField =
      (fieldsOf (nlmsgType m hdr)).map fun f => f.conv.value (f.num m (fixedPtr hdr)) := by
  rw [msgKindPrint_eq] at h
  unfold fieldsOf
  cases hkind : msgKind (nlmsgType m hdr) with
  | none =>
      rw [hkind] at h
      cases h
      exact ⟨allLines_nil, [], [], rfl, rfl⟩
  | some kind =>
      rw [hkind] at h
      obtain ⟨text, attrs, htext, hattrs, rfl⟩ := printStruct_eq_ok h
      obtain ⟨hall, hread⟩ := lines_printFields (legible_fields kind) htext
      exact ⟨hall.append (allLines_printAttrs hkind hplain hattrs), lines text, lines attrs.out,
        lines_append hall.whole attrs.out, hread⟩

/-- **Entries**: the line that closes an entry does not begin a line before it, and the fields of
the header and of the fixed structure are read back from the lines. -/
theorem lines_netlinkMsgPrint {host : Host} {m : Mem} {hdr : ℕ} {p : Printed}
    (hplain : PlainNames m hdr) (h : netlinkMsgPrint host m hdr = .ok p) :
    ∃ text, p.out = text ++ (endLine ++ [10]) ∧ AllLines (fun l => ¬ endLine <+: l) text ∧
      readEntry (lines text) = fieldsAt m hdr := by
  unfold netlinkMsgPrint at h
  cases hhead : printFields host m hdr hdrFields with
  | error e => rw [hhead] at h; cases h
  | ok head =>
      cases hbody : msgKindPrint host m hdr with
      | error e => rw [hhead, hbody] at h; cases h
      | ok body =>
          rw [hhead, hbody] at h
          cases h
          obtain ⟨hall, hread⟩ := lines_printFields legible_hdrFields hhead
          obtain ⟨hall', fixed, rest, hlines, hread'⟩ := lines_msgKindPrint hplain hbody
          have hnl : (10 : UInt8) ∉ beginLine := by decide
          have hbegin : AllLines (fun l => ¬ endLine <+: l) (beginLine ++ [10]) :=
            allLines_line hnl (by decide)
          refine ⟨beginLine ++ [10] ++ head ++ body.out, rfl,
            (hbegin.append (hall.mono fun _ => not_endLine_of_noDash)).append
              (hall'.mono fun _ => not_endLine_of_noDash), ?_⟩
          rw [List.append_assoc, lines_append hbegin.whole, lines_append hall.whole, hlines,
            lines_line hnl, List.singleton_append]
          exact readEntry_append hread hread'

end Hspp
