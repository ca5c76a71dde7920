import Hspp.Dump
import Hspp.Hexdump
import Hspp.LinkInfoConfined
import Hspp.RtaToStr
import Hspp.Lib.Lines

/-! # Attribute texts read back

Every text of `rta_to_str` begins with a word for the type, and the rest shows what is decoded
of the payload: a string or bytes in brackets, or numbers behind colons, each up to the next
blank, comma or bracket.  So the text of an attribute tells the type, if that has a name, and
what was decoded (`rtaToStr_reads_back`), unless it was cut to the size of the buffer; a text
that leaves a byte of the buffer free was not. -/

namespace Hspp

open CInt Loop Memory Memory.Access Text

/-! ### What an attribute says -/

/-- What is decoded of an attribute. -/
inductive RtaValue where
  | name (s : List UInt8)
  | payload (data : List UInt8)
  | numbers (ns : List ℕ)
  | promisc (on : Bool)
  | afSpec
  | vlan (vlaninfo : InterfaceInfoVlan)
  | kind (s : List UInt8)
deriving DecidableEq, Repr

/-- The widths of the numbers that a block shows. -/
def RtaCase.widths : RtaCase → List ℕ
  | .stats64 => List.replicate 23 8
  | .stats => List.replicate 23 4
  | .map => [8, 8, 8, 2, 1, 1]
  | .num width => [width]
  | _ => []

/-- What is decoded in a block of the `switch`, of a string `len` bytes at most. -/
def rtaBlockValue (m : Mem) (rta len : ℕ) : RtaCase → RtaValue
  | .ifname => .name (cstr (bytesAt m (rta + 4) len))
  | .address => .payload (hexData m rta)
  | .promiscuity => .promisc (leNat (bytesAt m (rta + 4) 4) ≠ 0)
  | .afSpec => .afSpec
  | .default => .payload (hexData m rta)
  | block => .numbers ((nums (rta + 4) block.widths).val m)

/-- What is decoded of an `IFLA_LINKINFO`: the VLAN, or the kind that is not known or has no
data. -/
def linkinfoValue (m : Mem) (rootRta : ℕ) : RtaValue :=
  let strbuf := cstr (bytesAt m (rootRta + 8) 99)
  let rta := rootRta + 4 + roundUp 4 (rtattrLen m (rootRta + 4))
  if strbuf = ascii "vlan" ∧ rtattrType m rta = IFLA_INFO_DATA then
    match vlanAttrs m rta with
    | .ok vlaninfo => .vlan vlaninfo
    | .error _ => .kind strbuf
  else .kind strbuf

/-- What `rta_to_str` decodes of an attribute. -/
def rtaValue (m : Mem) (rta len : ℕ) : RtaValue :=
  if rtattrType m rta = IFLA_LINKINFO then linkinfoValue m rta
  else rtaBlockValue m rta len (rtaCase (rtattrType m rta))

/-! ### Readers -/

/-- The text between the first `c` and the last character. -/
def between (c : UInt8) (text : List UInt8) : List UInt8 :=
  ((text.dropWhile (· ≠ c)).tail).dropLast

/-- The bytes of a text of hex digits. -/
def unhex : List UInt8 → List UInt8
  | a :: b :: ds => UInt8.ofNat (16 * digitVal a + digitVal b) :: unhex ds
  | _ => []

/-- What a number behind a colon ends at: a blank, a bracket, a comma or the next colon. -/
def stops : List UInt8 := [32, 41, 44, 58]

/-- The numbers behind the first `k` colons. -/
def readNums : ℕ → List UInt8 → List ℕ
  | 0, _ => []
  | k + 1, text =>
      let rest := afterColon text
      (readNum (rest.takeWhile (· ∉ stops))).toNat :: readNums k rest

/-- The first words of the texts of the types with a name. -/
def rtaWords : List (List UInt8) := rtaTypes.map fun s => (ascii s).takeWhile (· ≠ 32)

/-- The type that a text was printed for. -/
def readType (text : List UInt8) : Option ℕ :=
  let word := text.takeWhile (· ≠ 32)
  if word = ascii "UNKNOWN" then some IFLA_LINKINFO else rtaWords.idxOf? word

/-- What the text of a block says. -/
def readBlock (text : List UInt8) : RtaCase → RtaValue
  | .ifname => .name (between 60 text)
  | .address => .payload (unhex ((between 60 text).filter (· ≠ 58)))
  | .promiscuity => .promisc (between 60 text = ascii "promisc=on")
  | .num _ => .numbers [readDigits 10 (between 60 text)]
  | .afSpec => .afSpec
  | .default => .payload (unhex (between 60 text))
  | block => .numbers (readNums block.widths.length text)

/-- What the text of an `IFLA_LINKINFO` says. -/
def readLinkinfo (text : List UInt8) : RtaValue :=
  if text.takeWhile (· ≠ 32) = ascii "UNKNOWN" then .kind (between 40 text)
  else
    let ns := readNums 3 text
    .vlan { id := ns.getD 0 0, proto := ns.getD 1 0, flags := ns.getD 2 0 }

/-- The type and the value that a text shows. -/
def readRta (text : List UInt8) : Option ℕ × RtaValue :=
  let type := readType text
  (type, if type = some IFLA_LINKINFO then readLinkinfo text
    else readBlock text (type.elim .default rtaCase))

/-! ### Pieces -/

theorem between_append {c : UInt8} {left : List UInt8} (h : c ∉ left) (s : List UInt8)
    (d : UInt8) : between c (left ++ c :: (s ++ [d])) = s := by
  have hpass : ∀ x ∈ left, decide (x ≠ c) = true := by
    intro x hx
    exact decide_eq_true fun hxc => h (hxc ▸ hx)
  unfold between
  rw [List.dropWhile_append_of_pos hpass, List.dropWhile_cons_of_neg (by simp), List.tail_cons,
    List.dropLast_concat]

/-- The digits of a byte are no colons. -/
theorem colon_notMem_printNum {b : ℕ} (hb : 1 < b) (hb' : b ≤ 16) (w n : ℕ) :
    (58 : UInt8) ∉ printNum b w n := by
  intro h
  exact forall_mem_printNum (p := (· ≠ 58)) hb hb' (by decide) 58 h rfl

theorem unhex_hexText : ∀ data : List UInt8, unhex (hexText [] data) = data
  | [] => rfl
  | c :: data => by
      obtain ⟨a, b, hab, -, hval⟩ := printNum_byte c
      have hcons : hexText [] (c :: data) = a :: b :: hexText [] data := by
        rw [hexText, List.flatMap_cons, hab]
        rfl
      rw [hcons, unhex, hval, unhex_hexText data]

/-- Without the colons an address is plain hex. -/
theorem filter_hexText : ∀ data : List UInt8,
    (hexText (ascii ":") data).filter (· ≠ 58) = hexText [] data
  | [] => rfl
  | c :: data => by
      have ih := filter_hexText data
      have hdigits : (printNum 16 2 c.toNat).filter (· ≠ 58) = printNum 16 2 c.toNat := by
        apply List.filter_eq_self.mpr
        intro x hx
        exact decide_eq_true fun h58 => colon_notMem_printNum (by norm_num) le_rfl 2 _ (h58 ▸ hx)
      have hcolon : (ascii ":").filter (· ≠ 58) = [] := rfl
      unfold hexText at ih ⊢
      rw [List.flatMap_cons, List.flatMap_cons, List.filter_append, List.filter_append, hdigits,
        hcolon, ih]

/-- A text that ends a number before it. -/
def EndsWord (rest : List UInt8) : Prop := rest = [] ∨ ∃ c ∈ stops, ∃ rest', rest = c :: rest'

/-- The first number, and what the others are read from. -/
theorem readNums_succ (k : ℕ) {left word rest : List UInt8} (hleft : (58 : UInt8) ∉ left)
    (hword : ∀ c ∈ word, c ∉ stops) (hrest : EndsWord rest) :
    readNums (k + 1) (left ++ 58 :: (word ++ rest)) =
      (readNum word).toNat :: readNums k (word ++ rest) := by
  have hpass : ∀ x ∈ left, decide (x ≠ 58) = true := by
    intro x hx
    exact decide_eq_true fun h58 => hleft (h58 ▸ hx)
  have hafter : afterColon (left ++ 58 :: (word ++ rest)) = word ++ rest := by
    unfold afterColon
    rw [List.dropWhile_append_of_pos hpass]
    rfl
  have htake : (word ++ rest).takeWhile (· ∉ stops) = word := by
    rw [List.takeWhile_append_of_pos fun c hc => decide_eq_true (hword c hc)]
    rcases hrest with rfl | ⟨c, hc, rest', rfl⟩
    · exact List.append_nil word
    · rw [List.takeWhile_cons_of_neg (by simpa using hc), List.append_nil]
  rw [readNums, hafter, htake]

theorem notMem_stops_printNum {b w n : ℕ} (hb : 1 < b) (hb' : b ≤ 16) :
    ∀ c ∈ printNum b w n, c ∉ stops := forall_mem_printNum hb hb' (by decide)

/-- A label begins with a blank, and its only colon is the last character. -/
def IsLabel (label : String) : Prop :=
  (ascii label).head? = some 32 ∧ (ascii label).getLast? = some 58 ∧
    (58 : UInt8) ∉ (ascii label).dropLast

instance (label : String) : Decidable (IsLabel label) := inferInstanceAs (Decidable (_ ∧ _))

theorem labelled_starts {labels : List String} (h : ∀ s ∈ labels, IsLabel s) (hne : labels ≠ [])
    {values : List ℕ} (hlen : values.length = labels.length) (rest : List UInt8) :
    ∃ rest', labelled labels values ++ rest = 32 :: rest' := by
  obtain ⟨l, labels, rfl⟩ := List.exists_cons_of_ne_nil hne
  obtain ⟨v, values, rfl⟩ := List.exists_cons_of_length_eq_add_one hlen
  obtain ⟨hhead, -⟩ := h l (.head _)
  obtain ⟨tail, htail⟩ := List.head?_eq_some_iff.mp hhead
  have hcons : labelled (l :: labels) (v :: values) =
      ascii l ++ printNum 10 1 v ++ labelled labels values := rfl
  exact ⟨tail ++ printNum 10 1 v ++ labelled labels values ++ rest, by rw [hcons, htail]; rfl⟩

theorem endsWord_labelled {labels : List String} (h : ∀ s ∈ labels, IsLabel s) {values : List ℕ}
    (hlen : values.length = labels.length) {rest : List UInt8} (hrest : EndsWord rest) :
    EndsWord (labelled labels values ++ rest) := by
  obtain rfl | hne := eq_or_ne labels []
  · exact hrest
  · exact .inr ⟨32, by decide, labelled_starts h hne hlen rest⟩

/-- **Labelled numbers** are read back, whatever stands before them but for a colon. -/
theorem readNums_labelled {rest : List UInt8} (hrest : EndsWord rest) : ∀ {labels : List String}
    {values : List ℕ} {left : List UInt8}, (∀ s ∈ labels, IsLabel s) →
    values.length = labels.length → (58 : UInt8) ∉ left →
      readNums labels.length (left ++ (labelled labels values ++ rest)) = values
  | [], [], _, _, _, _ => rfl
  | l :: labels, v :: values, left, h, hlen, hleft => by
      obtain ⟨-, hlast, hcolon⟩ := h l (.head _)
      have hl : ascii l = (ascii l).dropLast ++ [58] :=
        (List.dropLast_append_getLast? 58 hlast).symm
      have htail : ∀ s ∈ labels, IsLabel s := fun s hs => h s (.tail _ hs)
      have hsplit : left ++ (labelled (l :: labels) (v :: values) ++ rest) =
          (left ++ (ascii l).dropLast) ++
            58 :: (printNum 10 1 v ++ (labelled labels values ++ rest)) := by
        have hcons : labelled (l :: labels) (v :: values) =
            ascii l ++ printNum 10 1 v ++ labelled labels values := rfl
        rw [hcons]
        conv_lhs => rw [hl]
        simp only [List.append_assoc, List.cons_append, List.nil_append]
      have hno : (58 : UInt8) ∉ left ++ (ascii l).dropLast := by
        rw [List.mem_append, not_or]
        exact ⟨hleft, hcolon⟩
      have hnum := colon_notMem_printNum (b := 10) (by norm_num) (by norm_num) 1 v
      have ih := readNums_labelled hrest htail (Nat.succ.inj hlen) hnum
      have hword : ∀ c ∈ printNum 10 1 v, c ∉ stops :=
        notMem_stops_printNum (by norm_num) (by norm_num)
      have hends := endsWord_labelled htail (Nat.succ.inj hlen) hrest
      rw [hsplit, List.length_cons, readNums_succ _ hno hword hends, ih,
        readNum_dec, Int.toNat_natCast]

/-! ### The type -/

theorem notMem_rtaTypeToStr {c : UInt8} (h : ∀ s ∈ "unknown" :: rtaTypes, c ∉ ascii s) (type : ℕ) :
    c ∉ rtaTypeToStr type := by
  apply h
  cases hs : rtaTypes[type]? with
  | none => exact .head _
  | some s => exact .tail _ (List.mem_of_getElem? hs)

theorem takeWhile_word (name rest : List UInt8) :
    (name ++ 32 :: rest).takeWhile (· ≠ 32) = name.takeWhile (· ≠ 32) := by
  rw [List.takeWhile_append]
  split_ifs with h
  · rw [List.takeWhile_cons_of_neg (by decide), List.append_nil]
    exact (List.IsPrefix.eq_of_length (List.takeWhile_prefix _) h).symm
  · rfl

theorem nodup_rtaWords : rtaWords.Nodup := by decide

theorem getElem?_rtaWords {type : ℕ} (h : type < rtaTypes.length) :
    rtaWords[type]? = some ((rtaTypeToStr type).takeWhile (· ≠ 32)) := by
  unfold rtaTypeToStr rtaWords
  rw [List.getElem?_map, List.getElem?_eq_getElem h, Option.map_some, Option.getD_some]

/-- The first word tells the type. -/
theorem readType_append (type : ℕ) (rest : List UInt8) :
    readType (rtaTypeToStr type ++ 32 :: rest) =
      if type < rtaTypes.length then some type else none := by
  have hother : ascii "UNKNOWN" ∉ rtaWords := by decide
  unfold readType
  simp only [takeWhile_word]
  split_ifs with hword htype htype
  · -- no type has this word
    exact absurd (hword ▸ List.mem_of_getElem? (getElem?_rtaWords htype)) hother
  · rw [rtaTypeToStr, List.getElem?_eq_none (Nat.not_lt.mp htype)] at hword
    exact absurd hword (by decide)
  · obtain ⟨hlt, hget⟩ := List.getElem?_eq_some_iff.mp (getElem?_rtaWords htype)
    refine List.idxOf?_eq_some_iff.mpr ⟨hlt, hget, fun j hj heq => ?_⟩
    exact hj.ne (nodup_rtaWords.getElem_inj_iff.mp (heq.trans hget.symm))
  · rw [rtaTypeToStr, List.getElem?_eq_none (Nat.not_lt.mp htype)]
    decide

/-! ### Blocks -/

/-- What stands behind the name in the text of a block. -/
def rtaRest (m : Mem) (rta len : ℕ) : RtaCase → List UInt8
  | .ifname => ascii " <" ++ cstr (bytesAt m (rta + 4) len) ++ ascii ">"
  | .address => ascii " <" ++ hexText (ascii ":") (hexData m rta) ++ ascii ">"
  | .stats64 =>
      labelled stats64Labels ((nums (rta + 4) (List.replicate 23 8)).val m) ++ ascii " \n"
  | .stats => labelled statsLabels ((nums (rta + 4) (List.replicate 23 4)).val m) ++ []
  | .map => labelled mapLabels ((nums (rta + 4) [8, 8, 8, 2, 1, 1]).val m) ++ []
  | .promiscuity =>
      ascii (if leNat (bytesAt m (rta + 4) 4) = 0 then " <promisc=off>" else " <promisc=on>")
  | .num width => ascii " <" ++ printNum 10 1 (leNat (bytesAt m (rta + 4) width)) ++ ascii ">"
  | .afSpec => ascii " <unsupported yet>"
  | .default => ascii " unsupport-data=<" ++ hexText [] (hexData m rta) ++ ascii ">"

theorem map_hexLoop_eq_ok {suffix : List UInt8} {sublen size : ℕ} (hnul : (0 : UInt8) ∉ suffix)
    (hsub : suffix.length + 2 < sublen) (hsize : 0 < size) {data text : List UInt8}
    {f : List UInt8 → List UInt8}
    (h : (inArray size (hexLoop suffix sublen size data)).map f = .ok text) :
    text = f (hexText suffix data) := by
  unfold inArray at h
  split_ifs at h with hfits
  · cases h
  · cases h
    rw [cstr_hexLoop hnul hsub hsize]

/-- The text of a block, when one is returned. -/
theorem rtaBlock_text {name text : List UInt8} {m : Mem} {rta len : ℕ} {block : RtaCase}
    (hspec : block = .afSpec → name = ascii "IFLA_AF_SPEC")
    (h : (rtaBlock name rta len block).val m = .ok text) :
    text = name ++ rtaRest m rta len block := by
  cases block with
  | address =>
      have htext := map_hexLoop_eq_ok (by decide) (by decide) (by norm_num) h
      rw [htext, List.append_assoc, List.append_assoc, rtaRest, List.append_assoc]
      rfl
  | default =>
      have htext := map_hexLoop_eq_ok (by decide) (by decide) (by norm_num) h
      rw [htext, List.append_assoc, List.append_assoc, rtaRest, List.append_assoc]
      rfl
  | promiscuity =>
      cases h
      rfl
  | afSpec =>
      cases h
      rw [hspec rfl]
      rfl
  | _ =>
      cases h
      simp only [rtaRest, val_str, val_num, List.append_assoc, List.append_nil]

theorem eq_of_rtaCase_afSpec {type : ℕ} (h : rtaCase type = .afSpec) : type = IFLA_AF_SPEC := by
  unfold rtaCase at h
  split_ifs at h with _ _ _ _ _ _ _ _ hspec
  exact hspec

theorem rtaText_eq {m : Mem} {rta len : ℕ} {text : List UInt8}
    (h : (rtaText rta len).val m = .ok text) :
    text = rtaTypeToStr (rtattrType m rta) ++ rtaRest m rta len (rtaCase (rtattrType m rta)) := by
  have hspec (type : ℕ) (hcase : rtaCase type = .afSpec) :
      rtaTypeToStr type = ascii "IFLA_AF_SPEC" := by
    rw [eq_of_rtaCase_afSpec hcase]
    rfl
  exact rtaBlock_text (hspec (rtattrType m rta)) h

theorem isLabel_stats64 : ∀ s ∈ stats64Labels, IsLabel s := by decide

theorem isLabel_stats : ∀ s ∈ statsLabels, IsLabel s := by decide

theorem isLabel_map : ∀ s ∈ mapLabels, IsLabel s := by decide

theorem rtaRest_starts (m : Mem) (rta len : ℕ) (block : RtaCase) :
    ∃ rest, rtaRest m rta len block = 32 :: rest := by
  cases block with
  | stats64 =>
      exact labelled_starts isLabel_stats64 (List.cons_ne_nil _ _) (length_val_nums m _ _) _
  | stats => exact labelled_starts isLabel_stats (List.cons_ne_nil _ _) (length_val_nums m _ _) _
  | map => exact labelled_starts isLabel_map (List.cons_ne_nil _ _) (length_val_nums m _ _) _
  | promiscuity =>
      unfold rtaRest
      split_ifs <;> exact ⟨_, rfl⟩
  | _ => exact ⟨_, rfl⟩

/-- A text in angle brackets. -/
theorem between_angle {name : List UInt8} {opening : String} (hname : (60 : UInt8) ∉ name)
    (hopening : ∃ word, ascii opening = word ++ [60] ∧ (60 : UInt8) ∉ word) (s : List UInt8) :
    between 60 (name ++ (ascii opening ++ s ++ ascii ">")) = s := by
  obtain ⟨word, hlast, hword⟩ := hopening
  have hno : (60 : UInt8) ∉ name ++ word := by
    rw [List.mem_append, not_or]
    exact ⟨hname, hword⟩
  have hsplit : name ++ (ascii opening ++ s ++ ascii ">") = name ++ word ++ 60 :: (s ++ [62]) := by
    rw [hlast]
    simp only [List.append_assoc, List.singleton_append]
    rfl
  rw [hsplit, between_append hno]

/-- The value of a block is read back from its text. -/
theorem readBlock_append (m : Mem) (rta len : ℕ) (block : RtaCase) {name : List UInt8}
    (hcolon : (58 : UInt8) ∉ name) (hangle : (60 : UInt8) ∉ name) :
    readBlock (name ++ rtaRest m rta len block) block = rtaBlockValue m rta len block := by
  have hend : EndsWord (ascii " \n") := .inr ⟨32, by decide, _, rfl⟩
  have hopen : ∃ word, ascii " <" = word ++ [60] ∧ (60 : UInt8) ∉ word := ⟨[32], rfl, by decide⟩
  cases block with
  | ifname => rw [rtaRest, readBlock, between_angle hangle hopen, rtaBlockValue]
  | address =>
      rw [rtaRest, readBlock, between_angle hangle hopen, filter_hexText, unhex_hexText,
        rtaBlockValue]
  | stats64 =>
      exact congrArg RtaValue.numbers
        (readNums_labelled hend isLabel_stats64 (length_val_nums m _ _) hcolon)
  | stats =>
      exact congrArg RtaValue.numbers
        (readNums_labelled (.inl rfl) isLabel_stats (length_val_nums m _ _) hcolon)
  | map =>
      exact congrArg RtaValue.numbers
        (readNums_labelled (.inl rfl) isLabel_map (length_val_nums m _ _) hcolon)
  | promiscuity =>
      have hoff : ascii " <promisc=off>" = ascii " <" ++ ascii "promisc=off" ++ ascii ">" := rfl
      have hon : ascii " <promisc=on>" = ascii " <" ++ ascii "promisc=on" ++ ascii ">" := rfl
      have hne : ascii "promisc=off" ≠ ascii "promisc=on" := by decide
      rw [rtaRest, readBlock, rtaBlockValue]
      split_ifs with h0
      · rw [hoff, between_angle hangle hopen]
        simp [h0, hne]
      · rw [hon, between_angle hangle hopen]
        simp [h0]
  | num width =>
      rw [rtaRest, readBlock, between_angle hangle hopen,
        readDigits_printNum (by norm_num) (by norm_num)]
      rfl
  | afSpec => rfl
  | default =>
      have hlong : ∃ word, ascii " unsupport-data=<" = word ++ [60] ∧ (60 : UInt8) ∉ word :=
        ⟨ascii " unsupport-data=", rfl, by decide⟩
      rw [rtaRest, readBlock, between_angle hangle hlong, unhex_hexText, rtaBlockValue]

/-- The strings of the formats, without those of the names. -/
def RtaCase.literals : RtaCase → List String
  | .address => [" <", ":", ">"]
  | .stats64 => " \n" :: stats64Labels
  | .stats => statsLabels
  | .map => mapLabels
  | .promiscuity => [" <promisc=off>", " <promisc=on>"]
  | .afSpec => [" <unsupported yet>"]
  | .default => [" unsupport-data=<", ">"]
  | _ => [" <", ">"]

theorem notMem_hexText {c : UInt8} (hc : c.toNat < 48) {suffix : List UInt8} (hs : c ∉ suffix)
    (data : List UInt8) : c ∉ hexText suffix data := by
  intro h
  obtain ⟨b, -, hb⟩ := List.mem_flatMap.mp h
  rcases List.mem_append.mp hb with hb | hb
  · exact notMem_printNum (by norm_num) le_rfl hc 2 _ hb
  · exact hs hb

theorem notMem_labelled {c : UInt8} (hc : c.toNat < 48) {labels : List String}
    (hl : ∀ s ∈ labels, c ∉ ascii s) (values : List ℕ) : c ∉ labelled labels values := by
  intro h
  obtain ⟨p, hp, hcp⟩ := List.mem_flatMap.mp h
  rcases List.mem_append.mp hcp with hcp | hcp
  · exact hl _ (List.of_mem_zip hp).1 hcp
  · exact notMem_printNum (by norm_num) (by norm_num) hc 1 _ hcp

/-- Besides digits there is only what the formats and the string of the attribute hold. -/
theorem notMem_rtaRest {c : UInt8} (hc : c.toNat < 48) {m : Mem} {rta len : ℕ} {block : RtaCase}
    (hstr : block = .ifname → c ∉ cstr (bytesAt m (rta + 4) len))
    (hlit : ∀ s ∈ block.literals, c ∉ ascii s) : c ∉ rtaRest m rta len block := by
  have hnum (k : ℕ) : c ∉ printNum 10 1 k := notMem_printNum (by norm_num) (by norm_num) hc 1 k
  cases block with
  | promiscuity =>
      rw [rtaRest]
      split_ifs
      · exact hlit _ (.head _)
      · exact hlit _ (.tail _ (.head _))
  | afSpec => exact hlit _ (.head _)
  | stats64 =>
      rw [rtaRest, List.mem_append, not_or]
      exact ⟨notMem_labelled hc (fun s hs => hlit s (.tail _ hs)) _, hlit _ (.head _)⟩
  | stats =>
      rw [rtaRest, List.append_nil]
      exact notMem_labelled hc hlit _
  | map =>
      rw [rtaRest, List.append_nil]
      exact notMem_labelled hc hlit _
  | ifname =>
      rw [rtaRest, List.mem_append, List.mem_append, not_or, not_or]
      exact ⟨⟨hlit _ (.head _), hstr rfl⟩, hlit _ (.tail _ (.head _))⟩
  | address =>
      rw [rtaRest, List.mem_append, List.mem_append, not_or, not_or]
      exact ⟨⟨hlit _ (.head _), notMem_hexText hc (hlit _ (.tail _ (.head _))) _⟩,
        hlit _ (.tail _ (.tail _ (.head _)))⟩
  | num width =>
      rw [rtaRest, List.mem_append, List.mem_append, not_or, not_or]
      exact ⟨⟨hlit _ (.head _), hnum _⟩, hlit _ (.tail _ (.head _))⟩
  | default =>
      rw [rtaRest, List.mem_append, List.mem_append, not_or, not_or]
      exact ⟨⟨hlit _ (.head _), notMem_hexText hc List.not_mem_nil _⟩, hlit _ (.tail _ (.head _))⟩

theorem nul_notMem_rtaRest (m : Mem) (rta len : ℕ) (block : RtaCase) :
    (0 : UInt8) ∉ rtaRest m rta len block := by
  apply notMem_rtaRest (by decide) fun _ => nul_notMem_cstr _
  cases block with
  | num width => exact (by decide : ∀ s ∈ [" <", ">"], (0 : UInt8) ∉ ascii s)
  | _ => decide

/-! ### Links -/

theorem readRta_unknownKindText (s : List UInt8) :
    readRta (unknownKindText s) = (some IFLA_LINKINFO, .kind s) := by
  have hword : (unknownKindText s).takeWhile (· ≠ 32) = ascii "UNKNOWN" :=
    takeWhile_word (ascii "UNKNOWN") (ascii "LINK KIND (" ++ s ++ ascii ")")
  have hparen : (40 : UInt8) ∉ ascii "UNKNOWN LINK KIND " := by decide
  have hsplit : unknownKindText s = ascii "UNKNOWN LINK KIND " ++ 40 :: (s ++ [41]) := by
    rw [unknownKindText, List.append_assoc]
    rfl
  have htype : readType (unknownKindText s) = some IFLA_LINKINFO := by
    rw [readType]
    exact if_pos hword
  rw [readRta, htype, if_pos rfl, readLinkinfo, if_pos hword, hsplit, between_append hparen]

/-- The three numbers of a VLAN, two of them in hex. -/
theorem readNums_vlanText (v : InterfaceInfoVlan) :
    readNums 3 (vlanText v) = [v.id, v.proto, v.flags] := by
  have hid : (58 : UInt8) ∉ ascii "IFLA_LINKINFO vlan(id" := by decide
  have hproto : (58 : UInt8) ∉ printNum 10 1 v.id ++ ascii ", proto" := by
    have hlabel : (58 : UInt8) ∉ ascii ", proto" := by decide
    rw [List.mem_append, not_or]
    exact ⟨colon_notMem_printNum (by norm_num) (by norm_num) 1 _, hlabel⟩
  have hhex : ∀ w n, ∀ c ∈ ascii "0x" ++ printNum 16 w n, c ≠ 58 ∧ c ∉ stops := by
    have hzero : (ascii "0x").all (fun c => c ≠ 58 ∧ c ∉ stops) = true := rfl
    have hdigit : ∀ d < 16, digitChar d ≠ 58 ∧ digitChar d ∉ stops := by decide
    intro w n c hc
    exact (List.mem_append.mp hc).elim (fun h => of_decide_eq_true (List.all_eq_true.mp hzero c h))
      (forall_mem_printNum (p := fun c => c ≠ 58 ∧ c ∉ stops) (by norm_num) le_rfl hdigit c)
  have hflags : (58 : UInt8) ∉ (ascii "0x" ++ printNum 16 4 v.proto) ++ ascii ", flags" := by
    have hlabel : (58 : UInt8) ∉ ascii ", flags" := by decide
    rw [List.mem_append, not_or]
    exact ⟨fun h => (hhex 4 _ 58 h).1 rfl, hlabel⟩
  have hcomma (rest : List UInt8) :
      EndsWord (ascii ", proto" ++ rest) ∧ EndsWord (ascii ", flags" ++ rest) :=
    ⟨.inr ⟨44, by decide, _, rfl⟩, .inr ⟨44, by decide, _, rfl⟩⟩
  have hclose : EndsWord (ascii ")") := .inr ⟨41, by decide, [], rfl⟩
  have hsplit : vlanText v = ascii "IFLA_LINKINFO vlan(id" ++ 58 :: (printNum 10 1 v.id ++
      (ascii ", proto" ++ 58 :: ((ascii "0x" ++ printNum 16 4 v.proto) ++
        (ascii ", flags" ++ 58 :: ((ascii "0x" ++ printNum 16 8 v.flags) ++ ascii ")"))))) := by
    unfold vlanText
    simp only [List.append_assoc]
    rfl
  rw [hsplit, readNums_succ 2 hid (notMem_stops_printNum (by norm_num) (by norm_num)) (hcomma _).1,
    ← List.append_assoc, readNums_succ 1 hproto (fun c hc => (hhex 4 _ c hc).2) (hcomma _).2,
    ← List.append_assoc, readNums_succ 0 hflags (fun c hc => (hhex 8 _ c hc).2) hclose,
    readNum_dec, readNum_hex, readNum_hex]
  rfl

theorem readRta_vlanText (v : InterfaceInfoVlan) :
    readRta (vlanText v) = (some IFLA_LINKINFO, .vlan v) := by
  have hsplit : ∃ rest, vlanText v = rtaTypeToStr IFLA_LINKINFO ++ 32 :: rest := by
    unfold vlanText
    simp only [List.append_assoc]
    exact ⟨_, rfl⟩
  obtain ⟨rest, hrest⟩ := hsplit
  have htype : readType (vlanText v) = some IFLA_LINKINFO := by
    rw [hrest, readType_append]
    exact if_pos (by decide)
  have hword : (vlanText v).takeWhile (· ≠ 32) ≠ ascii "UNKNOWN" := by
    rw [hrest, takeWhile_word]
    decide
  rw [readRta, htype, if_pos rfl, readLinkinfo, if_neg hword, readNums_vlanText]
  rfl

theorem nul_notMem_unknownKindText {s : List UInt8} (h : (0 : UInt8) ∉ s) :
    (0 : UInt8) ∉ unknownKindText s := by
  have hopen : (0 : UInt8) ∉ ascii "UNKNOWN LINK KIND (" := by decide
  have hclose : (0 : UInt8) ∉ ascii ")" := by decide
  simp only [unknownKindText, List.mem_append, not_or]
  exact ⟨⟨hopen, h⟩, hclose⟩

theorem nul_notMem_vlanText (v : InterfaceInfoVlan) : (0 : UInt8) ∉ vlanText v := by
  have hid : (0 : UInt8) ∉ ascii "IFLA_LINKINFO vlan(id:" := by decide
  have hproto : (0 : UInt8) ∉ ascii ", proto:0x" := by decide
  have hflags : (0 : UInt8) ∉ ascii ", flags:0x" := by decide
  have hclose : (0 : UInt8) ∉ ascii ")" := by decide
  have hnum (b w n : ℕ) (hb : 1 < b) (hb' : b ≤ 16) := nul_notMem_printNum (w := w) (n := n) hb hb'
  simp only [vlanText, List.mem_append, not_or]
  exact ⟨⟨⟨⟨⟨⟨hid, hnum 10 1 _ (by norm_num) (by norm_num)⟩, hproto⟩,
    hnum 16 4 _ (by norm_num) le_rfl⟩, hflags⟩, hnum 16 8 _ (by norm_num) le_rfl⟩, hclose⟩

/-- The text of an `IFLA_LINKINFO` is a string and shows what was decoded. -/
theorem readRta_linkinfoText {m : Mem} {rta : ℕ} {text : List UInt8}
    (h : linkinfoText m rta = .ok text) :
    (0 : UInt8) ∉ text ∧ readRta text = (some IFLA_LINKINFO, linkinfoValue m rta) := by
  obtain ⟨-, -, -, hresult⟩ := linkinfoText_eq_ok_iff.mp h
  have hunknown : ∀ s : List UInt8, (0 : UInt8) ∉ s → text = unknownKindText s →
      (0 : UInt8) ∉ text ∧ readRta text = (some IFLA_LINKINFO, .kind s) := by
    rintro s hs rfl
    exact ⟨nul_notMem_unknownKindText hs, readRta_unknownKindText s⟩
  unfold linkinfoValue
  split_ifs at hresult with hvlan
  · obtain ⟨-, hdata⟩ := hresult
    simp only at hdata
    split_ifs at hdata with htype
    · obtain ⟨v, hexits, rfl⟩ := hdata
      simp only [hvlan, htype, and_self, if_true, vlanAttrs_eq_iff.mpr hexits]
      exact ⟨nul_notMem_vlanText v, readRta_vlanText v⟩
    · simp only [hvlan, htype, and_false, if_false]
      exact hunknown _ (by decide) hdata
  · simp only [hvlan, false_and, if_false]
    exact hunknown _ (nul_notMem_cstr _) hresult

/-! ### Attributes -/

theorem rtaCase_of_ge {type : ℕ} (h : rtaTypes.length ≤ type) : rtaCase type = .default := by
  have hlen : rtaTypes.length = 40 := rfl
  rw [hlen] at h
  have hne : ∀ t < 40, type ≠ t := fun t ht => by omega
  have hnot : ∀ ts : List ℕ, (∀ t ∈ ts, t < 40) → type ∉ ts :=
    fun ts hts hmem => hne type (hts type hmem) rfl
  unfold rtaCase
  rw [if_neg (hne _ (by decide)), if_neg (hnot _ (by decide)), if_neg (hne _ (by decide)),
    if_neg (hne _ (by decide)), if_neg (hne _ (by decide)), if_neg (hne _ (by decide)),
    if_neg (hnot _ (by decide)), if_neg (hnot _ (by decide)), if_neg (hne _ (by decide))]

variable {m : Mem} {rta len : ℕ} {str : List UInt8}

/-- The text for another type is a string and shows what was decoded. -/
theorem readRta_rtaText (hlink : rtattrType m rta ≠ IFLA_LINKINFO) {text : List UInt8}
    (h : (rtaText rta len).val m = .ok text) :
    (0 : UInt8) ∉ text ∧ readRta text =
      (if rtattrType m rta < rtaTypes.length then some (rtattrType m rta) else none,
        rtaBlockValue m rta len (rtaCase (rtattrType m rta))) := by
  have htext := rtaText_eq h
  generalize rtattrType m rta = type at htext hlink ⊢
  subst htext
  have hnul : (0 : UInt8) ∉ rtaTypeToStr type := notMem_rtaTypeToStr (by decide) type
  have hcolon : (58 : UInt8) ∉ rtaTypeToStr type := notMem_rtaTypeToStr (by decide) type
  have hangle : (60 : UInt8) ∉ rtaTypeToStr type := notMem_rtaTypeToStr (by decide) type
  obtain ⟨rest, hrest⟩ := rtaRest_starts m rta len (rtaCase type)
  have htype : readType (rtaTypeToStr type ++ rtaRest m rta len (rtaCase type)) =
      if type < rtaTypes.length then some type else none := by
    rw [hrest, readType_append]
  have hblock := readBlock_append m rta len (rtaCase type) hcolon hangle
  constructor
  · rw [List.mem_append, not_or]
    exact ⟨hnul, nul_notMem_rtaRest m rta len _⟩
  · by_cases hlt : type < rtaTypes.length
    · rw [readRta, htype, if_pos hlt, if_neg fun heq => hlink (Option.some.inj heq),
        Option.elim_some, hblock]
    · rw [rtaCase_of_ge (Nat.not_lt.mp hlt)] at htype hblock ⊢
      rw [readRta, htype, if_neg hlt, if_neg (Option.some_ne_none _).symm, Option.elim_none, hblock]

/-- **Attributes**: a text that leaves a byte of the buffer free was not cut; then the type of the
attribute, if it has a name, and everything that was decoded of its payload are read back from
the text. -/
theorem rtaToStr_reads_back (h : rtaToStr m rta len = .ok str) (huncut : strlen str + 1 < len) :
    readRta (cstr str) = (if rtattrType m rta < rtaTypes.length then some (rtattrType m rta)
      else none, rtaValue m rta len) := by
  unfold rtaToStr at h
  unfold rtaValue
  split_ifs at h with hlink
  · obtain ⟨text, htext, rfl⟩ := rtaToStrIflaLinkinfo_eq_ok_iff.mp h
    obtain ⟨hnul, hread⟩ := readRta_linkinfoText htext
    rw [cstr_snprintf_of_strlen hnul huncut, hread, if_pos hlink, hlink]
    rfl
  · cases htext : (rtaText rta len).val m with
    | error e => rw [htext] at h; cases h
    | ok text =>
        rw [htext] at h
        cases h
        obtain ⟨hnul, hread⟩ := readRta_rtaText hlink htext
        rw [cstr_snprintf_of_strlen hnul huncut, hread, if_neg hlink]

theorem rtaToStr_reads_back_mtu :
    readRta (cstr (snprintf [] 100 (ascii "IFLA_MTU <1500>"))) = (some 4, .numbers [1500]) := by
  have hstr : rtaToStr (write (fun _ => 0) 0 mtuAttr.bytes) 0 100 =
      .ok (snprintf [] 100 (ascii "IFLA_MTU <1500>")) := by decide
  exact rtaToStr_reads_back hstr (by decide)

end Hspp
