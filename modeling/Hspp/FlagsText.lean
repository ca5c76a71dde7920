import Hspp.Flags

/-! # What the text of a flags word says

`snprintflags_long` and `snprintflags_short` write the names of the bits that are set, in
ascending order and with a `|` between them (`snprintflags_text`).  So the text tells which of
the first 32 entries of the table are set, as long as their names are told apart and none of
them is empty or has a `|` in it (`Separable`). -/

namespace Hspp

open Text

/-- The bits that have an entry. -/
abbrev Bit (fstr : List FlagsStr) : Type := Fin (min fstr.length 32)

/-- The entry of a bit. -/
def entry (fstr : List FlagsStr) (i : Bit fstr) : FlagsStr :=
  fstr.get ⟨i.1, i.2.trans_le (Nat.min_le_left ..)⟩

/-- The names of the bits of `flags` that are set, in ascending order. -/
def bitNames (name : FlagsStr → Name) (flags : BitVec 32) (fstr : List FlagsStr) :
    List (List UInt8) :=
  ((List.finRange (min fstr.length 32)).filter fun i => flags.getLsbD i.1).map fun i =>
    (name (entry fstr i)).text

/-- The names of a table are told apart, and from the separator. -/
structure Separable (name : FlagsStr → Name) (fstr : List FlagsStr) : Prop where
  nodup : (fstr.map fun f => (name f).text).Nodup
  nonempty : ∀ f ∈ fstr, (name f).text ≠ []
  noBar : ∀ f ∈ fstr, (124 : UInt8) ∉ (name f).text

/-! ### The loop and the bits -/

/-- The test of the loop looks at one bit, up to the last one. -/
theorem flagSet_eq_getLsbD (flags : BitVec 32) {i : ℕ} (hi : i < 32) :
    flagSet flags i = flags.getLsbD i := by
  have hpow : BitVec.twoPow 32 i ≠ 0#32 := by
    intro h
    have hbit := congrArg (·.getLsbD i) h
    simp [hi] at hbit
  rw [flagSet, ← BitVec.twoPow_eq, BitVec.and_twoPow]
  cases flags.getLsbD i with
  | false => rfl
  | true => simpa using hpow

theorem flagsEntries_eq (fstr : List FlagsStr) :
    flagsEntries fstr = (List.finRange (min fstr.length 32)).map fun i => (entry fstr i, i.1) := by
  unfold flagsEntries entry
  apply List.ext_getElem
  · simp
  · intro k h h'
    simp

/-- The names that the loop appends are those of the bits that are set. -/
theorem setNames_flagsEntries (name : FlagsStr → Name) (flags : BitVec 32)
    (fstr : List FlagsStr) :
    setNames name flags (flagsEntries fstr) = bitNames name flags fstr := by
  unfold setNames bitNames
  rw [flagsEntries_eq, List.filter_map, List.map_map]
  have hset : ∀ i : Bit fstr, flagSet flags i.1 = flags.getLsbD i.1 := fun i =>
    flagSet_eq_getLsbD flags (i.2.trans_le (Nat.min_le_right ..))
  simp only [Function.comp_def, hset]

theorem flagsText_eq (name : FlagsStr → Name) (flags : BitVec 32) (fstr : List FlagsStr) :
    flagsText name flags fstr = (ascii "|").intercalate (bitNames name flags fstr) := by
  rw [flagsText, setNames_flagsEntries]

/-! ### Reading the bits back -/

theorem entry_mem (fstr : List FlagsStr) (i : Bit fstr) : entry fstr i ∈ fstr :=
  List.getElem_mem _

/-- Different bits have different names. -/
theorem Separable.name_inj {name : FlagsStr → Name} {fstr : List FlagsStr}
    (h : Separable name fstr) {i j : Bit fstr}
    (heq : (name (entry fstr i)).text = (name (entry fstr j)).text) : i = j := by
  have hmap : ∀ k : Bit fstr, k.1 < (fstr.map fun f => (name f).text).length := by
    intro k
    rw [List.length_map]
    exact k.2.trans_le (Nat.min_le_left ..)
  have hget : (fstr.map fun f => (name f).text).get ⟨i.1, hmap i⟩ =
      (fstr.map fun f => (name f).text).get ⟨j.1, hmap j⟩ := by
    rw [List.get_eq_getElem, List.get_eq_getElem, List.getElem_map, List.getElem_map]
    exact heq
  exact Fin.ext (h.nodup.getElem_inj_iff.mp hget)

/-- The name of a bit is written just when the bit is set. -/
theorem mem_bitNames_iff {name : FlagsStr → Name} {fstr : List FlagsStr}
    (h : Separable name fstr) (flags : BitVec 32) (i : Bit fstr) :
    (name (entry fstr i)).text ∈ bitNames name flags fstr ↔ flags.getLsbD i.1 = true := by
  unfold bitNames
  rw [List.mem_map]
  constructor
  · rintro ⟨j, hj, heq⟩
    rw [← h.name_inj heq]
    exact (List.mem_filter.mp hj).2
  · exact fun hset => ⟨i, List.mem_filter.mpr ⟨List.mem_finRange i, hset⟩, rfl⟩

theorem Separable.of_mem_bitNames {name : FlagsStr → Name} {fstr : List FlagsStr}
    (h : Separable name fstr) (flags : BitVec 32) :
    ∀ s ∈ bitNames name flags fstr, s ≠ [] ∧ (124 : UInt8) ∉ s := by
  intro s hs
  obtain ⟨i, -, rfl⟩ := List.mem_map.mp hs
  exact ⟨h.nonempty _ (entry_mem fstr i), h.noBar _ (entry_mem fstr i)⟩

/-- The same text means the same bits. -/
theorem flagsText_eq_iff {name : FlagsStr → Name} {fstr : List FlagsStr}
    (h : Separable name fstr) (flags flags' : BitVec 32) :
    flagsText name flags fstr = flagsText name flags' fstr ↔
      ∀ i < min fstr.length 32, flags.getLsbD i = flags'.getLsbD i := by
  rw [flagsText_eq, flagsText_eq]
  constructor
  · intro heq i hi
    have hnames := intercalate_inj (h.of_mem_bitNames flags) (h.of_mem_bitNames flags') heq
    apply Bool.eq_iff_iff.mpr
    rw [← mem_bitNames_iff h flags ⟨i, hi⟩, hnames, mem_bitNames_iff h flags' ⟨i, hi⟩]
  · intro hbits
    have hfilter : bitNames name flags fstr = bitNames name flags' fstr := by
      unfold bitNames
      rw [List.filter_congr fun i _ => hbits i.1 i.2]
    rw [hfilter]

/-- **Text of flags**: in every buffer that is longer than it stands the text of the bits that
are set, with the long and with the short names; if the names are told apart, two flags words
have the same text exactly when they agree on the bits that have an entry. -/
theorem snprintflags_text (fstr : List FlagsStr) :
    (∀ (flags : BitVec 32) (len : ℕ),
      ((ascii "|").intercalate (bitNames FlagsStr.nameLong flags fstr)).length < len →
      inArray len (snprintflagsLong len flags fstr) =
        .ok ((ascii "|").intercalate (bitNames FlagsStr.nameLong flags fstr))) ∧
    (∀ (flags : BitVec 32) (len : ℕ),
      ((ascii "|").intercalate (bitNames FlagsStr.nameShort flags fstr)).length < len →
      inArray len (snprintflagsShort len flags fstr) =
        .ok ((ascii "|").intercalate (bitNames FlagsStr.nameShort flags fstr))) ∧
    (Separable FlagsStr.nameLong fstr → ∀ (flags flags' : BitVec 32) (len len' : ℕ),
      ((ascii "|").intercalate (bitNames FlagsStr.nameLong flags fstr)).length < len →
      ((ascii "|").intercalate (bitNames FlagsStr.nameLong flags' fstr)).length < len' →
      (inArray len (snprintflagsLong len flags fstr) =
          inArray len' (snprintflagsLong len' flags' fstr) ↔
        ∀ i < min fstr.length 32, flags.getLsbD i = flags'.getLsbD i)) ∧
    (Separable FlagsStr.nameShort fstr → ∀ (flags flags' : BitVec 32) (len len' : ℕ),
      ((ascii "|").intercalate (bitNames FlagsStr.nameShort flags fstr)).length < len →
      ((ascii "|").intercalate (bitNames FlagsStr.nameShort flags' fstr)).length < len' →
      (inArray len (snprintflagsShort len flags fstr) =
          inArray len' (snprintflagsShort len' flags' fstr) ↔
        ∀ i < min fstr.length 32, flags.getLsbD i = flags'.getLsbD i)) := by
  have htext : ∀ (name : FlagsStr → Name) (flags : BitVec 32) (len : ℕ),
      ((ascii "|").intercalate (bitNames name flags fstr)).length < len →
      inArray len (snprintflags name len flags fstr) =
        .ok ((ascii "|").intercalate (bitNames name flags fstr)) := by
    intro name flags len hlen
    rw [← flagsText_eq] at hlen ⊢
    exact inArray_snprintflags hlen
  have hiff : ∀ name : FlagsStr → Name, Separable name fstr →
      ∀ (flags flags' : BitVec 32) (len len' : ℕ),
      ((ascii "|").intercalate (bitNames name flags fstr)).length < len →
      ((ascii "|").intercalate (bitNames name flags' fstr)).length < len' →
      (inArray len (snprintflags name len flags fstr) =
          inArray len' (snprintflags name len' flags' fstr) ↔
        ∀ i < min fstr.length 32, flags.getLsbD i = flags'.getLsbD i) := by
    intro name hsep flags flags' len len' hlen hlen'
    rw [htext name flags len hlen, htext name flags' len' hlen', Except.ok.injEq,
      ← flagsText_eq, ← flagsText_eq]
    exact flagsText_eq_iff hsep flags flags'
  exact ⟨htext _, htext _, hiff _, hiff _⟩

/-- Two flags with their letters. -/
def upRunning : List FlagsStr := [⟨.of "UP", .of "U"⟩, ⟨.of "RUNNING", .of "R"⟩]

theorem snprintflags_text_upRunning :
    inArray 11 (snprintflagsLong 11 3#32 upRunning) =
        .ok ((ascii "|").intercalate (bitNames FlagsStr.nameLong 3#32 upRunning)) ∧
      inArray 4 (snprintflagsShort 4 3#32 upRunning) =
        .ok ((ascii "|").intercalate (bitNames FlagsStr.nameShort 3#32 upRunning)) ∧
      (inArray 11 (snprintflagsLong 11 3#32 upRunning) =
          inArray 3 (snprintflagsLong 3 1#32 upRunning) ↔
        ∀ i < min upRunning.length 32, (3#32).getLsbD i = (1#32).getLsbD i) ∧
      (inArray 4 (snprintflagsShort 4 3#32 upRunning) =
          inArray 4 (snprintflagsShort 4 7#32 upRunning) ↔
        ∀ i < min upRunning.length 32, (3#32).getLsbD i = (7#32).getLsbD i) :=
  ⟨(snprintflags_text upRunning).1 3#32 11 (by decide),
    (snprintflags_text upRunning).2.1 3#32 4 (by decide),
    (snprintflags_text upRunning).2.2.1 ⟨by decide, by decide, by decide⟩ 3#32 1#32 11 3
      (by decide) (by decide),
    (snprintflags_text upRunning).2.2.2 ⟨by decide, by decide, by decide⟩ 3#32 7#32 4 4
      (by decide) (by decide)⟩

end Hspp
