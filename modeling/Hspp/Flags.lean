import Hspp.Rtattr

/-! # Flags as text (`yalin/flags.h`)

A table gives each bit of a flags word a long and a short name.  `snprintflags_long` and
`snprintflags_short` are one loop over the bits: it appends the names of the bits that are
set, with a `|` between them, and bounds every append by `len`, the size of the buffer, not
by the space that is left in it.  `max_flag_bit` is the number of entries of the table in all
calls.

The loop stays inside the buffer exactly when the whole text is shorter than the buffer
(`staysInside_iff`); this holds as well for the arrays of 100 bytes that the three functions
for flags of messages and interfaces use. -/

namespace Hspp

open Text

/-- A string in a `char[100]`. -/
structure Name where
  text : List UInt8
  noNul : (0 : UInt8) ∉ text
  fits : text.length < 100

/-- The name that a string literal is, cut to 99 characters. -/
def Name.of (s : String) : Name where
  text := (cstr (ascii s)).take 99
  noNul := fun h => nul_notMem_cstr _ (List.mem_of_mem_take h)
  fits := (List.length_take_le ..).trans_lt (by norm_num)

/-- `struct flags_str`. -/
structure FlagsStr where
  nameLong : Name
  nameShort : Name

/-- `flags & 0x1<<i`. -/
def flagSet (flags : BitVec 32) (i : ℕ) : Bool := flags &&& 1#32 <<< i != 0#32

/-- The variables of the loop. -/
structure FlagsLoop where
  str : List UInt8
  first : Bool

/-- The body of the loop for bit `i` and its entry, `f = (fstr[i], i)`. -/
def flagsRound (name : FlagsStr → Name) (len : ℕ) (flags : BitVec 32) (s : FlagsLoop)
    (f : FlagsStr × ℕ) : FlagsLoop :=
  if flagSet flags f.2 then
    let str := if s.first then s.str else strncat s.str (ascii "|") len
    ⟨strncat str (name f.1).text len, false⟩
  else s

/-- The entries that the loop goes through, `MIN(max_flag_bit, sizeof(flags)*8)` of them. -/
def flagsEntries (fstr : List FlagsStr) : List (FlagsStr × ℕ) :=
  fstr.zipIdx.take (min fstr.length 32)

/-- The variables after `k` rounds. -/
def flagsLoop (name : FlagsStr → Name) (len : ℕ) (flags : BitVec 32) (fstr : List FlagsStr)
    (k : ℕ) : FlagsLoop :=
  ((flagsEntries fstr).take k).foldl (flagsRound name len flags) ⟨List.replicate len 0, true⟩

/-- The common body: the contents of `str`, and of what is written behind it. -/
def snprintflags (name : FlagsStr → Name) (len : ℕ) (flags : BitVec 32) (fstr : List FlagsStr) :
    List UInt8 :=
  (flagsLoop name len flags fstr (flagsEntries fstr).length).str

def snprintflagsLong : ℕ → BitVec 32 → List FlagsStr → List UInt8 := snprintflags FlagsStr.nameLong

def snprintflagsShort : ℕ → BitVec 32 → List FlagsStr → List UInt8 :=
  snprintflags FlagsStr.nameShort

/-! ### The tables and their users -/

/-- An entry whose short name is `non`, as in all tables. -/
def FlagsStr.long (name : Name) : FlagsStr := ⟨name, Name.of "non"⟩

/-- The table of `ifi_flags_to_str`. -/
def ifiFlags : List FlagsStr :=
  [.long (.of "IFA_F_TEMPORARY"), .long (.of "IFA_F_NODAD"), .long (.of "IFA_F_OPTIMISTIC"),
    .long (.of "IFA_F_DADFAILED"), .long (.of "IFA_F_HOMEADDRESS"), .long (.of "IFA_F_DEPRECATED"),
    .long (.of "IFA_F_TENTATIVE"), .long (.of "IFA_F_PERMANENT"),
    .long (.of "IFA_F_MANAGETEMPADDR"), .long (.of "IFA_F_NOPREFIXROUTE"),
    .long (.of "IFA_F_MCAUTOJOIN"), .long (.of "IFA_F_STABLE_PRIVACY")]

/-- `f_new`. -/
def fNew : List FlagsStr :=
  [.long (.of "NLM_F_REQUEST"), .long (.of "NLM_F_MULTI"), .long (.of "NLM_F_ACK"),
    .long (.of "NLM_F_ECHO"), .long (.of "NLM_F_DUMP_INTR"), .long (.of "NLM_F_DUMP_FILTERED"),
    .long (.of "NLM_F_REPLACE"), .long (.of "NLM_F_EXCL"), .long (.of "NLM_F_CREATE"),
    .long (.of "NLM_F_APPEND")]

/-- `f_get`. -/
def fGet : List FlagsStr :=
  [.long (.of "NLM_F_REQUEST"), .long (.of "NLM_F_MULTI"), .long (.of "NLM_F_ACK"),
    .long (.of "NLM_F_ECHO"), .long (.of "NLM_F_DUMP_INTR"), .long (.of "NLM_F_DUMP_FILTERED"),
    .long (.of "NLM_F_ROOT"), .long (.of "NLM_F_MATCH"), .long (.of "NLM_F_ATOMIC")]

/-- The text in an array of `size` bytes that `snprintflags_long` has filled, unless it wrote
behind it. -/
def inArray (size : ℕ) (str : List UInt8) : Except Halt (List UInt8) :=
  if size < str.length then .error .overrun else .ok (cstr str)

/-- `ifi_flags_to_str`, with `strbuf` as the buffer. -/
def ifiFlagsToStr (flags : BitVec 32) (len : ℕ) : Except Halt (List UInt8) :=
  inArray len (snprintflagsLong len flags ifiFlags)

/-- `nlmsg_flags_to_str_new`: the text goes through a local array of 100 bytes. -/
def nlmsgFlagsToStrNew (flags : BitVec 32) (len : ℕ) : Except Halt (List UInt8) :=
  (inArray 100 (snprintflagsLong 100 flags fNew)).map (snprintf [] len)

/-- `nlmsg_flags_to_str_get`. -/
def nlmsgFlagsToStrGet (flags : BitVec 32) (len : ℕ) : Except Halt (List UInt8) :=
  (inArray 100 (snprintflagsLong 100 flags fGet)).map (snprintf [] len)

/-! ### The text of a flags word -/

/-- The names of the bits that are set. -/
def setNames (name : FlagsStr → Name) (flags : BitVec 32) (fs : List (FlagsStr × ℕ)) :
    List (List UInt8) :=
  (fs.filter fun f => flagSet flags f.2).map fun f => (name f.1).text

/-- The names of the bits that are set among those of the table, with a `|` between them. -/
def flagsText (name : FlagsStr → Name) (flags : BitVec 32) (fstr : List FlagsStr) : List UInt8 :=
  (ascii "|").intercalate (setNames name flags (flagsEntries fstr))

/-- The strings appended for these names, the first of them without a `|` if `first`. -/
def appended (first : Bool) (names : List (List UInt8)) : List (List UInt8) :=
  if first then names.intersperse (ascii "|") else names.flatMap fun s => [ascii "|", s]

theorem appended_true_cons (s : List UInt8) (names : List (List UInt8)) :
    appended true (s :: names) = s :: appended false names := by
  induction names generalizing s with
  | nil => rfl
  | cons t names ih =>
      have hcons := ih t
      simp only [appended, if_true, Bool.false_eq_true, if_false] at hcons ⊢
      rw [List.intersperse_cons_cons, hcons, List.flatMap_cons]
      rfl

theorem setNames_cons (name : FlagsStr → Name) (flags : BitVec 32) (f : FlagsStr × ℕ)
    (fs : List (FlagsStr × ℕ)) :
    setNames name flags (f :: fs) =
      if flagSet flags f.2 then (name f.1).text :: setNames name flags fs
      else setNames name flags fs := by
  unfold setNames
  split_ifs with h
  · rw [List.filter_cons_of_pos (by exact h), List.map_cons]
  · rw [List.filter_cons_of_neg (by exact h)]

theorem noNul_of_mem_setNames {name : FlagsStr → Name} {flags : BitVec 32}
    {fs : List (FlagsStr × ℕ)} {s : List UInt8} (hs : s ∈ setNames name flags fs) :
    (0 : UInt8) ∉ s := by
  obtain ⟨f, -, rfl⟩ := List.mem_map.mp hs
  exact (name f.1).noNul

theorem noNul_of_mem_appended {first : Bool} {names : List (List UInt8)}
    (hnames : ∀ s ∈ names, (0 : UInt8) ∉ s) : ∀ s ∈ appended first names, (0 : UInt8) ∉ s := by
  have hbar : (0 : UInt8) ∉ ascii "|" := by decide
  have hrest : ∀ names : List (List UInt8), (∀ s ∈ names, (0 : UInt8) ∉ s) →
      ∀ s ∈ appended false names, (0 : UInt8) ∉ s := by
    intro names hnames s hs
    obtain ⟨t, ht, hst⟩ := List.mem_flatMap.mp hs
    rcases List.mem_pair.mp hst with rfl | rfl
    · exact hbar
    · exact hnames s ht
  cases first with
  | false => exact hrest names hnames
  | true =>
      cases names with
      | nil => simp [appended]
      | cons t names =>
          rw [appended_true_cons]
          intro s hs
          rcases List.mem_cons.mp hs with rfl | hs
          · exact hnames s (.head _)
          · exact hrest names (fun s hs => hnames s (.tail _ hs)) s hs

/-- The rounds append the names one after the other. -/
theorem foldl_flagsRound (name : FlagsStr → Name) (len : ℕ) (flags : BitVec 32) :
    ∀ (fs : List (FlagsStr × ℕ)) (s : FlagsLoop),
    (fs.foldl (flagsRound name len flags) s).str =
      strncats s.str ((appended s.first (setNames name flags fs)).map (·, len))
  | [], ⟨str, first⟩ => by cases first <;> rfl
  | f :: fs, ⟨str, first⟩ => by
      rw [List.foldl_cons, foldl_flagsRound name len flags fs, setNames_cons, flagsRound]
      by_cases hset : flagSet flags f.2
      swap
      · rw [if_neg hset, if_neg hset]
      rw [if_pos hset, if_pos hset]
      cases first with
      | true =>
          rw [appended_true_cons, List.map_cons, strncats_cons]
          rfl
      | false =>
          simp only [appended, Bool.false_eq_true, if_false, List.flatMap_cons, List.map_append]
          rw [strncats_append]
          rfl

theorem flatten_appended (name : FlagsStr → Name) (flags : BitVec 32) (fstr : List FlagsStr) :
    (appended true (setNames name flags (flagsEntries fstr))).flatten =
      flagsText name flags fstr := rfl

/-! ### Inside the buffer -/

/-- After every round nothing is written behind the `len` bytes of `str`, and a NUL is in
them. -/
def StaysInside (name : FlagsStr → Name) (len : ℕ) (flags : BitVec 32) (fstr : List FlagsStr) :
    Prop :=
  ∀ k ≤ (flagsEntries fstr).length, (flagsLoop name len flags fstr k).str.length = len ∧
    (0 : UInt8) ∈ (flagsLoop name len flags fstr k).str

/-- The text only grows from round to round. -/
theorem length_flagsLoop_le (name : FlagsStr → Name) (len : ℕ) (flags : BitVec 32)
    (fstr : List FlagsStr) (k : ℕ) :
    (flagsLoop name len flags fstr k).str.length ≤ (snprintflags name len flags fstr).length := by
  have hround : ∀ (fs : List (FlagsStr × ℕ)) (s : FlagsLoop),
      s.str.length ≤ (fs.foldl (flagsRound name len flags) s).str.length := by
    intro fs
    induction fs with
    | nil => exact fun _ => le_rfl
    | cons f fs ih =>
        refine fun s => le_trans ?_ (ih _)
        unfold flagsRound
        split_ifs
        · exact (length_strncat s.str _ len).ge.trans' (le_max_left ..)
        · exact ((length_strncat s.str _ len).ge.trans' (le_max_left ..)).trans
            ((length_strncat _ _ len).ge.trans' (le_max_left ..))
        · exact le_rfl
  have hsplit := List.take_append_drop k (flagsEntries fstr)
  rw [snprintflags, flagsLoop, flagsLoop, List.take_length]
  nth_rewrite 2 [← hsplit]
  rw [List.foldl_append]
  exact hround _ _

theorem noNul_of_mem_pieces {name : FlagsStr → Name} {flags : BitVec 32}
    {fs : List (FlagsStr × ℕ)} : ∀ s ∈ appended true (setNames name flags fs), (0 : UInt8) ∉ s :=
  noNul_of_mem_appended fun _ => noNul_of_mem_setNames

theorem snprintflags_eq (name : FlagsStr → Name) (len : ℕ) (flags : BitVec 32)
    (fstr : List FlagsStr) :
    snprintflags name len flags fstr = strncats (List.replicate len 0)
      ((appended true (setNames name flags (flagsEntries fstr))).map (·, len)) := by
  rw [snprintflags, flagsLoop, List.take_length, foldl_flagsRound]

theorem length_snprintflags_iff (name : FlagsStr → Name) {len : ℕ} (hlen : 0 < len)
    (flags : BitVec 32) (fstr : List FlagsStr) :
    (snprintflags name len flags fstr).length = len ↔ (flagsText name flags fstr).length < len := by
  rw [snprintflags_eq, strncats_replicate_fits_iff hlen noNul_of_mem_pieces, flatten_appended]

/-- **Buffers**: the loop stays inside the buffer exactly when the text of the flags word is
shorter than the buffer. -/
theorem staysInside_iff (name : FlagsStr → Name) (len : ℕ) (flags : BitVec 32)
    (fstr : List FlagsStr) :
    StaysInside name len flags fstr ↔ (flagsText name flags fstr).length < len := by
  obtain rfl | hlen := Nat.eq_zero_or_pos len
  · refine iff_of_false (fun h => ?_) (Nat.not_lt_zero _)
    obtain ⟨hempty, hmem⟩ := h 0 (Nat.zero_le _)
    rw [List.length_eq_zero_iff.mp hempty] at hmem
    exact absurd hmem List.not_mem_nil
  rw [← length_snprintflags_iff name hlen]
  constructor
  · exact fun h => (h _ le_rfl).1
  · intro h k _
    have hempty : strlen (List.replicate len 0) < (List.replicate len (0 : UInt8)).length := by
      rwa [strlen_replicate hlen, List.length_replicate]
    have hgrow := length_strncats
      ((appended true (setNames name flags ((flagsEntries fstr).take k))).map (·, len)) _ hempty
    have hle := length_flagsLoop_le name len flags fstr k
    rw [List.length_replicate, ← foldl_flagsRound name len flags _ ⟨_, true⟩] at hgrow
    rw [flagsLoop] at hle ⊢
    exact ⟨by omega, (strlen_lt_iff _).mp (by omega)⟩

/-- A text that fits is left in the array as it is. -/
theorem inArray_snprintflags {name : FlagsStr → Name} {len : ℕ} {flags : BitVec 32}
    {fstr : List FlagsStr} (h : (flagsText name flags fstr).length < len) :
    inArray len (snprintflags name len flags fstr) = .ok (flagsText name flags fstr) := by
  have hsize := (length_snprintflags_iff name (Nat.zero_lt_of_lt h) flags fstr).mpr h
  rw [inArray, if_neg (by omega), snprintflags_eq,
    cstr_strncats_replicate noNul_of_mem_pieces (by rwa [flatten_appended]), flatten_appended]

/-- Otherwise something was written behind the array. -/
theorem inArray_eq_ok_iff (name : FlagsStr → Name) {len : ℕ} (hlen : 0 < len)
    (flags : BitVec 32) (fstr : List FlagsStr) :
    (∃ text, inArray len (snprintflags name len flags fstr) = .ok text) ↔
      (flagsText name flags fstr).length < len := by
  refine ⟨?_, fun h => ⟨_, inArray_snprintflags h⟩⟩
  rintro ⟨text, htext⟩
  have hge : len ≤ (snprintflags name len flags fstr).length := by
    have := length_flagsLoop_le name len flags fstr 0
    rwa [flagsLoop, List.take_zero, List.foldl_nil, List.length_replicate] at this
  rw [← length_snprintflags_iff name hlen]
  unfold inArray at htext
  split_ifs at htext
  omega

theorem nlmsgFlagsToStrNew_eq_ok_iff (flags : BitVec 32) (len : ℕ) :
    (∃ text, nlmsgFlagsToStrNew flags len = .ok text) ↔
      (flagsText FlagsStr.nameLong flags fNew).length < 100 := by
  rw [← inArray_eq_ok_iff FlagsStr.nameLong (by norm_num), nlmsgFlagsToStrNew, snprintflagsLong]
  cases inArray 100 (snprintflags FlagsStr.nameLong 100 flags fNew) <;> simp [Except.map]

theorem nlmsgFlagsToStrGet_eq_ok_iff (flags : BitVec 32) (len : ℕ) :
    (∃ text, nlmsgFlagsToStrGet flags len = .ok text) ↔
      (flagsText FlagsStr.nameLong flags fGet).length < 100 := by
  rw [← inArray_eq_ok_iff FlagsStr.nameLong (by norm_num), nlmsgFlagsToStrGet, snprintflagsLong]
  cases inArray 100 (snprintflags FlagsStr.nameLong 100 flags fGet) <;> simp [Except.map]

/-- **Flags**: for every flags word, table and buffer size, with the long and with the short
names, the loop stays inside the buffer exactly when the text is shorter than the buffer; and
so do the functions for the flags of messages and interfaces with their 100 bytes. -/
theorem snprintflags_inside_iff (len : ℕ) (flags : BitVec 32) (fstr : List FlagsStr) :
    (StaysInside FlagsStr.nameLong len flags fstr ↔
        (flagsText FlagsStr.nameLong flags fstr).length < len) ∧
      (StaysInside FlagsStr.nameShort len flags fstr ↔
        (flagsText FlagsStr.nameShort flags fstr).length < len) ∧
      ((∃ text, nlmsgFlagsToStrGet flags 100 = .ok text) ↔
        (flagsText FlagsStr.nameLong flags fGet).length < 100) ∧
      ((∃ text, nlmsgFlagsToStrNew flags 100 = .ok text) ↔
        (flagsText FlagsStr.nameLong flags fNew).length < 100) ∧
      ((∃ text, ifiFlagsToStr flags 100 = .ok text) ↔
        (flagsText FlagsStr.nameLong flags ifiFlags).length < 100) :=
  ⟨staysInside_iff .., staysInside_iff .., nlmsgFlagsToStrGet_eq_ok_iff ..,
    nlmsgFlagsToStrNew_eq_ok_iff .., inArray_eq_ok_iff _ (by norm_num) ..⟩

/-- The flags of an interface that is up, running, promiscuous, enslaved and receives all
multicasts. -/
theorem not_staysInside_ifiFlags : ¬ StaysInside FlagsStr.nameLong 100 0x11b43#32 ifiFlags ∧
    ¬ ∃ text, ifiFlagsToStr 0x11b43#32 100 = .ok text := by
  have hlong : ¬ (flagsText FlagsStr.nameLong 0x11b43#32 ifiFlags).length < 100 := by decide
  rw [staysInside_iff, ifiFlagsToStr, snprintflagsLong, inArray_eq_ok_iff _ (by norm_num)]
  exact ⟨hlong, hlong⟩

end Hspp
