import Hspp.Hexdump
import Hspp.Lib.CLex

/-! # `carrydump` (`yalin/hexdump.h`)

`carrydump` prints a buffer as the definition of an array, with the characters of every row of
eight bytes in a comment behind them.  The characters are not looked at: where a row has a `*`
and a `/` next to each other, the comment ends there, and the rest of the row is read as code.

A row is `Quiet` when nothing is left of its characters for a C scanner but comments and blanks,
and the last comment ends with the row; every row without `*/` is (`quiet_of_no_close`).  A row
with a `/` at its end that is outside of comments opens one with the `*` behind it, in which the
elements of the next row are lost.

The text is read row by row (`scan_carryLine`), between a head and an end that are always the same
(`arrayDef_of_scan`). -/

namespace Hspp

open CLex Loop Memory Rows Text

/-- A comment of one line. -/
structure SingleLine where
  text : List UInt8
  noNewline : (10 : UInt8) ∉ text

/-- `"0x%02x, "` for every byte. -/
def carryCells (bytes : List UInt8) : List UInt8 :=
  bytes.flatMap fun c => ascii "0x" ++ printNum 16 2 c.toNat ++ ascii ", "

/-- A row without its newline. -/
def carryLine (bytes : List UInt8) : List UInt8 :=
  ascii "  " ++ carryCells bytes ++ (List.replicate (8 - bytes.length) (ascii "      ")).flatten ++
    ascii "   /*" ++ hexChars bytes ++ ascii "*/"

/-- What is printed before the rows. -/
def carryHead (comment : Option SingleLine) : List UInt8 :=
  (comment.elim [] fun c => ascii "// " ++ c.text ++ ascii " \n") ++
    ascii "static uint8_t arry[] = \x7b\n"

/-- The loop of `carrydump`. -/
def carrydumpLoop : Mem → DumpLoop → DumpLoop ⊕ List UInt8 := dumpLoop 8 fun _ => carryLine

/-- `carrydump` prints the text. -/
def CarryPrints (comment : Option SingleLine) (m : Mem) (buffer bufferlen : ℕ)
    (text : List UInt8) : Prop :=
  ∃ out, Exits (carrydumpLoop m) ⟨buffer, bufferlen, 0, carryHead comment⟩ out ∧
    text = out ++ ascii "\x7d;\n"

/-- What is printed is read as the definition of an array with the bytes of the buffer. -/
def Reloads (comment : Option SingleLine) (m : Mem) (buffer bufferlen : ℕ) : Prop :=
  ∃ text, CarryPrints comment m buffer bufferlen text ∧
    (tokens text).bind arrayDef =
      some ⟨ascii "uint8_t", ascii "arry", (bytesAt m buffer bufferlen).map UInt8.toNat⟩

/-! ### The characters of a row -/

/-- What a scanner in mode `q` makes of the comment of a row, up to the `*/` that is to end it. -/
def columnScan (q : Mode) (row : List UInt8) : Mode × List Token :=
  scan q (ascii "/*" ++ row.map printable)

/-- The `*/` ends a comment, and there is no code before it. -/
def Quiet (q : Mode) (row : List UInt8) : Prop :=
  ((columnScan q row).1 = .block ∨ (columnScan q row).1 = .star ∨ (columnScan q row).1 = .line) ∧
    (columnScan q row).2 = []

/-- The `*` behind the row begins a comment. -/
def Opens (row : List UInt8) : Prop := (columnScan .blank row).1 = .slash

/-- The elements of the last row `s` are lost in a comment that `r` opens, and what is left of
the characters of `r` spells them. -/
def Replaces (r s : List UInt8) : Prop :=
  Opens r ∧ Quiet .block s ∧
    elements ((columnScan .blank r).2 ++ [ascii "\x7d", ascii ";"]) = some (s.map UInt8.toNat)

instance (q : Mode) (row : List UInt8) : Decidable (Quiet q row) :=
  inferInstanceAs (Decidable (_ ∧ _))

instance (row : List UInt8) : Decidable (Opens row) := inferInstanceAs (Decidable (_ = _))

instance (r s : List UInt8) : Decidable (Replaces r s) := inferInstanceAs (Decidable (_ ∧ _))

theorem hexChars_of_le {row : List UInt8} (h : row.length ≤ 8) :
    hexChars row = row.map printable := by
  have hgap : ∀ c ∈ row.zipIdx,
      (if c.2 = 8 then ascii "  " else []) ++ [printable c.1] = [printable c.1] := by
    intro c hc
    have hlt := List.snd_lt_of_mem_zipIdx hc
    rw [if_neg (by omega), List.nil_append]
  rw [hexChars, List.flatMap_congr hgap, ← List.map_eq_flatMap, ← Function.comp_def printable,
    ← List.map_map, List.zipIdx_map_fst]

theorem eq_of_printable_eq {c d : UInt8} (hd : d ≠ 46) (h : printable c = d) : c = d := by
  unfold printable at h
  split_ifs at h
  · exact h
  · exact absurd h.symm hd

/-- A row has `*/` among its characters only if its bytes have. -/
theorem infix_of_map_printable {row : List UInt8} (h : [42, 47] <:+: row.map printable) :
    [42, 47] <:+: row := by
  obtain ⟨before, after, heq⟩ := h
  obtain ⟨xs, bs, rfl, hxs, -⟩ := List.map_eq_append_iff.mp heq.symm
  obtain ⟨as, cs, rfl, -, hcs⟩ := List.map_eq_append_iff.mp hxs
  obtain ⟨c, ds, rfl, hc, hds⟩ := List.map_eq_cons_iff.mp hcs
  obtain ⟨d, es, rfl, hd, hes⟩ := List.map_eq_cons_iff.mp hds
  rw [List.map_eq_nil_iff] at hes
  rw [eq_of_printable_eq (by decide) hc, eq_of_printable_eq (by decide) hd, hes]
  exact ⟨as, bs, rfl⟩

theorem columnScan_blank (row : List UInt8) :
    columnScan .blank row = scan .block (row.map printable) := by
  rw [columnScan, scan_append]
  rfl

/-- In a comment the `*` of the `/*` may end it. -/
theorem columnScan_block (row : List UInt8) :
    columnScan .block row = scan .star (row.map printable) := by
  rw [columnScan, scan_append]
  rfl

theorem quiet_of_no_close {row : List UInt8} (h : ¬ [42, 47] <:+: row) : Quiet .blank row := by
  rw [Quiet, columnScan_blank]
  rcases (scan_block (row.map printable)).1 with ⟨hmode, htokens⟩ | ⟨as, bs, hrow, -⟩
  · exact ⟨hmode.imp_right .inl, htokens⟩
  · exact absurd (infix_of_map_printable ⟨as, bs, by rw [hrow, List.append_assoc]; rfl⟩) h

theorem not_quiet_of_slash {q : Mode} {row : List UInt8} (h : (columnScan q row).1 = .slash) :
    ¬ Quiet q row := by
  rintro ⟨hmode, -⟩
  rw [h] at hmode
  simp at hmode

theorem size_of_comment {q : Mode} (h : q = .block ∨ q = .star ∨ q = .line) : q.size = 2 := by
  rcases h with rfl | rfl | rfl <;> rfl

/-- In a row that is not quiet a comment ends early, and only the characters behind it are left
for code. -/
theorem length_columnScan (row : List UInt8) :
    (Quiet .blank row ∨
      (columnScan .blank row).2.length + (columnScan .blank row).1.size + 2 ≤ row.length) ∧
    (Quiet .block row ∨
      (columnScan .block row).2.length + (columnScan .block row).1.size + 1 ≤ row.length) := by
  rw [Quiet, Quiet, columnScan_blank, columnScan_block, ← List.length_map printable]
  have hquiet : ∀ p, InComment p → (p.1 = .block ∨ p.1 = .star ∨ p.1 = .line) ∧ p.2 = [] :=
    fun p hp => ⟨hp.1.imp_right .inl, hp.2⟩
  obtain ⟨hblock, hstar⟩ := length_scan_block (row.map printable)
  exact ⟨hblock.imp_left (hquiet _), hstar.imp_left (hquiet _)⟩

/-- What becomes of the `*/` at the end of a row. -/
theorem scan_close {q : Mode} (hq : q.Marked) :
    (q = .block ∨ q = .star ∨ q = .line) ∧ scan q (ascii "*/\n") = (.blank, []) ∨
      q = .slash ∧ scan q (ascii "*/\n") = (.block, []) ∨
        (scan q (ascii "*/\n")).1 = .bad ∨ ascii "*" ∈ (scan q (ascii "*/\n")).2 := by
  have hascii : ascii "*/\n" = [42, 47, 10] := rfl
  rw [hascii]
  cases q with
  | blank => exact .inr (.inr (.inr (.head _)))
  | word w => exact .inr (.inr (.inr (.tail _ (.head _))))
  | slash => exact .inr (.inl ⟨rfl, rfl⟩)
  | line => exact .inl ⟨.inr (.inr rfl), rfl⟩
  | block => exact .inl ⟨.inl rfl, rfl⟩
  | star => exact .inl ⟨.inr (.inl rfl), rfl⟩
  | quoted d w =>
      -- the newline cuts the literal
      rcases hq with rfl | rfl <;> exact .inr (.inr (.inl rfl))
  | escaped d w => rcases hq with rfl | rfl <;> exact .inr (.inr (.inl rfl))
  | bad => exact .inr (.inr (.inl rfl))

/-! ### Rows -/

/-- The tokens of the elements of a row. -/
def cellTokens (bytes : List UInt8) : List Token :=
  bytes.flatMap fun c => [ascii "0x" ++ printNum 16 2 c.toNat, ascii ","]

theorem scan_carryCells (bytes : List UInt8) :
    scan .blank (carryCells bytes) = (.blank, cellTokens bytes) := by
  induction bytes with
  | nil => rfl
  | cons c bytes ih =>
      have hword : ∀ d ∈ ascii "0x" ++ printNum 16 2 c.toNat, isWord d := by
        intro d hd
        have hzero : (ascii "0x").all isWord = true := rfl
        rcases List.mem_append.mp hd with hd | hd
        · exact List.all_eq_true.mp hzero d hd
        · exact forall_mem_printNum (p := fun d => isWord d) (by norm_num) le_rfl (by decide) d hd
      have hcell : scan .blank (ascii "0x" ++ printNum 16 2 c.toNat ++ ascii ", ") =
          (.blank, [ascii "0x" ++ printNum 16 2 c.toNat, ascii ","]) := by
        rw [scan_append]
        have hzero : ascii "0x" ++ printNum 16 2 c.toNat = 48 :: 120 :: printNum 16 2 c.toNat := rfl
        rw [hzero] at hword ⊢
        rw [scan_blank_word hword]
        rfl
      unfold carryCells cellTokens at ih ⊢
      rw [List.flatMap_cons, List.flatMap_cons, scan_append_blank hcell, ih]

/-- A row up to its characters. -/
def carryFront (row : List UInt8) : List UInt8 :=
  ascii "  " ++ carryCells row ++ (List.replicate (8 - row.length) (ascii "      ")).flatten ++
    ascii "   "

theorem carryLine_eq {row : List UInt8} (h : row.length ≤ 8) :
    carryLine row ++ [10] =
      carryFront row ++ ((ascii "/*" ++ row.map printable) ++ ascii "*/\n") := by
  have hopen : ascii "   /*" = ascii "   " ++ ascii "/*" := rfl
  have hend : ascii "*/\n" = ascii "*/" ++ [10] := rfl
  rw [carryLine, carryFront, hexChars_of_le h, hopen, hend]
  simp only [List.append_assoc]

theorem scan_carryFront (row : List UInt8) :
    scan .blank (carryFront row) = (.blank, cellTokens row) := by
  have hpad : (List.replicate (8 - row.length) (ascii "      ")).flatten =
      List.replicate ((8 - row.length) * 6) 32 := by
    have hblank : ascii "      " = List.replicate 6 32 := rfl
    rw [hblank, List.flatten_replicate_replicate]
  have htwo : scan .blank (ascii "  ") = (.blank, []) := rfl
  have hthree : scan .blank (ascii "   ") = (.blank, []) := rfl
  rw [carryFront, hpad, List.append_assoc, List.append_assoc, scan_append_blank htwo,
    scan_append_blank (scan_carryCells row), scan_append_blank (scan_blank_replicate _), hthree,
    List.append_nil, List.append_nil, List.nil_append]

/-- In a comment the elements are lost. -/
theorem scan_carryFront_block (row : List UInt8) :
    scan .block (carryFront row) = (.block, []) := by
  apply scan_block_of_notMem
  have htwo : (42 : UInt8) ∉ ascii "  " := by decide
  have hthree : (42 : UInt8) ∉ ascii "   " := by decide
  have hsix : (42 : UInt8) ∉ ascii "      " := by decide
  have hzero : (42 : UInt8) ∉ ascii "0x" := by decide
  have hcomma : (42 : UInt8) ∉ ascii ", " := by decide
  have hcells : (42 : UInt8) ∉ carryCells row := by
    intro h
    obtain ⟨c, -, hc⟩ := List.mem_flatMap.mp h
    have hdigits : (42 : UInt8) ∉ printNum 16 2 c.toNat :=
      notMem_printNum (by norm_num) le_rfl (by decide) 2 c.toNat
    simp [hzero, hcomma, hdigits] at hc
  simp only [carryFront, List.mem_append, not_or]
  exact ⟨⟨⟨htwo, hcells⟩, notMem_pad hsix _⟩, hthree⟩

/-- A row is its elements, its characters, and what becomes of the `*/` behind them. -/
theorem scan_carryLine {q : Mode} {row : List UInt8} {ts : List Token} (h : row.length ≤ 8)
    (hfront : scan q (carryFront row) = (q, ts)) :
    scan q (carryLine row ++ [10]) = ((scan (columnScan q row).1 (ascii "*/\n")).1,
      ts ++ ((columnScan q row).2 ++ (scan (columnScan q row).1 (ascii "*/\n")).2)) := by
  rw [carryLine_eq h, scan_append, hfront, scan_append, columnScan]

/-- The characters of a quiet row are left out. -/
theorem scan_carryLine_of_quiet {q : Mode} {row : List UInt8} {ts : List Token}
    (h : row.length ≤ 8) (hfront : scan q (carryFront row) = (q, ts)) (hquiet : Quiet q row) :
    scan q (carryLine row ++ [10]) = (.blank, ts) := by
  obtain ⟨hmode, htokens⟩ := hquiet
  rw [scan_carryLine h hfront, htokens]
  rcases hmode with hmode | hmode | hmode
  all_goals
    rw [hmode]
    exact congrArg (Prod.mk _) (List.append_nil _)

/-- The rows one after the other. -/
def carryRows (rs : List (List UInt8)) : List UInt8 := rs.flatMap fun r => carryLine r ++ [10]

theorem scan_carryRows_of_quiet {rs : List (List UInt8)}
    (h : ∀ r ∈ rs, r.length ≤ 8 ∧ Quiet .blank r) :
    scan .blank (carryRows rs) = (.blank, cellTokens rs.flatten) := by
  induction rs with
  | nil => rfl
  | cons r rs ih =>
      obtain ⟨hlen, hquiet⟩ := h r (.head _)
      have hrow := scan_carryLine_of_quiet hlen (scan_carryFront r) hquiet
      have ih := ih fun r hr => h r (.tail _ hr)
      unfold carryRows cellTokens at ih ⊢
      rw [List.flatMap_cons, scan_append_blank hrow, ih, List.flatten_cons, List.flatMap_append]
      rfl

/-! ### The whole definition -/

theorem dumpLines_const (w : ℕ) (line : List UInt8 → List UInt8) (k : ℕ) (bytes : List UInt8) :
    dumpLines w (fun _ => line) k bytes = (rows w bytes).map line := by
  rw [dumpLines, ← Function.comp_def line Prod.fst, ← List.map_map, List.zipIdx_map_fst]

/-- The text that is printed, by its lines. -/
def carryLines (comment : Option SingleLine) (rs : List (List UInt8)) : List (List UInt8) :=
  (comment.elim [] fun c => [ascii "// " ++ c.text ++ ascii " "]) ++
    ascii "static uint8_t arry[] = \x7b" :: (rs.map carryLine ++ [ascii "\x7d;"])

theorem carryPrints_iff {comment : Option SingleLine} {m : Mem} {buffer bufferlen : ℕ}
    {text : List UInt8} :
    CarryPrints comment m buffer bufferlen text ↔ text = carryHead comment ++
      carryRows (rows 8 (bytesAt m buffer bufferlen)) ++ ascii "\x7d;\n" := by
  have hexits : Exits (carrydumpLoop m) ⟨buffer, bufferlen, 0, carryHead comment⟩
      (carryHead comment ++ carryRows (rows 8 (bytesAt m buffer bufferlen))) := by
    have h := dumpLoop_exits (w := 8) (by norm_num) (fun _ => carryLine) m buffer bufferlen 0
      (carryHead comment)
    rwa [dumpLines_const, List.flatMap_map] at h
  constructor
  · rintro ⟨out, hout, rfl⟩
    rw [hout.unique hexits]
  · rintro rfl
    exact ⟨_, hexits, rfl⟩

theorem newline_notMem_carryLine (bytes : List UInt8) : (10 : UInt8) ∉ carryLine bytes := by
  have htwo : (10 : UInt8) ∉ ascii "  " := by decide
  have hzero : (10 : UInt8) ∉ ascii "0x" := by decide
  have hcomma : (10 : UInt8) ∉ ascii ", " := by decide
  have hsix : (10 : UInt8) ∉ ascii "      " := by decide
  have hopen : (10 : UInt8) ∉ ascii "   /*" := by decide
  have hclose : (10 : UInt8) ∉ ascii "*/" := by decide
  have hcells : (10 : UInt8) ∉ carryCells bytes := by
    intro h
    obtain ⟨c, -, hc⟩ := List.mem_flatMap.mp h
    simp [hzero, hcomma, newline_notMem_printNum] at hc
  simp only [carryLine, List.mem_append, not_or]
  exact ⟨⟨⟨⟨⟨htwo, hcells⟩, notMem_pad hsix _⟩, hopen⟩, newline_notMem_hexChars bytes⟩,
    hclose⟩

/-- No line ends with a backslash. -/
theorem mem_carryLines {comment : Option SingleLine} {rs : List (List UInt8)} {l : List UInt8}
    (hl : l ∈ carryLines comment rs) : (10 : UInt8) ∉ l ∧ l.getLast? ≠ some 92 := by
  rw [carryLines, List.mem_append, List.mem_cons, List.mem_append, List.mem_singleton] at hl
  rcases hl with hl | rfl | hl | rfl
  · cases comment with
    | none => cases hl
    | some c =>
        have hslash : (10 : UInt8) ∉ ascii "// " := by decide
        have hone : (10 : UInt8) ∉ ascii " " := by decide
        cases List.mem_singleton.mp hl
        simp only [List.mem_append, not_or]
        have hlast : (ascii " ").getLast? = some 32 := rfl
        refine ⟨⟨⟨hslash, c.noNewline⟩, hone⟩, ?_⟩
        rw [List.getLast?_append, hlast, Option.some_or]
        decide
  · decide
  · obtain ⟨r, -, rfl⟩ := List.mem_map.mp hl
    have hlast : (ascii "*/").getLast? = some 47 := rfl
    refine ⟨newline_notMem_carryLine r, ?_⟩
    rw [carryLine, List.getLast?_append, hlast, Option.some_or]
    decide
  · decide

theorem carryText_eq (comment : Option SingleLine) (rs : List (List UInt8)) :
    carryHead comment ++ carryRows rs ++ ascii "\x7d;\n" =
      (carryLines comment rs).flatMap (· ++ [10]) := by
  have hnl : ascii " \n" = ascii " " ++ [10] := rfl
  have hdef : ascii "static uint8_t arry[] = \x7b\n" =
    ascii "static uint8_t arry[] = \x7b" ++ [10] := rfl
  have hend : ascii "\x7d;\n" = ascii "\x7d;" ++ [10] := rfl
  rw [carryHead, carryRows, carryLines, hnl, hdef, hend]
  cases comment <;> simp [List.flatMap_map]

theorem splice_carry (comment : Option SingleLine) (rs : List (List UInt8)) :
    splice (carryHead comment ++ carryRows rs ++ ascii "\x7d;\n") =
      carryHead comment ++ carryRows rs ++ ascii "\x7d;\n" := by
  rw [carryText_eq]
  exact splice_lines fun l hl => mem_carryLines hl

/-- The tokens before the elements. -/
def headTokens : List Token :=
  [ascii "static", ascii "uint8_t", ascii "arry", ascii "[", ascii "]", ascii "=", ascii "\x7b"]

/-- The tokens behind the elements. -/
def endTokens : List Token := [ascii "\x7d", ascii ";"]

theorem scan_carryHead (comment : Option SingleLine) :
    scan .blank (carryHead comment) = (.blank, headTokens) := by
  have hdef : scan .blank (ascii "static uint8_t arry[] = \x7b\n") = (.blank, headTokens) := by
    decide
  cases comment with
  | none => exact hdef
  | some c =>
      have hline : (10 : UInt8) ∉ ascii " " ++ (c.text ++ ascii " ") := by
        have hone : (10 : UInt8) ∉ ascii " " := by decide
        simp only [List.mem_append, not_or]
        exact ⟨hone, c.noNewline, hone⟩
      have hcomment : scan .blank (ascii "// " ++ c.text ++ ascii " \n") = (.blank, []) := by
        have hparts : ascii "// " ++ c.text ++ ascii " \n" =
            ascii "//" ++ ((ascii " " ++ (c.text ++ ascii " ")) ++ [10]) := by
          simp [ascii]
        have hopen : scan .blank (ascii "//") = (.line, []) := rfl
        rw [hparts, scan_append, hopen, scan_line hline]
        rfl
      rw [carryHead, Option.elim_some, scan_append_blank hcomment, hdef]
      rfl

/-- If the rows can be read, so can the definition. -/
theorem arrayDef_of_scan (comment : Option SingleLine) {rs : List (List UInt8)} {ts : List Token}
    (h : scan .blank (carryRows rs) = (.blank, ts)) :
    (tokens (carryHead comment ++ carryRows rs ++ ascii "\x7d;\n")).bind arrayDef =
      (elements (ts ++ endTokens)).map (⟨ascii "uint8_t", ascii "arry", ·⟩) := by
  have hend : scan .blank (ascii "\x7d;\n") = (.blank, endTokens) := rfl
  have hhead : ∀ us, arrayDef (headTokens ++ us) =
      (elements us).map (⟨ascii "uint8_t", ascii "arry", ·⟩) := by
    intro us
    simp [arrayDef, headTokens]
  rw [tokens, splice_carry, List.append_assoc, scan_append_blank (scan_carryHead comment),
    scan_append_blank h, hend, ← hhead]
  simp [finish]

/-- An open comment spoils it, and so does an open literal. -/
theorem tokens_of_open (comment : Option SingleLine) {rs : List (List UInt8)}
    (h : (scan .blank (carryRows rs)).1 = .block ∨ (scan .blank (carryRows rs)).1 = .bad) :
    tokens (carryHead comment ++ carryRows rs ++ ascii "\x7d;\n") = none := by
  rw [tokens, splice_carry, List.append_assoc, scan_append_blank (scan_carryHead comment),
    scan_append]
  rcases h with h | h
  all_goals
    rw [h]
    rfl

theorem scan_carryRows_mode (rs : List (List UInt8)) : (scan .blank (carryRows rs)).1 = .blank ∨
    (scan .blank (carryRows rs)).1 = .block ∨ (scan .blank (carryRows rs)).1 = .bad := by
  induction rs using List.reverseRecOn with
  | nil => exact .inl rfl
  | append_singleton rs r _ =>
      have hlast : carryRows (rs ++ [r]) = (carryRows rs ++ carryLine r) ++ [10] := by
        simp [carryRows]
      rw [hlast]
      exact scan_newline .blank _

end Hspp
