import Hspp.Lib.Loop
import Hspp.Lib.Rows
import Hspp.Lib.Text

/-! # `hexdump` (`yalin/hexdump.h`)

Both dump functions print a buffer row by row; what they print of a row is a parameter of the
loop (`dumpLoop`), and `dumpLoop_exits` is the text that is printed in the end.

`hexdump` prints sixteen bytes a row, with their characters behind them.  The digits of byte
`i` stand at a column that does not depend on the row, and behind the last byte there are
blanks at least up to the next column (`byteAt_hexdumpLine`, `byteAt_hexdumpLine_length`), also
where the gap in the middle is not printed.  So the bytes can be read back
(`hexdump_reads_back`). -/

namespace Hspp

open Loop Memory Rows Text

/-- What stands for a byte in the column of characters. -/
def printable (c : UInt8) : UInt8 := if 0x20 ≤ c ∧ c ≤ 0x7e then c else 46

/-- The variables of the loop over a buffer, and what is printed so far. -/
structure DumpLoop where
  data : ℕ
  bufferlen : ℕ
  row : ℕ
  out : List UInt8

/-- One round of `while (bufferlen > 0)`, for rows of `w` bytes. -/
def dumpLoop (w : ℕ) (line : ℕ → List UInt8 → List UInt8) (m : Mem) (s : DumpLoop) :
    DumpLoop ⊕ List UInt8 :=
  if 0 < s.bufferlen then
    let n := if s.bufferlen < w then s.bufferlen else w
    .inl ⟨s.data + n, s.bufferlen - n, s.row + n,
      s.out ++ line s.row (bytesAt m s.data n) ++ [10]⟩
  else .inr s.out

/-- `" %02x"` for every byte, with a gap before byte 8. -/
def hexCells (bytes : List UInt8) : List UInt8 :=
  bytes.zipIdx.flatMap fun c =>
    (if c.2 = 8 then ascii " " else []) ++ ascii " " ++ printNum 16 2 c.1.toNat

/-- `"%c"` for every byte, with a gap before byte 8. -/
def hexChars (bytes : List UInt8) : List UInt8 :=
  bytes.zipIdx.flatMap fun c => (if c.2 = 8 then ascii "  " else []) ++ [printable c.1]

/-- A row without its newline, `row` the offset of its first byte. -/
def hexdumpLine (row : ℕ) (bytes : List UInt8) : List UInt8 :=
  printNum 16 4 row ++ ascii ":   " ++ hexCells bytes ++
    (List.replicate (16 - bytes.length) (ascii "   ")).flatten ++ ascii "   " ++ hexChars bytes

/-- The loop of `hexdump`. -/
def hexdumpLoop : Mem → DumpLoop → DumpLoop ⊕ List UInt8 := dumpLoop 16 hexdumpLine

/-! ### Reading a dump -/

/-- Where the digits of byte `i` stand behind the colon. -/
def column (i : ℕ) : ℕ := 4 + 3 * i + if 8 ≤ i then 1 else 0

/-- The byte with its digits at the column of byte `i`, unless there is a blank. -/
def byteAt (cells : List UInt8) (i : ℕ) : Option UInt8 :=
  match cells.drop (column i) with
  | a :: b :: _ => if a = 32 then none else some (UInt8.ofNat (16 * digitVal a + digitVal b))
  | _ => none

/-- What stands behind the colon. -/
def afterColon (line : List UInt8) : List UInt8 := (line.dropWhile (· ≠ 58)).tail

/-- The bytes of a row, up to the first blank column. -/
def undumpLine (line : List UInt8) : List UInt8 :=
  (((List.range line.length).map (byteAt (afterColon line))).takeWhile Option.isSome).filterMap id

/-- The bytes of a dump. -/
def undump (text : List UInt8) : List UInt8 := (lines text).flatMap undumpLine

/-! ### The loop over the rows -/

/-- The lines printed for the rows of a buffer, the first of them row `k`. -/
def dumpLines (w : ℕ) (line : ℕ → List UInt8 → List UInt8) (k : ℕ) (bytes : List UInt8) :
    List (List UInt8) :=
  ((rows w bytes).zipIdx k).map fun r => line (w * r.2) r.1

theorem dumpLines_of_ne_nil {w : ℕ} (hw : 0 < w) (line : ℕ → List UInt8 → List UInt8) (k : ℕ)
    {bytes : List UInt8} (h : bytes ≠ []) :
    dumpLines w line k bytes =
      line (w * k) (bytes.take w) :: dumpLines w line (k + 1) (bytes.drop w) := by
  rw [dumpLines, rows_of_ne_nil hw h, List.zipIdx_cons, List.map_cons]
  rfl

/-- The loop ends, and has printed the rows of the buffer one after the other. -/
theorem dumpLoop_exits {w : ℕ} (hw : 0 < w) (line : ℕ → List UInt8 → List UInt8) (m : Mem)
    (data bufferlen k : ℕ) (out : List UInt8) :
    Exits (dumpLoop w line m) ⟨data, bufferlen, w * k, out⟩
      (out ++ (dumpLines w line k (bytesAt m data bufferlen)).flatMap (· ++ [10])) := by
  induction bufferlen using Nat.strong_induction_on generalizing data k out with
  | _ bufferlen ih =>
      obtain rfl | hpos := Nat.eq_zero_or_pos bufferlen
      · rw [bytesAt_zero, dumpLines, rows_nil hw, List.zipIdx_nil, List.map_nil,
          List.flatMap_nil, List.append_nil]
        exact .single (by simp [dumpLoop])
      have hne : bytesAt m data bufferlen ≠ [] := by
        rw [← List.length_pos_iff, length_bytesAt]
        exact hpos
      rw [dumpLines_of_ne_nil hw line k hne, List.flatMap_cons, ← List.append_assoc]
      obtain hlt | hge := Nat.lt_or_ge bufferlen w
      · -- a shorter row is the last one
        have hlen : (bytesAt m data bufferlen).length ≤ w := by
          rw [length_bytesAt]
          exact hlt.le
        have hround : dumpLoop w line m ⟨data, bufferlen, w * k, out⟩ =
            .inl ⟨data + bufferlen, 0, w * k + bufferlen,
              out ++ line (w * k) (bytesAt m data bufferlen) ++ [10]⟩ := by
          simp [dumpLoop, hpos, hlt]
        rw [List.take_of_length_le hlen, List.drop_of_length_le hlen, dumpLines, rows_nil hw,
          List.zipIdx_nil, List.map_nil, List.flatMap_nil, List.append_nil, ← List.append_assoc]
        exact .step hround (.single (by simp [dumpLoop]))
      · have hround : dumpLoop w line m ⟨data, bufferlen, w * k, out⟩ =
            .inl ⟨data + w, bufferlen - w, w * (k + 1),
              out ++ line (w * k) (bytesAt m data w) ++ [10]⟩ := by
          simp [dumpLoop, hpos, Nat.not_lt.mpr hge, Nat.mul_succ]
        have hsplit : bytesAt m data bufferlen =
            bytesAt m data w ++ bytesAt m (data + w) (bufferlen - w) := by
          rw [← bytesAt_add, Nat.add_sub_cancel' hge]
        have hlen : (bytesAt m data w).length = w := length_bytesAt m w data
        rw [hsplit, List.take_left' hlen, List.drop_left' hlen, ← List.append_assoc]
        exact .step hround (ih (bufferlen - w) (by omega) _ _ _)

/-! ### The columns of a row -/

theorem length_hexCells (bytes : List UInt8) :
    (hexCells bytes).length = 3 * bytes.length + if 8 < bytes.length then 1 else 0 := by
  induction bytes using List.reverseRecOn with
  | nil => rfl
  | append_singleton bytes c ih =>
      have hc : (printNum 16 2 c.toNat).length = 2 := length_printNum (by norm_num) c.toNat_lt
      unfold hexCells at ih ⊢
      rw [List.zipIdx_append, List.flatMap_append, List.length_append, ih]
      simp only [List.zipIdx_singleton, List.flatMap_singleton, List.length_append, hc,
        List.length_singleton]
      split_ifs <;> simp [ascii] <;> omega

/-- The digits of a byte stand at its column. -/
theorem drop_column_of_byte (as : List UInt8) (c : UInt8) (bs rest : List UInt8) :
    ∃ rest', (ascii "   " ++ hexCells (as ++ c :: bs) ++ rest).drop (column as.length) =
      printNum 16 2 c.toNat ++ rest' := by
  let gap : List UInt8 := (if as.length = 8 then ascii " " else []) ++ ascii " "
  let cells := (bs.zipIdx (as.length + 1)).flatMap fun c =>
    (if c.2 = 8 then ascii " " else []) ++ ascii " " ++ printNum 16 2 c.1.toNat
  have hsplit : ascii "   " ++ hexCells (as ++ c :: bs) ++ rest =
      (ascii "   " ++ hexCells as ++ gap) ++ (printNum 16 2 c.toNat ++ (cells ++ rest)) := by
    simp only [hexCells, gap, cells, List.zipIdx_append, List.zipIdx_cons, List.flatMap_append,
      List.flatMap_cons, List.append_assoc, Nat.zero_add]
  have hcol : (ascii "   " ++ hexCells as ++ gap).length = column as.length := by
    simp only [List.length_append, length_hexCells, column, gap]
    split_ifs <;> simp [ascii] <;> omega
  exact ⟨cells ++ rest, by rw [hsplit, List.drop_left' hcol]⟩

/-- Behind the last byte there are blanks at the next column. -/
theorem drop_column_of_length {bytes : List UInt8} (hlen : bytes.length ≤ 16)
    (rest : List UInt8) :
    ∃ rest', (ascii "   " ++ hexCells bytes ++
      (List.replicate (16 - bytes.length) (ascii "   ")).flatten ++ ascii "   " ++ rest).drop
        (column bytes.length) = 32 :: 32 :: rest' := by
  have hblank : ascii "   " = List.replicate 3 32 := rfl
  have hpad : (List.replicate (16 - bytes.length) (ascii "   ")).flatten =
      List.replicate ((16 - bytes.length) * 3) 32 := by
    rw [hblank, List.flatten_replicate_replicate]
  -- the column is one or two blanks behind the last digit, and there are at least three
  obtain ⟨j, hj, hcol⟩ : ∃ j, j ≤ (16 - bytes.length) * 3 + 1 ∧
      column bytes.length = (ascii "   " ++ hexCells bytes).length + j := by
    have hthree : (ascii "   ").length = 3 := rfl
    rw [List.length_append, length_hexCells, hthree, column]
    refine ⟨1 + (if 8 ≤ bytes.length then 1 else 0) - if 8 < bytes.length then 1 else 0, ?_⟩
    split_ifs <;> omega
  obtain ⟨d, hd⟩ : ∃ d, (16 - bytes.length) * 3 + 3 = j + (2 + d) :=
    ⟨(16 - bytes.length) * 3 + 1 - j, by omega⟩
  refine ⟨List.replicate d 32 ++ rest, ?_⟩
  rw [hpad, hcol, List.append_assoc (ascii "   " ++ hexCells bytes)]
  conv_lhs => rw [hblank]
  rw [← List.replicate_add, hd, List.replicate_add, ← hblank, List.append_assoc, ← List.drop_drop,
    List.drop_left, List.append_assoc, List.drop_left' List.length_replicate, List.replicate_add,
    List.append_assoc]
  rfl

/-! ### Reading a row back -/

/-- The two digits of a byte are no blanks and give the byte again. -/
theorem printNum_byte (c : UInt8) : ∃ a b, printNum 16 2 c.toNat = [a, b] ∧ a ≠ 32 ∧
    UInt8.ofNat (16 * digitVal a + digitVal b) = c := by
  have hlen : (printNum 16 2 c.toNat).length = 2 := length_printNum (by norm_num) c.toNat_lt
  obtain ⟨a, b, hab⟩ := List.length_eq_two.mp hlen
  have hval := ofDigits_printNum (b := 16) (w := 2) (n := c.toNat) (by norm_num) le_rfl
  refine ⟨a, b, hab, ?_, ?_⟩
  · rintro rfl
    have hge := ge_of_mem_printNum (b := 16) (by norm_num) le_rfl (hab ▸ List.mem_cons_self)
    exact absurd hge (by decide)
  · rw [hab] at hval
    simp only [List.map_cons, List.map_nil, List.reverse_cons, List.reverse_nil, List.nil_append,
      List.cons_append, Nat.ofDigits_cons, Nat.ofDigits_nil, Nat.mul_zero, Nat.add_zero] at hval
    rw [Nat.add_comm, hval, UInt8.ofNat_toNat]

theorem afterColon_hexdumpLine (row : ℕ) (bytes : List UInt8) :
    afterColon (hexdumpLine row bytes) = ascii "   " ++ hexCells bytes ++
      (List.replicate (16 - bytes.length) (ascii "   ")).flatten ++ ascii "   " ++
        hexChars bytes := by
  have hdigits : ∀ c ∈ printNum 16 4 row, decide (c ≠ 58) = true :=
    forall_mem_printNum (by norm_num) le_rfl (by decide)
  have hcolon : ascii ":   " = 58 :: ascii "   " := rfl
  unfold afterColon hexdumpLine
  rw [hcolon]
  simp only [List.append_assoc, List.cons_append]
  rw [List.dropWhile_append_of_pos hdigits]
  simp

/-- The byte at its column. -/
theorem byteAt_hexdumpLine (row : ℕ) (as : List UInt8) (c : UInt8) (bs : List UInt8) :
    byteAt (afterColon (hexdumpLine row (as ++ c :: bs))) as.length = some c := by
  obtain ⟨a, b, hab, ha, hval⟩ := printNum_byte c
  rw [afterColon_hexdumpLine, List.append_assoc, List.append_assoc]
  obtain ⟨rest, hrest⟩ := drop_column_of_byte as c bs
    ((List.replicate (16 - (as ++ c :: bs).length) (ascii "   ")).flatten ++
      (ascii "   " ++ hexChars (as ++ c :: bs)))
  rw [byteAt, hrest, hab]
  simp [ha, hval]

/-- The first blank column. -/
theorem byteAt_hexdumpLine_length (row : ℕ) {bytes : List UInt8} (hlen : bytes.length ≤ 16) :
    byteAt (afterColon (hexdumpLine row bytes)) bytes.length = none := by
  obtain ⟨rest, hrest⟩ := drop_column_of_length hlen (hexChars bytes)
  rw [afterColon_hexdumpLine, byteAt, hrest]
  rfl

/-- What is read up to the first failure. -/
theorem filterMap_takeWhile_range {α : Type*} {f : ℕ → Option α} {xs : List α} {n : ℕ}
    (hn : xs.length ≤ n) (hsome : ∀ i (h : i < xs.length), f i = some xs[i])
    (hnone : f xs.length = none) :
    (((List.range n).map f).takeWhile Option.isSome).filterMap id = xs := by
  obtain ⟨d, rfl⟩ := Nat.exists_eq_add_of_le hn
  have hread : (List.range xs.length).map f = xs.map some := by
    apply List.ext_getElem
    · simp
    · intro i h h'
      simpa using hsome i (by simpa using h)
  have hstop : (((List.range d).map (xs.length + ·)).map f).takeWhile Option.isSome = [] := by
    cases d with
    | zero => rfl
    | succ d => simp [List.range_succ_eq_map, hnone]
  rw [List.range_add, List.map_append, hread, List.takeWhile_append_of_pos, hstop,
    List.append_nil, List.filterMap_map]
  · simp
  · simp

theorem undumpLine_hexdumpLine (row : ℕ) {bytes : List UInt8} (hlen : bytes.length ≤ 16) :
    undumpLine (hexdumpLine row bytes) = bytes := by
  apply filterMap_takeWhile_range
  · simp only [hexdumpLine, List.length_append, length_hexCells]
    omega
  · intro i hi
    have hsplit : bytes.take i ++ bytes[i] :: bytes.drop (i + 1) = bytes := by
      rw [← List.drop_eq_getElem_cons hi, List.take_append_drop]
    have hbyte := byteAt_hexdumpLine row (bytes.take i) bytes[i] (bytes.drop (i + 1))
    rwa [hsplit, List.length_take_of_le hi.le] at hbyte
  · exact byteAt_hexdumpLine_length row hlen

/-! ### The lines of a dump -/

theorem printable_ge (c : UInt8) : 32 ≤ (printable c).toNat := by
  unfold printable
  split_ifs with h
  · exact UInt8.le_iff_toNat_le.mp h.1
  · decide

theorem newline_notMem_printNum (w n : ℕ) : (10 : UInt8) ∉ printNum 16 w n :=
  notMem_printNum (by norm_num) le_rfl (by decide) w n

theorem newline_notMem_hexChars (bytes : List UInt8) : (10 : UInt8) ∉ hexChars bytes := by
  have hchar : ∀ c, (10 : UInt8) ≠ printable c := by
    intro c h
    exact absurd (h ▸ printable_ge c) (by decide)
  have hgap : (10 : UInt8) ∉ ascii "  " := by decide
  intro h
  obtain ⟨c, -, hc⟩ := List.mem_flatMap.mp h
  split_ifs at hc <;> simp [hgap, hchar] at hc

theorem notMem_pad {c : UInt8} {s : List UInt8} (hs : c ∉ s) (k : ℕ) :
    c ∉ (List.replicate k s).flatten := by
  intro h
  obtain ⟨t, ht, hmem⟩ := List.mem_flatten.mp h
  exact hs (List.eq_of_mem_replicate ht ▸ hmem)

/-- There is no newline in a row. -/
theorem newline_notMem_hexdumpLine (row : ℕ) (bytes : List UInt8) :
    (10 : UInt8) ∉ hexdumpLine row bytes := by
  have hone : (10 : UInt8) ∉ ascii " " := by decide
  have hthree : (10 : UInt8) ∉ ascii "   " := by decide
  have hcolon : (10 : UInt8) ∉ ascii ":   " := by decide
  have hcells : (10 : UInt8) ∉ hexCells bytes := by
    intro h
    obtain ⟨c, -, hc⟩ := List.mem_flatMap.mp h
    split_ifs at hc <;> simp [hone, newline_notMem_printNum] at hc
  simp only [hexdumpLine, List.mem_append, not_or]
  exact ⟨⟨⟨⟨⟨newline_notMem_printNum _ _, hcolon⟩, hcells⟩, notMem_pad hthree _⟩, hthree⟩,
    newline_notMem_hexChars bytes⟩

theorem hexdumpLine_starts (row : ℕ) (bytes : List UInt8) :
    printNum 16 4 row ++ ascii ":" <+: hexdumpLine row bytes := by
  have hcolon : ascii ":   " = ascii ":" ++ ascii "   " := rfl
  unfold hexdumpLine
  rw [hcolon]
  simp only [List.append_assoc]
  rw [← List.append_assoc]
  exact List.prefix_append _ _

theorem length_dumpLines (w : ℕ) (line : ℕ → List UInt8 → List UInt8) (k : ℕ)
    (bytes : List UInt8) : (dumpLines w line k bytes).length = (bytes.length + w - 1) / w := by
  rw [dumpLines, List.length_map, List.length_zipIdx, length_rows]

/-- The rows read back give the buffer. -/
theorem flatMap_undumpLine (k : ℕ) (bytes : List UInt8) :
    (dumpLines 16 hexdumpLine k bytes).flatMap undumpLine = bytes := by
  have hrow : ∀ r ∈ (rows 16 bytes).zipIdx k,
      undumpLine (hexdumpLine (16 * r.2) r.1) = r.1 := by
    intro r hr
    have hmem := List.fst_mem_of_mem_zipIdx hr
    exact undumpLine_hexdumpLine _ (length_of_mem_rows (by norm_num) hmem).2
  rw [dumpLines, List.flatMap_map, List.flatMap_congr hrow, List.flatMap_def, List.zipIdx_map_fst,
    flatten_rows (by norm_num)]

theorem lines_dumpLines (k : ℕ) (bytes : List UInt8) :
    lines ((dumpLines 16 hexdumpLine k bytes).flatMap (· ++ [10])) =
      dumpLines 16 hexdumpLine k bytes := by
  apply lines_flatMap
  intro l hl
  obtain ⟨r, -, rfl⟩ := List.mem_map.mp hl
  exact newline_notMem_hexdumpLine _ _

/-- **Reading back**: for every buffer `hexdump` ends after a line for every sixteen bytes; the
line of row `k` starts with `16 * k`, and the columns of the lines hold the bytes of the buffer,
so that no other buffer has the same dump. -/
theorem hexdump_reads_back (m : Mem) (buffer bufferlen : ℕ) :
    ∃ text, Exits (hexdumpLoop m) ⟨buffer, bufferlen, 0, []⟩ text ∧
      (lines text).length = (bufferlen + 15) / 16 ∧
      (∀ k line, (lines text)[k]? = some line → printNum 16 4 (16 * k) ++ ascii ":" <+: line) ∧
      undump text = bytesAt m buffer bufferlen ∧
      ∀ m' buffer' bufferlen', Exits (hexdumpLoop m') ⟨buffer', bufferlen', 0, []⟩ text →
        bytesAt m' buffer' bufferlen' = bytesAt m buffer bufferlen := by
  have hexits : ∀ m buffer bufferlen, Exits (hexdumpLoop m) ⟨buffer, bufferlen, 0, []⟩
      ((dumpLines 16 hexdumpLine 0 (bytesAt m buffer bufferlen)).flatMap (· ++ [10])) :=
    fun m buffer bufferlen => dumpLoop_exits (by norm_num) hexdumpLine m buffer bufferlen 0 []
  have hundump : ∀ bytes,
      undump ((dumpLines 16 hexdumpLine 0 bytes).flatMap (· ++ [10])) = bytes := by
    intro bytes
    rw [undump, lines_dumpLines, flatMap_undumpLine]
  refine ⟨_, hexits m buffer bufferlen, ?_, ?_, hundump _, ?_⟩
  · rw [lines_dumpLines, length_dumpLines, length_bytesAt]
    rfl
  · intro k line hline
    rw [lines_dumpLines, dumpLines, List.getElem?_map, List.getElem?_zipIdx,
      Option.map_map, Option.map_eq_some_iff] at hline
    obtain ⟨r, -, rfl⟩ := hline
    rw [Function.comp_apply, Nat.zero_add]
    exact hexdumpLine_starts _ _
  · intro m' buffer' bufferlen' h
    rw [← hundump (bytesAt m' buffer' bufferlen'), (hexits m' buffer' bufferlen').unique h,
      hundump]

end Hspp
