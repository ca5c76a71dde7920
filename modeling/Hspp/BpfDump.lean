import Hspp.Hexdump
import Hspp.Lib.Lines

/-! # The dump of a packet program (`bpf/bpf.h`)

`rte_bpf_dump` prints a line for every instruction, with its offset and its eight bytes as one
number of sixteen digits, swapped so that the digits stand in the order of the bytes.
`rte_bswap64` is a parameter, of which it is assumed that it reverses the bytes of a number
(`ReversesBytes`).  Then the program is read back from the dump, and its beginning from the
beginning of the dump (`bpfDump_reads_back`). -/

namespace Hspp.Bpf

open Memory Text

/-- The fields of `struct bpf` that are printed from, and where it lies: `prm.ins` and
`prm.nb_ins`. -/
structure Loaded where
  addr : ℕ
  ins : ℕ
  nbIns : ℕ

/-- What is assumed of `rte_bswap64`: it reverses the order of the eight bytes of a number. -/
def ReversesBytes (rteBswap64 : ℕ → ℕ) : Prop :=
  ∀ bs : List UInt8, bs.length = 8 → rteBswap64 (leNat bs) = leNat bs.reverse

/-- `ins[i]`. -/
def Loaded.instr (bpf : Loaded) (m : Mem) (i : ℕ) : ℕ := leNat (bytesAt m (bpf.ins + 8 * i) 8)

/-- The line of an instruction, without the newline. -/
def Loaded.line (rteBswap64 : ℕ → ℕ) (bpf : Loaded) (m : Mem) (i : ℕ) : List UInt8 :=
  ascii "  0x" ++ printNum 16 4 (i * 8 % 2 ^ 64) ++ ascii ": " ++
    printNum 16 16 (rteBswap64 (bpf.instr m i))

/-- `rte_bpf_dump`: what is printed to `f`, and then to `stdout`. -/
def rteBpfDump (rteBswap64 : ℕ → ℕ) (m : Mem) (bpf : Loaded) : List UInt8 × List UInt8 :=
  (ascii "bpf </pmd/md/t.o>@0x" ++ printNum 16 1 bpf.addr ++ ascii "\n",
    (List.range bpf.nbIns).flatMap fun i => bpf.line rteBswap64 m i ++ ascii "\n")

/-! ### Reading the dump -/

/-- The bytes of an instruction, when all its digits are on the line.  The first digits are those
of the first byte. -/
def undumpIns (line : List UInt8) : List UInt8 :=
  let digits := (afterColon line).tail
  if digits.length = 16 then (leBytes 8 (readDigits 16 digits)).reverse else []

def undump (text : List UInt8) : List UInt8 := (lines text).flatMap undumpIns

theorem leBytes_leNat {bs : List UInt8} : leBytes bs.length (leNat bs) = bs :=
  leNat_inj (length_leBytes ..) (leNat_leBytes (leNat_lt bs))

section
variable {rteBswap64 : ℕ → ℕ} {m : Mem} {bpf : Loaded}

/-- The number that is printed for an instruction has its bytes from the last digits on. -/
theorem leBytes_swapped (hswap : ReversesBytes rteBswap64) (i : ℕ) :
    (leBytes 8 (rteBswap64 (bpf.instr m i))).reverse = bytesAt m (bpf.ins + 8 * i) 8 := by
  have hlen : (bytesAt m (bpf.ins + 8 * i) 8).reverse.length = 8 := by
    rw [List.length_reverse, length_bytesAt]
  rw [Loaded.instr, hswap _ (length_bytesAt ..), ← List.reverse_inj, List.reverse_reverse]
  exact hlen ▸ leBytes_leNat

theorem swapped_lt (hswap : ReversesBytes rteBswap64) (i : ℕ) :
    rteBswap64 (bpf.instr m i) < 16 ^ 16 := by
  have hlt := leNat_lt (bytesAt m (bpf.ins + 8 * i) 8).reverse
  rw [List.length_reverse, length_bytesAt] at hlt
  rwa [Loaded.instr, hswap _ (length_bytesAt ..)]

theorem newline_notMem_line (i : ℕ) : (10 : UInt8) ∉ bpf.line rteBswap64 m i := by
  have hopen : (10 : UInt8) ∉ ascii "  0x" := by decide
  have hcolon : (10 : UInt8) ∉ ascii ": " := by decide
  have hnum := notMem_printNum (b := 16) (c := 10) (by norm_num) le_rfl (by decide)
  simp only [Loaded.line, List.mem_append, not_or]
  exact ⟨⟨⟨hopen, hnum 4 _⟩, hcolon⟩, hnum 16 _⟩

/-- No character in front of the colon of a line is one. -/
theorem notMem_front (i : ℕ) :
    ∀ c ∈ ascii "  0x" ++ printNum 16 4 (i * 8 % 2 ^ 64), decide (c ≠ 58) = true := by
  intro c hc
  rcases List.mem_append.mp hc with hc | hc
  · exact List.all_eq_true.mp (show (ascii "  0x").all (fun c => c ≠ 58) = true from rfl) c hc
  · exact decide_eq_true (forall_mem_printNum (p := (· ≠ 58)) (by norm_num) le_rfl (by decide) c hc)

theorem afterColon_append (i : ℕ) (digits : List UInt8) :
    afterColon (ascii "  0x" ++ printNum 16 4 (i * 8 % 2 ^ 64) ++ (58 :: 32 :: digits)) =
      32 :: digits := by
  rw [afterColon, List.dropWhile_append_of_pos (notMem_front i),
    List.dropWhile_cons_of_neg (by simp), List.tail_cons]

theorem line_eq (i : ℕ) : bpf.line rteBswap64 m i =
    ascii "  0x" ++ printNum 16 4 (i * 8 % 2 ^ 64) ++
      (58 :: 32 :: printNum 16 16 (rteBswap64 (bpf.instr m i))) := by
  have hcolon : ascii ": " = [58, 32] := rfl
  simp only [Loaded.line, hcolon, List.append_assoc, List.cons_append, List.nil_append]

theorem undumpIns_append (i : ℕ) (digits : List UInt8) :
    undumpIns (ascii "  0x" ++ printNum 16 4 (i * 8 % 2 ^ 64) ++ (58 :: 32 :: digits)) =
      if digits.length = 16 then (leBytes 8 (readDigits 16 digits)).reverse else [] := by
  rw [undumpIns, afterColon_append, List.tail_cons]

theorem undumpIns_line (hswap : ReversesBytes rteBswap64) (i : ℕ) :
    undumpIns (bpf.line rteBswap64 m i) = bytesAt m (bpf.ins + 8 * i) 8 := by
  have hlt : rteBswap64 (bpf.instr m i) < 16 ^ 16 := swapped_lt hswap i
  have hlen := length_printNum (w := 16) (by norm_num) hlt
  have hread := readDigits_printNum (b := 16) (w := 16) (n := rteBswap64 (bpf.instr m i))
    (by norm_num) le_rfl
  rw [line_eq, undumpIns_append, if_pos hlen, hread, leBytes_swapped hswap]

/-- Without its colon a line shows no instruction. -/
theorem undumpIns_of_notMem {cut : List UInt8} (h : ∀ c ∈ cut, decide (c ≠ 58) = true) :
    undumpIns cut = [] := by
  have hdrop : afterColon cut = [] := by
    rw [afterColon, List.dropWhile_eq_nil_iff.mpr h, List.tail_nil]
  rw [undumpIns, hdrop]
  rfl

/-- A line that is cut shows no instruction, unless nothing is missing. -/
theorem undumpIns_cut (hswap : ReversesBytes rteBswap64) {i : ℕ} {cut : List UInt8}
    (hcut : cut <+: bpf.line rteBswap64 m i) :
    undumpIns cut = [] ∨ cut = bpf.line rteBswap64 m i := by
  have hlt : rteBswap64 (bpf.instr m i) < 16 ^ 16 := swapped_lt hswap i
  have hlen := length_printNum (w := 16) (by norm_num) hlt
  rw [line_eq] at hcut ⊢
  generalize printNum 16 16 (rteBswap64 (bpf.instr m i)) = digits at hcut hlen ⊢
  have hfront := notMem_front i
  have happend := undumpIns_append i
  generalize ascii "  0x" ++ printNum 16 4 (i * 8 % 2 ^ 64) = front at hcut hfront happend ⊢
  rcases List.prefix_or_prefix_of_prefix hcut (List.prefix_append front _) with hin | ⟨rest, rfl⟩
  · exact .inl (undumpIns_of_notMem fun c hc => hfront c (hin.subset hc))
  rw [List.prefix_append_right_inj] at hcut
  rcases rest with _ | ⟨c, rest⟩
  · exact .inl (undumpIns_of_notMem (by rwa [List.append_nil]))
  obtain ⟨rfl, hrest⟩ := List.cons_prefix_cons.mp hcut
  rcases rest with _ | ⟨c, rest⟩
  · left
    rw [undumpIns, afterColon, List.dropWhile_append_of_pos hfront]
    rfl
  obtain ⟨rfl, hdigits⟩ := List.cons_prefix_cons.mp hrest
  rw [happend]
  split_ifs with hall
  · exact .inr (by rw [hdigits.eq_of_length (hall.trans hlen.symm)])
  · exact .inl rfl

/-- The instructions of a dump are the bytes of the program. -/
theorem flatMap_instrs (n : ℕ) :
    (List.range n).flatMap (fun i => bytesAt m (bpf.ins + 8 * i) 8) =
      bytesAt m bpf.ins (8 * n) := by
  induction n with
  | zero => rfl
  | succ n ih =>
      rw [List.range_succ, List.flatMap_append, ih, Nat.mul_succ, bytesAt_add]
      exact congrArg _ (List.append_nil _)

theorem lines_dump : lines (rteBpfDump rteBswap64 m bpf).2 =
    (List.range bpf.nbIns).map (bpf.line rteBswap64 m) := by
  have hdump : (rteBpfDump rteBswap64 m bpf).2 =
      ((List.range bpf.nbIns).map (bpf.line rteBswap64 m)).flatMap (· ++ [10]) := by
    rw [List.flatMap_map]
    rfl
  rw [hdump, lines_flatMap]
  intro l hl
  obtain ⟨i, -, rfl⟩ := List.mem_map.mp hl
  exact newline_notMem_line i

theorem eq_range_of_isPrefix (as : List ℕ) {n : ℕ} (h : as <+: List.range n) :
    as = List.range as.length ∧ as.length ≤ n := by
  have hle : as.length ≤ n := by simpa using h.length_le
  refine ⟨?_, hle⟩
  conv_lhs => rw [List.prefix_iff_eq_take.mp h]
  rw [List.take_range, min_eq_left hle]

/-- **Dumps**: if `rte_bswap64` reverses bytes, the program is read back from what is printed to
`stdout`, byte by byte; and from the beginning of that, wherever it is cut, the first
instructions. -/
theorem bpfDump_reads_back (hswap : ReversesBytes rteBswap64) (m : Mem) (bpf : Loaded) :
    undump (rteBpfDump rteBswap64 m bpf).2 = bytesAt m bpf.ins (8 * bpf.nbIns) ∧
      ∀ part, part <+: (rteBpfDump rteBswap64 m bpf).2 →
        ∃ k ≤ bpf.nbIns, undump part = bytesAt m bpf.ins (8 * k) := by
  have hread : ∀ n, ((List.range n).map (bpf.line rteBswap64 m)).flatMap undumpIns =
      bytesAt m bpf.ins (8 * n) := by
    intro n
    rw [List.flatMap_map, ← flatMap_instrs]
    exact List.flatMap_congr fun i _ => undumpIns_line hswap i
  refine ⟨by rw [undump, lines_dump, hread], fun part hpart => ?_⟩
  rcases lines_of_isPrefix hpart with hnil | ⟨ls, cut, l, rest, hp, ht, hcut⟩
  · exact ⟨0, Nat.zero_le _, by rw [undump, hnil]; rfl⟩
  · rw [lines_dump] at ht
    obtain ⟨as, bs, hrange, rfl, hbs⟩ := List.map_eq_append_iff.mp ht
    obtain ⟨i, bs, rfl, rfl, -⟩ := List.map_eq_cons_iff.mp hbs
    rw [undump, hp, List.flatMap_append, List.flatMap_singleton]
    rcases undumpIns_cut hswap hcut with hnone | rfl
    · obtain ⟨has, hle⟩ := eq_range_of_isPrefix as ⟨i :: bs, hrange.symm⟩
      refine ⟨as.length, hle, ?_⟩
      rw [hnone, List.append_nil, has, hread, List.length_range]
    · obtain ⟨has, hle⟩ := eq_range_of_isPrefix (as ++ [i])
        ⟨bs, by rw [List.append_assoc]; exact hrange.symm⟩
      refine ⟨(as ++ [i]).length, hle, ?_⟩
      rw [← hread, ← has, List.map_append, List.flatMap_append, List.map_singleton,
        List.flatMap_singleton]

end

/-- A program that returns 0, at the address 64. -/
def returnZero : Mem := write (fun _ => 0) 64 [0xb7, 0, 0, 0, 0, 0, 0, 0, 0x95, 0, 0, 0, 0, 0, 0, 0]

/-- With the digits turned round byte by byte both instructions are read back. -/
theorem bpfDump_reads_back_returnZero :
    undump (rteBpfDump (fun v => leNat (leBytes 8 v).reverse) returnZero ⟨0, 64, 2⟩).2 =
        bytesAt returnZero 64 16 ∧
      ∀ part, part <+: (rteBpfDump (fun v => leNat (leBytes 8 v).reverse) returnZero ⟨0, 64, 2⟩).2 →
        ∃ k ≤ 2, undump part = bytesAt returnZero 64 (8 * k) := by
  refine bpfDump_reads_back (fun bs hbs => ?_) returnZero ⟨0, 64, 2⟩
  have hbytes : leBytes 8 (leNat bs) = bs := hbs ▸ leBytes_leNat
  rw [hbytes]

end Hspp.Bpf
