import Hspp.Lib.Text

/-! # Tokens of C and array definitions

The scanner reads a text character by character, `step : Mode → UInt8 → Mode × List Token`, and
drops blanks and comments.  Tokens are words (names and numbers), literals, and every other
character for itself, also where it is part of a longer operator.  A text ends well outside of
block comments and literals (`tokens`).  Before that backslashes at the end of a line are taken
out with the newline (`splice`), not those with a blank behind them.

`scan_append` puts a text together from its parts.  A block comment ends with the first `*/`
(`scan_block`), and every token takes a character of its own (`length_scan`).

`arrayDef` reads the definition of a static array for its elements.  It takes a part of the
initializers that C has: lists of plain constants, which are numbers without a suffix.  What it
reads has in C the value that it finds; but C also has suffixes, character constants, expressions
and designators, so a text that it does not read may still be an initializer. -/

namespace CLex

open Text

abbrev Token := List UInt8

/-- What the scanner is in the middle of. -/
inductive Mode where
  | blank
  | word (w : Token)
  | slash
  | line
  | block
  | star
  | quoted (q : UInt8) (w : Token)
  | escaped (q : UInt8) (w : Token)
  | bad
deriving DecidableEq, Repr

def isBlank (c : UInt8) : Bool := c == 32 || (9 ≤ c && c ≤ 13)

def isWord (c : UInt8) : Bool :=
  (48 ≤ c && c ≤ 57) || (65 ≤ c && c ≤ 90) || c == 95 || (97 ≤ c && c ≤ 122)

/-- The first character of a token. -/
def start (c : UInt8) : Mode × List Token :=
  if isBlank c then (.blank, [])
  else if isWord c then (.word [c], [])
  else if c = 47 then (.slash, [])
  else if c = 34 ∨ c = 39 then (.quoted c [c], [])
  else (.blank, [[c]])

/-- The mode after a character, and the tokens that are complete with it. -/
def step : Mode → UInt8 → Mode × List Token
  | .blank, c => start c
  | .word w, c => if isWord c then (.word (w ++ [c]), []) else ((start c).1, w :: (start c).2)
  | .slash, c =>
      if c = 47 then (.line, [])
      else if c = 42 then (.block, [])
      else ((start c).1, [47] :: (start c).2)
  | .line, c => if c = 10 then (.blank, []) else (.line, [])
  | .block, c => if c = 42 then (.star, []) else (.block, [])
  | .star, c => if c = 47 then (.blank, []) else if c = 42 then (.star, []) else (.block, [])
  | .quoted q w, c =>
      if c = q then (.blank, [w ++ [c]])
      else if c = 92 then (.escaped q (w ++ [c]), [])
      else if c = 10 then (.bad, [])
      else (.quoted q (w ++ [c]), [])
  | .escaped q w, c => if c = 10 then (.bad, []) else (.quoted q (w ++ [c]), [])
  | .bad, _ => (.bad, [])

def scan : Mode → List UInt8 → Mode × List Token
  | q, [] => (q, [])
  | q, c :: cs => ((scan (step q c).1 cs).1, (step q c).2 ++ (scan (step q c).1 cs).2)

/-- The last token, if a text may end here. -/
def finish : Mode → Option (List Token)
  | .blank => some []
  | .line => some []
  | .word w => some [w]
  | .slash => some [[47]]
  | _ => none

/-- Take out the backslashes at the end of a line. -/
def splice : List UInt8 → List UInt8
  | c :: d :: cs => if c = 92 ∧ d = 10 then splice cs else c :: splice (d :: cs)
  | cs => cs

/-- The tokens of a text. -/
def tokens (text : List UInt8) : Option (List Token) :=
  (finish (scan .blank (splice text)).1).map ((scan .blank (splice text)).2 ++ ·)

/-! ### Array definitions -/

def lower (c : UInt8) : UInt8 := if 65 ≤ c ∧ c ≤ 90 then c + 32 else c

def isDigit (b : ℕ) (c : UInt8) : Bool :=
  ((48 ≤ c && c ≤ 57) || (97 ≤ lower c && lower c ≤ 102)) && digitVal (lower c) < b

/-- The value of the digits `ds` in base `b`. -/
def numeral (b : ℕ) (ds : List UInt8) : Option ℕ :=
  if ds ≠ [] ∧ ds.all (isDigit b) then
    some (Nat.ofDigits b (ds.map fun c => digitVal (lower c)).reverse)
  else none

/-- The value of a plain constant: hexadecimal, octal or decimal, without a suffix. -/
def plainConst : Token → Option ℕ
  | 48 :: c :: ds => if lower c = 120 then numeral 16 ds else numeral 8 (c :: ds)
  | ds => numeral 10 ds

/-- The elements of an initializer with plain constants, up to the end of the definition. -/
def elements : List Token → Option (List ℕ)
  | v :: sep :: ts =>
      if v = ascii "\x7d" then if sep = ascii ";" ∧ ts = [] then some [] else none
      else if sep = ascii "," then (plainConst v).bind fun n => (elements ts).map (n :: ·)
      else if sep = ascii "\x7d" ∧ ts = [ascii ";"] then (plainConst v).map ([·])
      else none
  | _ => none

structure ArrayDef where
  type : Token
  name : Token
  elems : List ℕ
deriving DecidableEq, Repr

/-- `static type name[] = {..};`, with plain constants. -/
def arrayDef : List Token → Option ArrayDef
  | storage :: type :: name :: opened :: closed :: eq :: brace :: ts =>
      if storage = ascii "static" ∧ opened = ascii "[" ∧ closed = ascii "]" ∧ eq = ascii "=" ∧
          brace = ascii "\x7b" then
        (elements ts).map (⟨type, name, ·⟩)
      else none
  | _ => none

/-! ### Parts of a text -/

theorem scan_append (q : Mode) (as bs : List UInt8) :
    scan q (as ++ bs) =
      ((scan (scan q as).1 bs).1, (scan q as).2 ++ (scan (scan q as).1 bs).2) := by
  induction as generalizing q with
  | nil => rfl
  | cons c as ih => simp only [List.cons_append, scan, ih, List.append_assoc]

/-- Parts that begin and end with a blank outside of comments and literals. -/
theorem scan_append_blank {as bs : List UInt8} {ts : List Token}
    (h : scan .blank as = (.blank, ts)) :
    scan .blank (as ++ bs) = ((scan .blank bs).1, ts ++ (scan .blank bs).2) := by
  rw [scan_append, h]

theorem scan_bad (cs : List UInt8) : scan .bad cs = (.bad, []) := by
  induction cs with
  | nil => rfl
  | cons c cs ih =>
      rw [scan]
      simp only [step, ih, List.append_nil]

theorem scan_word {w cs : List UInt8} (h : ∀ c ∈ cs, isWord c) :
    scan (.word w) cs = (.word (w ++ cs), []) := by
  induction cs generalizing w with
  | nil => rw [scan, List.append_nil]
  | cons c cs ih =>
      have hc := h c (.head _)
      rw [scan]
      simp only [step, hc, if_true]
      rw [ih fun c hc => h c (.tail _ hc), List.append_assoc]
      rfl

/-- A word is read whole. -/
theorem scan_blank_word {c : UInt8} {cs : List UInt8} (h : ∀ d ∈ c :: cs, isWord d) :
    scan .blank (c :: cs) = (.word (c :: cs), []) := by
  have hc := h c (.head _)
  have hblank : isBlank c = false := by
    revert hc
    simp only [isWord, isBlank, UInt8.le_iff_toNat_le, Bool.or_eq_true, Bool.and_eq_true,
      decide_eq_true_eq, beq_iff_eq, ← UInt8.toNat_inj]
    simp only [Bool.or_eq_false_iff, Bool.and_eq_false_iff, beq_eq_false_iff_ne, ne_eq,
      decide_eq_false_iff_not, ← UInt8.toNat_inj, UInt8.reduceToNat]
    omega
  rw [scan]
  simp only [step, start, hblank, hc, Bool.false_eq_true, if_false, if_true, List.nil_append]
  rw [scan_word fun d hd => h d (.tail _ hd)]
  rfl

theorem scan_blank_replicate (k : ℕ) : scan .blank (List.replicate k 32) = (.blank, []) := by
  induction k with
  | zero => rfl
  | succ k ih =>
      rw [List.replicate_succ, scan]
      have hstep : step .blank 32 = (.blank, []) := rfl
      rw [hstep, ih]
      rfl

/-- A line comment ends with its line. -/
theorem scan_line {cs : List UInt8} (h : (10 : UInt8) ∉ cs) :
    scan .line (cs ++ [10]) = (.blank, []) := by
  induction cs with
  | nil => rfl
  | cons c cs ih =>
      obtain ⟨hc, hcs⟩ := not_or.mp (List.mem_cons.not.mp h)
      rw [List.cons_append, scan]
      simp only [step, if_neg (Ne.symm hc), ih hcs, List.append_nil]

/-- Everything up to the end of the text is in the block comment. -/
def InComment (r : Mode × List Token) : Prop := (r.1 = .block ∨ r.1 = .star) ∧ r.2 = []

/-- A block comment ends with the first `*/`, whose `*` may be what the scanner has seen last. -/
theorem scan_block (cs : List UInt8) :
    (InComment (scan .block cs) ∨
      ∃ as bs, cs = as ++ 42 :: 47 :: bs ∧ scan .block cs = scan .blank bs) ∧
    (InComment (scan .star cs) ∨
      ∃ as bs, 42 :: cs = as ++ 42 :: 47 :: bs ∧ scan .star cs = scan .blank bs) := by
  induction cs with
  | nil => exact ⟨.inl ⟨.inl rfl, rfl⟩, .inl ⟨.inr rfl, rfl⟩⟩
  | cons c cs ih =>
      obtain ⟨hblock, hstar⟩ := ih
      have hskip : ∀ d, InComment (scan .block cs) ∨
          ∃ as bs, d :: cs = as ++ 42 :: 47 :: bs ∧ scan .block cs = scan .blank bs :=
        fun d => hblock.imp_right fun ⟨as, bs, has, hbs⟩ =>
          ⟨d :: as, bs, congrArg (d :: ·) has, hbs⟩
      constructor
      · rw [scan]
        by_cases hc : c = 42
        · subst hc
          exact hstar
        · simp only [step, if_neg hc, List.nil_append]
          exact hskip c
      · rw [scan]
        by_cases hclose : c = 47
        · subst hclose
          exact .inr ⟨[], cs, rfl, rfl⟩
        by_cases hc : c = 42
        · subst hc
          simp only [step, if_neg hclose, if_true, List.nil_append]
          exact hstar.imp_right fun ⟨as, bs, has, hbs⟩ =>
            ⟨42 :: as, bs, congrArg (42 :: ·) has, hbs⟩
        · simp only [step, if_neg hclose, if_neg hc, List.nil_append]
          exact (hskip c).imp_right fun ⟨as, bs, has, hbs⟩ =>
            ⟨42 :: as, bs, congrArg (42 :: ·) has, hbs⟩

theorem scan_block_of_notMem {cs : List UInt8} (h : (42 : UInt8) ∉ cs) :
    scan .block cs = (.block, []) := by
  induction cs with
  | nil => rfl
  | cons c cs ih =>
      obtain ⟨hc, hcs⟩ := not_or.mp (List.mem_cons.not.mp h)
      rw [scan]
      simp only [step, if_neg (Ne.symm hc), ih hcs, List.append_nil]

/-- What the scanner is in the middle of has at least so many characters. -/
def Mode.size : Mode → ℕ
  | .blank => 0
  | .word _ => 1
  | .slash => 1
  | .line => 2
  | .block => 2
  | .star => 2
  | .quoted _ _ => 1
  | .escaped _ _ => 1
  | .bad => 0

theorem length_start (c : UInt8) : (start c).2.length + (start c).1.size ≤ 1 := by
  unfold start
  split_ifs <;> simp [Mode.size]

theorem length_step (q : Mode) (c : UInt8) :
    (step q c).2.length + (step q c).1.size ≤ q.size + 1 := by
  have hstart := length_start c
  cases q with
  | blank => exact hstart.trans (Nat.le_add_left 1 _)
  | bad => exact Nat.zero_le _
  | _ =>
      simp only [step]
      split_ifs <;> simp only [Mode.size, List.length_cons, List.length_nil] at hstart ⊢ <;> omega

/-- Every token has a character of its own. -/
theorem length_scan (q : Mode) (cs : List UInt8) :
    (scan q cs).2.length + (scan q cs).1.size ≤ q.size + cs.length := by
  induction cs generalizing q with
  | nil => exact (Nat.zero_add _).le
  | cons c cs ih =>
      have hstep := length_step q c
      have ih := ih (step q c).1
      rw [scan]
      simp only [List.length_append, List.length_cons]
      omega

/-- A comment that is left takes the two characters that end it, or one if the scanner has seen
the other. -/
theorem length_scan_block (cs : List UInt8) :
    (InComment (scan .block cs) ∨
      (scan .block cs).2.length + (scan .block cs).1.size + 2 ≤ cs.length) ∧
    (InComment (scan .star cs) ∨
      (scan .star cs).2.length + (scan .star cs).1.size + 1 ≤ cs.length) := by
  have hleft : ∀ bs, (scan .blank bs).2.length + (scan .blank bs).1.size ≤ bs.length :=
    fun bs => (length_scan .blank bs).trans_eq (Nat.zero_add _)
  obtain ⟨hblock, hstar⟩ := scan_block cs
  constructor
  · refine hblock.imp_right ?_
    rintro ⟨as, bs, hcs, hscan⟩
    have hlen := congrArg List.length hcs
    have hbs := hleft bs
    rw [hscan]
    simp only [List.length_append, List.length_cons] at hlen
    omega
  · refine hstar.imp_right ?_
    rintro ⟨as, bs, hcs, hscan⟩
    have hlen := congrArg List.length hcs
    have hbs := hleft bs
    rw [hscan]
    simp only [List.length_append, List.length_cons] at hlen
    omega

/-- A newline ends everything but a block comment. -/
theorem scan_newline (q : Mode) (cs : List UInt8) : (scan q (cs ++ [10])).1 = .blank ∨
    (scan q (cs ++ [10])).1 = .block ∨ (scan q (cs ++ [10])).1 = .bad := by
  rw [scan_append]
  cases (scan q cs).1 with
  | blank => exact .inl rfl
  | word w => exact .inl rfl
  | slash => exact .inl rfl
  | line => exact .inl rfl
  | block => exact .inr (.inl rfl)
  | star => exact .inr (.inl rfl)
  | quoted d w =>
      by_cases hd : 10 = d
      · exact .inl (by simp [scan, step, hd])
      · exact .inr (.inr (by simp [scan, step, hd]))
  | escaped d w => exact .inr (.inr rfl)
  | bad => exact .inr (.inr rfl)

/-- A literal begins with a quotation mark. -/
def Mode.Marked : Mode → Prop
  | .quoted q _ => q = 34 ∨ q = 39
  | .escaped q _ => q = 34 ∨ q = 39
  | _ => True

theorem marked_start (c : UInt8) : (start c).1.Marked := by
  unfold start
  split_ifs with _ _ _ hquote
  · trivial
  · trivial
  · trivial
  · exact hquote
  · trivial

theorem marked_step {q : Mode} (hq : q.Marked) (c : UInt8) : (step q c).1.Marked := by
  cases q with
  | blank => exact marked_start c
  | bad => trivial
  | _ =>
      simp only [step]
      split_ifs
      all_goals first | exact hq | exact marked_start c | trivial

theorem marked_scan {q : Mode} (hq : q.Marked) (cs : List UInt8) : (scan q cs).1.Marked := by
  induction cs generalizing q with
  | nil => exact hq
  | cons c cs ih => exact ih (marked_step hq c)

/-- Nothing is taken out of a line that does not end with a backslash. -/
theorem splice_append_newline {cs : List UInt8} (hnl : (10 : UInt8) ∉ cs)
    (hlast : cs.getLast? ≠ some 92) (rest : List UInt8) :
    splice (cs ++ 10 :: rest) = cs ++ 10 :: splice rest := by
  have hfirst : ∀ rest, splice (10 :: rest) = 10 :: splice rest := by
    intro rest
    cases rest with
    | nil => rfl
    | cons d rest => rw [splice, if_neg fun h => absurd h.1 (by decide)]
  induction cs with
  | nil => exact hfirst rest
  | cons c cs ih =>
      obtain ⟨hc, hcs⟩ := not_or.mp (List.mem_cons.not.mp hnl)
      cases cs with
      | nil =>
          have hc92 : c ≠ 92 := by simpa using hlast
          rw [List.cons_append, List.nil_append, splice, if_neg fun h => hc92 h.1, hfirst]
          rfl
      | cons d cs =>
          have hd : d ≠ 10 := fun h => hcs (h ▸ List.mem_cons_self)
          have hlast' : (d :: cs).getLast? ≠ some 92 := by
            rwa [List.getLast?_cons_cons] at hlast
          rw [List.cons_append, List.cons_append, splice, if_neg fun h => hd h.2]
          rw [← List.cons_append, ih hcs hlast']
          rfl

theorem splice_lines {ls : List (List UInt8)}
    (h : ∀ l ∈ ls, (10 : UInt8) ∉ l ∧ l.getLast? ≠ some 92) :
    splice (ls.flatMap (· ++ [10])) = ls.flatMap (· ++ [10]) := by
  induction ls with
  | nil => rfl
  | cons l ls ih =>
      obtain ⟨hnl, hlast⟩ := h l (.head _)
      rw [List.flatMap_cons, List.append_assoc, List.singleton_append,
        splice_append_newline hnl hlast, ih fun l hl => h l (.tail _ hl)]

/-! ### Elements -/

/-- A number printed in hexadecimal is a plain constant with its value. -/
theorem plainConst_printNum {w n : ℕ} (hw : 0 < w) (hn : n < 16 ^ w) :
    plainConst (ascii "0x" ++ printNum 16 w n) = some n := by
  have hchar : ∀ c ∈ printNum 16 w n, isDigit 16 c = true ∧ lower c = c :=
    forall_mem_printNum (by norm_num) le_rfl (by decide)
  have hne : printNum 16 w n ≠ [] := by
    rw [← List.length_pos_iff, length_printNum (by norm_num) hn]
    exact hw
  have hall : (printNum 16 w n).all (isDigit 16) = true :=
    List.all_eq_true.mpr fun c hc => (hchar c hc).1
  have hvals : (printNum 16 w n).map (fun c => digitVal (lower c)) =
      (printNum 16 w n).map digitVal :=
    List.map_congr_left fun c hc => by rw [(hchar c hc).2]
  have hascii : ascii "0x" ++ printNum 16 w n = 48 :: 120 :: printNum 16 w n := rfl
  rw [hascii, plainConst, if_pos (by decide), numeral, if_pos ⟨hne, hall⟩, hvals,
    ofDigits_printNum (by norm_num) le_rfl]

/-- Every element is a plain constant with a comma, up to the last one. -/
theorem length_elements : ∀ {ts : List Token} {ns : List ℕ}, elements ts = some ns →
    2 * ns.length + 1 ≤ ts.length ∧ ts.length ≤ 2 * ns.length + 2
  | [], ns, h => by cases h
  | [t], ns, h => by cases h
  | v :: sep :: ts, ns, h => by
      rw [elements] at h
      split_ifs at h with hv hend hcomma hlast
      · obtain ⟨⟨-, rfl⟩, rfl⟩ := And.intro hend (Option.some.inj h)
        simp
      · obtain ⟨n, -, hns⟩ := Option.bind_eq_some_iff.mp h
        obtain ⟨ns', hts, rfl⟩ := Option.map_eq_some_iff.mp hns
        have ih := length_elements hts
        simp only [List.length_cons]
        omega
      · obtain ⟨n, -, rfl⟩ := Option.map_eq_some_iff.mp h
        rw [hlast.2]
        simp

/-- What is read has no other tokens than plain constants and the punctuation between them. -/
theorem notMem_of_elements {t : Token} (ht : plainConst t = none)
    (hpunct : t ∉ [ascii ",", ascii "\x7d", ascii ";"]) :
    ∀ {ts : List Token} {ns : List ℕ}, elements ts = some ns → t ∉ ts
  | [], ns, h => by cases h
  | [v], ns, h => by cases h
  | v :: sep :: ts, ns, h => by
      simp only [List.mem_cons, List.not_mem_nil, or_false, not_or] at hpunct ⊢
      obtain ⟨hcomma', hbrace, hsemi⟩ := hpunct
      have hconst : ∀ n, plainConst v = some n → t ≠ v := by
        rintro n hn rfl
        rw [ht] at hn
        cases hn
      rw [elements] at h
      split_ifs at h with hv hend hcomma hlast
      · rw [hv, hend.1, hend.2]
        exact ⟨hbrace, hsemi, List.not_mem_nil⟩
      · obtain ⟨n, hn, hns⟩ := Option.bind_eq_some_iff.mp h
        obtain ⟨ns', hts, -⟩ := Option.map_eq_some_iff.mp hns
        exact ⟨hconst n hn, hcomma ▸ hcomma', notMem_of_elements ht (by simp [*]) hts⟩
      · obtain ⟨n, hn, -⟩ := Option.map_eq_some_iff.mp h
        rw [hlast.1, hlast.2, List.mem_singleton]
        exact ⟨hconst n hn, hbrace, hsemi⟩

/-- Before a constant there are whole elements. -/
theorem elements_append {v : Token} {n : ℕ} (hv : plainConst v = some n) {us : List Token} :
    ∀ {ts : List Token} {ns : List ℕ}, elements (ts ++ v :: us) = some ns →
      ∃ ns₁ ns₂, ns = ns₁ ++ ns₂ ∧ 2 * ns₁.length = ts.length ∧ elements (v :: us) = some ns₂
  | [], ns, h => ⟨[], ns, rfl, rfl, h⟩
  | [w], ns, h => by
      have hpunct : v ≠ ascii "," ∧ v ≠ ascii "\x7d" ∧ v ≠ ascii ";" := by
        refine ⟨?_, ?_, ?_⟩ <;>
        · rintro rfl
          cases hv
      rw [List.singleton_append, elements] at h
      simp [hpunct] at h
  | w :: sep :: ts, ns, h => by
      rw [List.cons_append, List.cons_append, elements] at h
      split_ifs at h with hw hend hcomma hlast
      · simp at hend
      · obtain ⟨m, hm, hns⟩ := Option.bind_eq_some_iff.mp h
        obtain ⟨ns', hts, rfl⟩ := Option.map_eq_some_iff.mp hns
        obtain ⟨ns₁, ns₂, rfl, hlen, hns₂⟩ := elements_append hv hts
        exact ⟨m :: ns₁, ns₂, rfl, by simp only [List.length_cons]; omega, hns₂⟩
      · obtain ⟨hts, hrest⟩ := List.append_eq_singleton_iff.mp hlast.2 |>.resolve_right (by simp)
        cases hrest
        cases hv

theorem elements_nil : elements [ascii "\x7d", ascii ";"] = some [] := by
  rw [elements, if_pos rfl, if_pos ⟨rfl, rfl⟩]

theorem elements_cons {v : Token} {n : ℕ} (hv : plainConst v = some n) (ts : List Token) :
    elements (v :: ascii "," :: ts) = (elements ts).map (n :: ·) := by
  have hbrace : v ≠ ascii "\x7d" := by
    rintro rfl
    cases hv
  rw [elements, if_neg hbrace, if_pos rfl, hv]
  rfl

end CLex
