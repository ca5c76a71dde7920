import Hspp.Lib.Text

/-! # Texts made of lines

A text is whole when its last line is ended by a newline, as what a program prints line by
line is.  The lines of whole texts are the lines of the texts one after the other
(`lines_append`), and `AllLines p` says of a whole text that its lines satisfy `p`.

A log is a sequence of entries with a line behind each of them that closes it; the entries are
found again when no line of theirs looks like that (`entries_flatMap`), also in a log that is cut
somewhere (`entries_isPrefix`), and so are parts that each begin with a head (`splitOnP_heads`).
A number is read back from the word that `%u`, `%d` or `0x%x` makes of it (`readNum`). -/

namespace Text

/-- Putting the newlines back behind the lines gives the text. -/
def Whole (text : List UInt8) : Prop := (lines text).flatMap (· ++ [10]) = text

theorem whole_nil : Whole [] := rfl

/-- The lines of a text hold no newline, and nothing that is not in the text. -/
theorem mem_of_mem_lines : ∀ {text l : List UInt8} {c : UInt8}, l ∈ lines text → c ∈ l →
    c ∈ text ∧ c ≠ 10
  | [], _, _, hl, _ => absurd hl List.not_mem_nil
  | d :: text, l, c, hl, hc => by
      rw [lines] at hl
      split_ifs at hl with hd
      · rcases List.mem_cons.mp hl with rfl | hl
        · cases hc
        · exact (mem_of_mem_lines hl hc).imp_left (.tail _)
      · cases hls : lines text with
        | nil =>
            rw [hls] at hl
            rw [List.mem_singleton.mp hl, List.mem_singleton] at hc
            exact ⟨hc ▸ .head _, hc ▸ hd⟩
        | cons l' ls =>
            rw [hls] at hl
            rcases List.mem_cons.mp hl with rfl | hl
            · rcases List.mem_cons.mp hc with rfl | hc
              · exact ⟨.head _, hd⟩
              · exact (mem_of_mem_lines (hls ▸ .head _) hc).imp_left (.tail _)
            · exact (mem_of_mem_lines (hls ▸ .tail _ hl) hc).imp_left (.tail _)

theorem newline_notMem_of_mem_lines {text l : List UInt8} (hl : l ∈ lines text) :
    (10 : UInt8) ∉ l := fun h => (mem_of_mem_lines hl h).2 rfl

/-- Behind whole lines the lines of a text begin. -/
theorem lines_flatMap_append {ls : List (List UInt8)} (h : ∀ l ∈ ls, (10 : UInt8) ∉ l)
    (text : List UInt8) : lines (ls.flatMap (· ++ [10]) ++ text) = ls ++ lines text := by
  induction ls with
  | nil => rfl
  | cons l ls ih =>
      rw [List.flatMap_cons, List.append_assoc, List.append_assoc, List.singleton_append,
        lines_append_newline _ (h l (.head _)), ih fun l hl => h l (.tail _ hl), List.cons_append]

theorem lines_append {text : List UInt8} (h : Whole text) (text' : List UInt8) :
    lines (text ++ text') = lines text ++ lines text' := by
  conv_lhs => rw [← show _ = text from h]
  exact lines_flatMap_append (fun _ => newline_notMem_of_mem_lines) text'

theorem Whole.append {text text' : List UInt8} (h : Whole text) (h' : Whole text') :
    Whole (text ++ text') := by
  unfold Whole
  rw [lines_append h, List.flatMap_append, h, h']

theorem whole_flatMap {ls : List (List UInt8)} (h : ∀ l ∈ ls, (10 : UInt8) ∉ l) :
    Whole (ls.flatMap (· ++ [10])) := by
  unfold Whole
  rw [lines_flatMap h]

/-- A newline makes any text whole. -/
theorem whole_append_newline : ∀ text : List UInt8, Whole (text ++ [10])
  | [] => rfl
  | c :: text => by
      have ih := whole_append_newline text
      unfold Whole at ih ⊢
      rw [List.cons_append, lines]
      split_ifs with hc
      · rw [List.flatMap_cons, ih, hc]
        rfl
      · cases hls : lines (text ++ [10]) with
        | nil =>
            rw [hls] at ih
            exact absurd ih.symm (by simp)
        | cons l ls =>
            rw [hls, List.flatMap_cons] at ih
            change (c :: l ++ [10]) ++ ls.flatMap (· ++ [10]) = c :: (text ++ [10])
            rw [← ih]
            rfl

/-! ### Lines that satisfy a predicate -/

/-- A whole text, each line of which satisfies `p`. -/
structure AllLines (p : List UInt8 → Prop) (text : List UInt8) : Prop where
  whole : Whole text
  all : ∀ l ∈ lines text, p l

variable {p : List UInt8 → Prop}

theorem allLines_nil : AllLines p [] := ⟨whole_nil, fun _ hl => absurd hl List.not_mem_nil⟩

theorem AllLines.append {text text' : List UInt8} (h : AllLines p text) (h' : AllLines p text') :
    AllLines p (text ++ text') := by
  refine ⟨h.whole.append h'.whole, fun l hl => ?_⟩
  rw [lines_append h.whole, List.mem_append] at hl
  exact hl.elim (h.all l) (h'.all l)

theorem allLines_flatMap {ls : List (List UInt8)} (h : ∀ l ∈ ls, (10 : UInt8) ∉ l)
    (hp : ∀ l ∈ ls, p l) : AllLines p (ls.flatMap (· ++ [10])) :=
  ⟨whole_flatMap h, fun l hl => hp l (by rwa [lines_flatMap h] at hl)⟩

theorem lines_line {l : List UInt8} (h : (10 : UInt8) ∉ l) : lines (l ++ [10]) = [l] :=
  lines_append_newline [] h

theorem allLines_line {l : List UInt8} (h : (10 : UInt8) ∉ l) (hp : p l) :
    AllLines p (l ++ [10]) := by
  refine ⟨whole_append_newline l, fun l' hl => ?_⟩
  rw [lines_line h, List.mem_singleton] at hl
  exact hl ▸ hp

/-- What does not stand in a text does not stand in its lines. -/
theorem allLines_of_notMem {c : UInt8} {text : List UInt8} (h : c ∉ text) (hc : c ≠ 10) :
    AllLines (c ∉ ·) (text ++ [10]) := by
  refine ⟨whole_append_newline text, fun l hl hmem => ?_⟩
  rcases List.mem_append.mp (mem_of_mem_lines hl hmem).1 with hin | hin
  · exact h hin
  · exact hc (List.mem_singleton.mp hin)

theorem AllLines.mono {q : List UInt8 → Prop} {text : List UInt8} (h : AllLines p text)
    (hpq : ∀ l, p l → q l) : AllLines q text := ⟨h.whole, fun l hl => hpq l (h.all l hl)⟩

/-- Whole texts one after the other. -/
theorem lines_flatMap_of_whole {α : Type*} {f : α → List UInt8} {xs : List α}
    (h : ∀ x ∈ xs, Whole (f x)) : lines (xs.flatMap f) = xs.flatMap fun x => lines (f x) := by
  induction xs with
  | nil => rfl
  | cons x xs ih =>
      rw [List.flatMap_cons, List.flatMap_cons, lines_append (h x (.head _)),
        ih fun x hx => h x (.tail _ hx)]

/-- The lines of the beginning of a text are lines of the text, but that the last of them may be
cut. -/
theorem lines_of_isPrefix : ∀ {part text : List UInt8}, part <+: text → lines part = [] ∨
    ∃ ls cut l rest, lines part = ls ++ [cut] ∧ lines text = ls ++ l :: rest ∧ cut <+: l
  | [], _, _ => .inl rfl
  | c :: part, [], h => absurd (List.prefix_nil.mp h) (List.cons_ne_nil c part)
  | c :: part, d :: text, h => by
      obtain ⟨rfl, hpart⟩ := List.cons_prefix_cons.mp h
      right
      rw [lines, lines]
      split_ifs with hc
      · rcases lines_of_isPrefix hpart with hnil | ⟨ls, cut, l, rest, hp, ht, hcut⟩
        · exact ⟨[], [], [], lines text, by rw [hnil]; rfl, rfl, List.prefix_rfl⟩
        · exact ⟨[] :: ls, cut, l, rest, by rw [hp]; rfl, by rw [ht]; rfl, hcut⟩
      · rcases lines_of_isPrefix hpart with hnil | ⟨ls, cut, l, rest, hp, ht, hcut⟩
        · rw [hnil]
          cases lines text with
          | nil => exact ⟨[], [c], [c], [], rfl, rfl, List.prefix_rfl⟩
          | cons l ls =>
              exact ⟨[], [c], c :: l, ls, rfl, rfl, List.cons_prefix_cons.mpr ⟨rfl, List.nil_prefix⟩⟩
        · rw [hp, ht]
          cases ls with
          | nil =>
              exact ⟨[], c :: cut, c :: l, rest, rfl, rfl, List.cons_prefix_cons.mpr ⟨rfl, hcut⟩⟩
          | cons l' ls => exact ⟨(c :: l') :: ls, cut, l, rest, rfl, rfl, hcut⟩

/-! ### Logs -/

section entries

variable {α β : Type*} {q : β → Bool}

/-- The entries of a log, each up to the element that closes it. -/
def entries (q : β → Bool) : List β → List (List β)
  | [] => []
  | x :: xs => if q x then [] :: entries q xs else (entries q xs).modifyHead (x :: ·)

theorem entries_append_close : ∀ {xs : List β} {x : β} (ys : List β), (∀ y ∈ xs, q y = false) →
    q x = true → entries q (xs ++ x :: ys) = xs :: entries q ys
  | [], x, ys, _, hx => by rw [List.nil_append, entries, if_pos hx]
  | z :: xs, x, ys, h, hx => by
      have hz := h z (.head _)
      rw [List.cons_append, entries, if_neg (by rw [hz]; exact Bool.false_ne_true),
        entries_append_close ys (fun y hy => h y (.tail _ hy)) hx, List.modifyHead_cons]

/-- The entries that were written are found again. -/
theorem entries_flatMap {body : α → List β} {close : α → β} {es : List α}
    (hbody : ∀ e ∈ es, ∀ y ∈ body e, q y = false) (hclose : ∀ e ∈ es, q (close e) = true) :
    entries q (es.flatMap fun e => body e ++ [close e]) = es.map body := by
  induction es with
  | nil => rfl
  | cons e es ih =>
      rw [List.flatMap_cons, List.append_assoc, List.singleton_append,
        entries_append_close _ (hbody e (.head _)) (hclose e (.head _)),
        ih (fun e he => hbody e (.tail _ he)) fun e he => hclose e (.tail _ he), List.map_cons]

/-- An element behind the last entry changes nothing unless it closes one. -/
theorem entries_append_of_not : ∀ (xs : List β) {x : β}, q x = false →
    entries q (xs ++ [x]) = entries q xs
  | [], x, hx => by simp [entries, hx]
  | y :: xs, x, hx => by
      rw [List.cons_append, entries, entries, entries_append_of_not xs hx]

theorem entries_isPrefix_append : ∀ xs ys : List β, entries q xs <+: entries q (xs ++ ys)
  | [], _ => List.nil_prefix
  | x :: xs, ys => by
      have ih := entries_isPrefix_append xs ys
      rw [List.cons_append, entries, entries]
      split_ifs
      · exact List.cons_prefix_cons.mpr ⟨rfl, ih⟩
      · obtain ⟨es, hes⟩ := ih
        rw [← hes]
        cases hxs : entries q xs with
        | nil => exact List.nil_prefix
        | cons e es' => exact List.prefix_append _ _

/-- **Cut logs**: if no line of an entry begins with the closing line, the entries of the
beginning of a log are its first entries. -/
theorem entries_isPrefix {close : List UInt8} {part text : List UInt8} (hpart : part <+: text)
    (hclose : ∀ l ∈ lines text, close <+: l → l = close) :
    entries (· == close) (lines part) <+: entries (· == close) (lines text) := by
  rcases lines_of_isPrefix hpart with hnil | ⟨ls, cut, l, rest, hp, ht, hcut⟩
  · rw [hnil]
    exact List.nil_prefix
  · rw [hp, ht]
    by_cases hc : cut = close
    · -- the cut line closes an entry, so it is whole
      have hl : l = close := hclose l (ht ▸ List.mem_append_right _ (.head _)) (hc ▸ hcut)
      rw [hc, hl, List.append_cons ls close rest]
      exact entries_isPrefix_append _ _
    · have hopen : (cut == close) = false := beq_eq_false_iff_ne.mpr hc
      rw [entries_append_of_not (q := (· == close)) ls hopen]
      exact entries_isPrefix_append _ _

/-- What stands behind each head. -/
theorem splitOnP_heads {head : α → β} {body : α → List β} :
    ∀ {es : List α} (xs : List β), (∀ y ∈ xs, q y = false) →
      (∀ e ∈ es, q (head e) = true ∧ ∀ y ∈ body e, q y = false) →
      (xs ++ es.flatMap fun e => head e :: body e).splitOnP q = xs :: es.map body
  | [], xs, hxs, _ => by rw [List.flatMap_nil, List.append_nil, List.splitOnP_eq_singleton hxs]; rfl
  | e :: es, xs, hxs, h => by
      obtain ⟨hhead, hbody⟩ := h e (.head _)
      rw [List.flatMap_cons, List.cons_append,
        List.splitOnP_append_cons_of_forall_mem hxs _ hhead,
        splitOnP_heads _ hbody fun e he => h e (.tail _ he), List.map_cons]

end entries

/-! ### Lists element by element -/

theorem exists_forall₂_iff {α β : Type*} {r : α → β → Prop} : ∀ {xs : List α},
    (∃ ys, List.Forall₂ r xs ys) ↔ ∀ x ∈ xs, ∃ y, r x y
  | [] => iff_of_true ⟨[], .nil⟩ fun x hx => absurd hx List.not_mem_nil
  | x :: xs => by
      rw [List.forall_mem_cons, ← exists_forall₂_iff]
      constructor
      · rintro ⟨ys, hys⟩
        cases hys with
        | cons hx hxs => exact ⟨⟨_, hx⟩, _, hxs⟩
      · rintro ⟨⟨y, hy⟩, ys, hys⟩
        exact ⟨y :: ys, .cons hy hys⟩

theorem map_eq_map_of_forall₂ {α β γ : Type*} {r : α → β → Prop} {f : α → γ} {g : β → γ} :
    ∀ {xs : List α} {ys : List β}, List.Forall₂ r xs ys → (∀ x, ∀ y ∈ ys, r x y → f x = g y) →
      xs.map f = ys.map g
  | _, _, .nil, _ => rfl
  | x :: _, y :: _, .cons hxy hrest, h => by
      rw [List.map_cons, List.map_cons, h x y (.head _) hxy,
        map_eq_map_of_forall₂ hrest fun x y hy => h x y (.tail _ hy)]

theorem forall₂_of_map_eq {α β γ : Type*} {r : α → β → Prop} {f : α → γ} {g : β → γ} :
    ∀ {xs : List α} {ys : List β}, xs.map f = ys.map g →
      (∀ x ∈ xs, ∀ y ∈ ys, f x = g y → r x y) → List.Forall₂ r xs ys
  | [], [], _, _ => .nil
  | x :: xs, y :: ys, h, hr => by
      obtain ⟨hxy, hrest⟩ := List.cons_eq_cons.mp h
      exact .cons (hr x (.head _) y (.head _) hxy)
        (forall₂_of_map_eq hrest fun x hx y hy => hr x (.tail _ hx) y (.tail _ hy))

/-! ### Words -/

/-- `%d`. -/
def printInt (n : ℤ) : List UInt8 := (if n < 0 then ascii "-" else []) ++ printNum 10 1 n.natAbs

/-- The digits of a number in base `b`. -/
def readDigits (b : ℕ) (ds : List UInt8) : ℕ := Nat.ofDigits b (ds.map digitVal).reverse

/-- The number that a word printed by `%u`, `%d` or `0x%x` stands for. -/
def readNum (word : List UInt8) : ℤ :=
  if word.take 2 = ascii "0x" then readDigits 16 (word.drop 2)
  else if word.head? = some 45 then -readDigits 10 word.tail
  else readDigits 10 word

theorem readDigits_printNum {b w n : ℕ} (hb : 1 < b) (hb' : b ≤ 16) :
    readDigits b (printNum b w n) = n := ofDigits_printNum hb hb'

theorem readNum_hex (w n : ℕ) : readNum (ascii "0x" ++ printNum 16 w n) = n := by
  have htwo : (ascii "0x").length = 2 := rfl
  rw [readNum, List.take_left' htwo, if_pos rfl, List.drop_left' htwo,
    readDigits_printNum (by norm_num) le_rfl]

/-- A word in decimal digits is neither a hexadecimal nor a negative number. -/
theorem readNum_dec (w n : ℕ) : readNum (printNum 10 w n) = n := by
  have hdigit : ∀ c ∈ printNum 10 w n, c ≠ 120 ∧ c ≠ 45 :=
    forall_mem_printNum (by norm_num) (by norm_num) (by decide)
  have hhex : (printNum 10 w n).take 2 ≠ ascii "0x" := by
    intro h
    have hmem : (120 : UInt8) ∈ (printNum 10 w n).take 2 := h ▸ .tail _ (.head _)
    exact (hdigit 120 (List.mem_of_mem_take hmem)).1 rfl
  have hneg : (printNum 10 w n).head? ≠ some 45 :=
    fun h => (hdigit 45 (List.mem_of_mem_head? h)).2 rfl
  rw [readNum, if_neg hhex, if_neg hneg, readDigits_printNum (by norm_num) (by norm_num)]

theorem readNum_printInt (n : ℤ) : readNum (printInt n) = n := by
  unfold printInt
  split_ifs with h
  · have hword : ascii "-" ++ printNum 10 1 n.natAbs = 45 :: printNum 10 1 n.natAbs := rfl
    have hhex : (45 :: printNum 10 1 n.natAbs).take 2 ≠ ascii "0x" := by
      intro h
      exact absurd (List.head_eq_of_cons_eq h) (by decide)
    rw [hword, readNum, if_neg hhex, if_pos List.head?_cons, List.tail_cons,
      readDigits_printNum (by norm_num) (by norm_num)]
    omega
  · rw [List.nil_append, readNum_dec]
    omega

end Text
