import Mathlib.Tactic
import Mathlib.Data.List.TakeWhile
import Mathlib.Data.Nat.Digits.Lemmas
import Hspp.Lib.Memory

/-! # Byte strings and the `printf` family

Text is a list of bytes.  `printNum b w n` is `n` in base `b` with at least `w` digits,
which covers `%u`, `%02x`, `%04x` and the like; it determines `n`
(`printNum_injective`), as a text joined with a separator determines its pieces
(`intercalate_inj`).  `snprintf dst len text` is the destination after at most `len`
bytes of `text` and a terminating NUL have been written to it, and `cstr` cuts a buffer at
its first NUL.

`strncat dst src n` knows nothing of the size of `dst`: what it writes behind the buffer
makes the list longer.  After any number of appends the list is as long as the buffer just
when the string in it and its NUL fit (`strncats_fits_iff`). -/

namespace Text

open Memory

/-- The bytes of an ASCII string. -/
def ascii (s : String) : List UInt8 := s.toList.map fun c => UInt8.ofNat c.toNat

/-- The digit characters of bases up to sixteen, in lower case. -/
def digitChar (d : ℕ) : UInt8 := UInt8.ofNat (if d < 10 then 48 + d else 87 + d)

/-- The number `n` in base `b`, with zeros in front up to `w` digits. -/
def printNum (b w n : ℕ) : List UInt8 :=
  (List.replicate (w - (Nat.digits b n).length) 0 ++ (Nat.digits b n).reverse).map digitChar

/-- The bytes of a buffer up to its first NUL. -/
def cstr (bs : List UInt8) : List UInt8 := bs.takeWhile (· ≠ 0)

/-- The contents of `dst` after `snprintf(dst, len, ..)` of `text`. -/
def snprintf (dst : List UInt8) (len : ℕ) (text : List UInt8) : List UInt8 :=
  if len = 0 then dst
  else text.take (len - 1) ++ 0 :: dst.drop ((text.take (len - 1)).length + 1)

/-- `strlen`. -/
def strlen (bs : List UInt8) : ℕ := (cstr bs).length

/-- The contents of `dst` after `strncat(dst, src, n)`: at most `n` characters of the string
`src` and a NUL are written from the NUL of `dst` on, wherever `dst` ends. -/
def strncat (dst src : List UInt8) (n : ℕ) : List UInt8 :=
  cstr dst ++ (cstr src).take n ++ 0 :: dst.drop (strlen dst + ((cstr src).take n).length + 1)

/-- One append after the other, each with its own bound. -/
def strncats (dst : List UInt8) (ps : List (List UInt8 × ℕ)) : List UInt8 :=
  ps.foldl (fun dst p => strncat dst p.1 p.2) dst

/-! ### Numbers -/

/-- The value of a digit character. -/
def digitVal (c : UInt8) : ℕ := if c.toNat < 58 then c.toNat - 48 else c.toNat - 87

theorem digitVal_digitChar {d : ℕ} (hd : d < 16) : digitVal (digitChar d) = d := by
  simp only [digitVal, digitChar, UInt8.toNat_ofNat']
  split_ifs <;> omega

theorem lt_base_of_mem {b w n d : ℕ} (hb : 1 < b)
    (h : d ∈ List.replicate (w - (Nat.digits b n).length) 0 ++ (Nat.digits b n).reverse) :
    d < b := by
  rcases List.mem_append.mp h with h | h
  · rw [List.eq_of_mem_replicate h]
    omega
  · exact Nat.digits_lt_base hb (List.mem_reverse.mp h)

/-- A printed number can be read back. -/
theorem ofDigits_printNum {b w n : ℕ} (hb : 1 < b) (hb' : b ≤ 16) :
    Nat.ofDigits b ((printNum b w n).map digitVal).reverse = n := by
  have hmap : (printNum b w n).map digitVal =
      List.replicate (w - (Nat.digits b n).length) 0 ++ (Nat.digits b n).reverse := by
    rw [printNum, List.map_map]
    refine (List.map_congr_left fun d hd => ?_).trans (List.map_id _)
    exact digitVal_digitChar ((lt_base_of_mem hb hd).trans_le hb')
  rw [hmap, List.reverse_append, List.reverse_reverse, List.reverse_replicate,
    Nat.ofDigits_append_replicate_zero, Nat.ofDigits_digits]

theorem printNum_injective {b w n n' : ℕ} (hb : 1 < b) (hb' : b ≤ 16)
    (h : printNum b w n = printNum b w n') : n = n' := by
  rw [← ofDigits_printNum (w := w) (n := n) hb hb', h, ofDigits_printNum hb hb']

/-- A printed number consists of digit characters. -/
theorem forall_mem_printNum {b w n : ℕ} {p : UInt8 → Prop} (hb : 1 < b) (hb' : b ≤ 16)
    (h : ∀ d < 16, p (digitChar d)) : ∀ c ∈ printNum b w n, p c := by
  intro c hc
  obtain ⟨d, hd, rfl⟩ := List.mem_map.mp hc
  exact h d ((lt_base_of_mem hb hd).trans_le hb')

theorem ge_of_mem_printNum {b w n : ℕ} (hb : 1 < b) (hb' : b ≤ 16) {c : UInt8}
    (h : c ∈ printNum b w n) : 48 ≤ c.toNat :=
  forall_mem_printNum (p := fun c => 48 ≤ c.toNat) hb hb' (by decide) c h

theorem notMem_printNum {b : ℕ} (hb : 1 < b) (hb' : b ≤ 16) {c : UInt8} (hc : c.toNat < 48)
    (w n : ℕ) : c ∉ printNum b w n :=
  fun h => absurd (ge_of_mem_printNum hb hb' h) (Nat.not_le.mpr hc)

theorem nul_notMem_printNum {b w n : ℕ} (hb : 1 < b) (hb' : b ≤ 16) :
    (0 : UInt8) ∉ printNum b w n :=
  notMem_printNum hb hb' (by decide) w n

/-- A number below `b ^ w` has `w` digits. -/
theorem length_printNum {b w n : ℕ} (hb : 1 < b) (hn : n < b ^ w) :
    (printNum b w n).length = w := by
  have hle := (Nat.digits_length_le_iff hb n).mpr hn
  rw [printNum, List.length_map, List.length_append, List.length_replicate, List.length_reverse]
  omega

theorem length_printNum_le {b w n : ℕ} (hb : 1 < b) (hw : 0 < w) (hn : n < b ^ w) :
    (printNum b 1 n).length ≤ w := by
  have hle := (Nat.digits_length_le_iff hb n).mpr hn
  rw [printNum, List.length_map, List.length_append, List.length_replicate, List.length_reverse]
  omega

/-- Numbers followed by a separator below the digits are told apart, and so is the rest. -/
theorem printNum_append_inj {b w n n' : ℕ} (hb : 1 < b) (hb' : b ≤ 16) {c : UInt8}
    (hc : c.toNat < 48) {as as' : List UInt8}
    (h : printNum b w n ++ c :: as = printNum b w n' ++ c :: as') : n = n' ∧ as = as' := by
  have hstop : ∀ (k : ℕ) (xs : List UInt8),
      (printNum b w k ++ c :: xs).takeWhile (fun x => decide (48 ≤ x.toNat)) = printNum b w k := by
    intro k xs
    rw [List.takeWhile_append_of_pos, List.takeWhile_cons_of_neg, List.append_nil]
    · simpa using hc
    · intro x hx
      exact decide_eq_true (ge_of_mem_printNum hb hb' hx)
  have hnum : printNum b w n = printNum b w n' := by
    rw [← hstop n as, h, hstop]
  refine ⟨printNum_injective hb hb' hnum, ?_⟩
  rw [hnum] at h
  exact List.tail_eq_of_cons_eq (List.append_cancel_left h)

/-- The same with a separator of several characters. -/
theorem printNum_sep_inj {b w n n' : ℕ} (hb : 1 < b) (hb' : b ≤ 16) {c : UInt8}
    (hc : c.toNat < 48) {sep as as' : List UInt8}
    (h : printNum b w n ++ (c :: sep ++ as) = printNum b w n' ++ (c :: sep ++ as')) :
    n = n' ∧ as = as' :=
  (printNum_append_inj hb hb' hc h).imp_right List.append_cancel_left

/-! ### Joined texts -/

/-- A joined text is empty only if nothing was joined. -/
theorem intercalate_eq_nil_iff (sep : UInt8) : ∀ {ss : List (List UInt8)},
    (∀ s ∈ ss, s ≠ []) → ([sep].intercalate ss = [] ↔ ss = [])
  | [], _ => by simp
  | [s], h => by simpa [List.intercalate_singleton] using h s (.head _)
  | s :: t :: ss, h => by simp [List.intercalate_cons_cons]

theorem mem_of_mem_intercalate {α : Type*} {c : α} {sep : List α} : ∀ {ss : List (List α)},
    c ∈ sep.intercalate ss → c ∈ sep ∨ ∃ s ∈ ss, c ∈ s
  | [], h => by simp at h
  | [s], h => .inr ⟨s, .head _, by simpa [List.intercalate_singleton] using h⟩
  | s :: t :: ss, h => by
      rw [List.intercalate_cons_cons, List.mem_append, List.mem_append] at h
      rcases h with (h | h) | h
      · exact .inr ⟨s, .head _, h⟩
      · exact .inl h
      · exact (mem_of_mem_intercalate h).imp_right fun ⟨u, hu, hc⟩ => ⟨u, .tail _ hu, hc⟩

/-- The pieces can be found again between the separators. -/
theorem intercalate_inj {sep : UInt8} {ss ss' : List (List UInt8)}
    (h : ∀ s ∈ ss, s ≠ [] ∧ sep ∉ s) (h' : ∀ s ∈ ss', s ≠ [] ∧ sep ∉ s)
    (heq : [sep].intercalate ss = [sep].intercalate ss') : ss = ss' := by
  have hnil := intercalate_eq_nil_iff sep fun s hs => (h s hs).1
  have hnil' := intercalate_eq_nil_iff sep fun s hs => (h' s hs).1
  by_cases hss : ss = []
  · rw [hnil.mpr hss, eq_comm, hnil'] at heq
    rw [hss, heq]
  · have hss' : ss' ≠ [] := fun hss' => hss (hnil.mp (heq.trans (hnil'.mpr hss')))
    rw [← List.splitOn_intercalate sep (fun s hs => (h s hs).2) hss, heq,
      List.splitOn_intercalate sep (fun s hs => (h' s hs).2) hss']

/-! ### Lines -/

/-- The lines of a text, without the newlines that end them. -/
def lines : List UInt8 → List (List UInt8)
  | [] => []
  | c :: cs =>
      if c = 10 then [] :: lines cs
      else match lines cs with
        | [] => [[c]]
        | l :: ls => (c :: l) :: ls

theorem lines_append_newline : ∀ {l : List UInt8} (cs : List UInt8), (10 : UInt8) ∉ l →
    lines (l ++ 10 :: cs) = l :: lines cs
  | [], cs, _ => by rw [List.nil_append, lines, if_pos rfl]
  | c :: l, cs, h => by
      obtain ⟨hc, hl⟩ := not_or.mp (List.mem_cons.not.mp h)
      rw [List.cons_append, lines, if_neg (Ne.symm hc), lines_append_newline cs hl]

/-- Lines that are written one after the other can be found again. -/
theorem lines_flatMap : ∀ {ls : List (List UInt8)}, (∀ l ∈ ls, (10 : UInt8) ∉ l) →
    lines (ls.flatMap (· ++ [10])) = ls
  | [], _ => rfl
  | l :: ls, h => by
      rw [List.flatMap_cons, List.append_assoc, List.singleton_append,
        lines_append_newline _ (h l (.head _)), lines_flatMap fun l hl => h l (.tail _ hl)]

/-! ### Buffers -/

theorem cstr_append_of_not_mem {as bs : List UInt8} (h : (0 : UInt8) ∉ as) :
    cstr (as ++ bs) = as ++ cstr bs := by
  refine List.takeWhile_append_of_pos fun c hc => ?_
  have : c ≠ 0 := fun h0 => h (h0 ▸ hc)
  simpa using this

theorem cstr_of_not_mem {bs : List UInt8} (h : (0 : UInt8) ∉ bs) : cstr bs = bs :=
  calc cstr bs = cstr (bs ++ []) := by rw [List.append_nil]
    _ = bs ++ cstr [] := cstr_append_of_not_mem h
    _ = bs := List.append_nil bs

theorem nul_notMem_cstr (bs : List UInt8) : (0 : UInt8) ∉ cstr bs := by
  intro h
  simpa using List.mem_takeWhile_imp h

/-- A string is shorter than its buffer when there is a NUL in the buffer, and only then. -/
theorem strlen_lt_iff : ∀ bs : List UInt8, strlen bs < bs.length ↔ (0 : UInt8) ∈ bs
  | [] => by simp [strlen, cstr]
  | b :: bs => by
      obtain rfl | hb := eq_or_ne b 0
      · simp [strlen, cstr]
      · have ih := strlen_lt_iff bs
        simp only [strlen, cstr] at ih ⊢
        rw [List.takeWhile_cons_of_pos (by simpa using hb), List.length_cons, List.length_cons,
          Nat.add_lt_add_iff_right, ih, List.mem_cons]
        simp [hb.symm]

/-- A string shorter than its buffer has its NUL there. -/
theorem cstr_nul_isPrefix : ∀ bs : List UInt8, (cstr bs).length < bs.length →
    cstr bs ++ [0] <+: bs
  | [], h => absurd h (Nat.lt_irrefl 0)
  | b :: bs, h => by
      obtain rfl | hb := eq_or_ne b 0
      · exact List.prefix_append [0] bs
      · have hcons : cstr (b :: bs) = b :: cstr bs := List.takeWhile_cons_of_pos (by simpa using hb)
        rw [hcons, List.length_cons, List.length_cons, Nat.add_lt_add_iff_right] at h
        rw [hcons, List.cons_append]
        exact List.cons_prefix_cons.mpr ⟨rfl, cstr_nul_isPrefix bs h⟩

/-- A stored string is found again by its NUL, however many bytes are looked at. -/
theorem cstr_bytesAt {m : Mem} {o k : ℕ} {s : List UInt8} (hs : Holds m o (s ++ [0]))
    (h : (0 : UInt8) ∉ s) (hk : s.length ≤ k) : cstr (bytesAt m o k) = s := by
  obtain ⟨hs, h0⟩ := holds_append.mp hs
  obtain ⟨d, rfl⟩ := Nat.exists_eq_add_of_le hk
  rw [bytesAt_add, hs, cstr_append_of_not_mem h]
  cases d with
  | zero => exact List.append_nil s
  | succ d =>
      rw [bytesAt_succ, (holds_cons.mp h0).1]
      exact List.append_nil s

/-- A text that fits is written whole. -/
theorem snprintf_of_lt (dst : List UInt8) {len : ℕ} {text : List UInt8} (h : text.length < len) :
    snprintf dst len text = text ++ 0 :: dst.drop (text.length + 1) := by
  rw [snprintf, if_neg (by omega), List.take_of_length_le (by omega)]

theorem cstr_snprintf {len : ℕ} {text : List UInt8} (h : text.length < len)
    (hnul : (0 : UInt8) ∉ text) : cstr (snprintf [] len text) = text := by
  rw [snprintf_of_lt [] h, cstr_append_of_not_mem hnul, List.drop_nil]
  exact List.append_nil text

/-- A text that was cut fills the buffer. -/
theorem cstr_snprintf_of_strlen {len : ℕ} {text : List UInt8} (hnul : (0 : UInt8) ∉ text)
    (h : strlen (snprintf [] len text) + 1 < len) : cstr (snprintf [] len text) = text := by
  obtain hlt | hge := Nat.lt_or_ge text.length len
  · exact cstr_snprintf hlt hnul
  · have hcut : cstr (snprintf [] len text) = text.take (len - 1) := by
      have hno : (0 : UInt8) ∉ text.take (len - 1) := fun h0 => hnul (List.mem_of_mem_take h0)
      rw [snprintf, if_neg (by omega), cstr_append_of_not_mem hno, List.drop_nil]
      exact List.append_nil _
    rw [strlen, hcut, List.length_take] at h
    omega

/-- Two texts written whole into an empty destination are told apart. -/
theorem snprintf_nil_inj {len : ℕ} {t t' : List UInt8} (h : t.length < len) (h' : t'.length < len)
    (heq : snprintf [] len t = snprintf [] len t') : t = t' := by
  rw [snprintf_of_lt _ h, snprintf_of_lt _ h', List.drop_nil, List.drop_nil] at heq
  exact List.append_cancel_right heq

/-! ### Appending -/

theorem cstr_strncat (dst src : List UInt8) (n : ℕ) :
    cstr (strncat dst src n) = cstr dst ++ (cstr src).take n := by
  have h : (0 : UInt8) ∉ cstr dst ++ (cstr src).take n := by
    rw [List.mem_append, not_or]
    exact ⟨nul_notMem_cstr dst, fun hmem => nul_notMem_cstr src (List.mem_of_mem_take hmem)⟩
  rw [strncat, cstr_append_of_not_mem h]
  simp [cstr]

theorem length_strncat (dst src : List UInt8) (n : ℕ) :
    (strncat dst src n).length = max dst.length (strlen (strncat dst src n) + 1) := by
  rw [strlen, cstr_strncat, strncat, strlen]
  simp only [List.length_append, List.length_cons, List.length_drop]
  omega

@[simp] theorem strncats_nil (dst : List UInt8) : strncats dst [] = dst := rfl

theorem strncats_cons (dst : List UInt8) (p : List UInt8 × ℕ) (ps : List (List UInt8 × ℕ)) :
    strncats dst (p :: ps) = strncats (strncat dst p.1 p.2) ps := rfl

theorem strncats_append (dst : List UInt8) (ps qs : List (List UInt8 × ℕ)) :
    strncats dst (ps ++ qs) = strncats (strncats dst ps) qs := List.foldl_append

/-- The string is what was there, followed by what each append adds. -/
theorem cstr_strncats : ∀ (ps : List (List UInt8 × ℕ)) (dst : List UInt8),
    cstr (strncats dst ps) = cstr dst ++ ps.flatMap fun p => (cstr p.1).take p.2
  | [], dst => by simp
  | p :: ps, dst => by
      rw [strncats_cons, cstr_strncats ps, cstr_strncat, List.flatMap_cons, List.append_assoc]

/-- The list grows with the string. -/
theorem length_strncats : ∀ (ps : List (List UInt8 × ℕ)) (dst : List UInt8),
    strlen dst < dst.length →
    (strncats dst ps).length = max dst.length (strlen (strncats dst ps) + 1)
  | [], dst, h => by
      rw [strncats_nil]
      omega
  | p :: ps, dst, h => by
      have hlen := length_strncat dst p.1 p.2
      have ih := length_strncats ps (strncat dst p.1 p.2) (by omega)
      have hge : strlen (strncat dst p.1 p.2) ≤ strlen (strncats (strncat dst p.1 p.2) ps) := by
        rw [strlen, strlen, cstr_strncats, List.length_append]
        exact Nat.le_add_right _ _
      rw [strncats_cons]
      omega

/-- **Appends**: nothing is written behind the buffer just when all that is appended fits,
with the NUL. -/
theorem strncats_fits_iff {dst : List UInt8} (ps : List (List UInt8 × ℕ))
    (h : strlen dst < dst.length) :
    (strncats dst ps).length = dst.length ↔
      strlen dst + (ps.flatMap fun p => (cstr p.1).take p.2).length < dst.length := by
  have hlen := length_strncats ps dst h
  have hcstr : strlen (strncats dst ps) =
      strlen dst + (ps.flatMap fun p => (cstr p.1).take p.2).length := by
    rw [strlen, cstr_strncats, List.length_append, strlen]
  omega

/-- What fits a size is not cut to it. -/
theorem flatMap_take_lt_iff (n : ℕ) : ∀ (ss : List (List UInt8)) (a : ℕ),
    a + (ss.flatMap (·.take n)).length < n ↔ a + ss.flatten.length < n
  | [], a => by simp
  | s :: ss, a => by
      have ih := flatMap_take_lt_iff n ss (a + (s.take n).length)
      simp only [List.flatMap_cons, List.flatten_cons, List.length_append, ← Nat.add_assoc,
        List.length_take] at ih ⊢
      rw [ih]
      omega

theorem strlen_replicate {n : ℕ} (hn : 0 < n) : strlen (List.replicate n 0) = 0 := by
  obtain ⟨k, rfl⟩ := Nat.exists_eq_succ_of_ne_zero hn.ne'
  simp [strlen, cstr, List.replicate_succ]

/-- Appends to an empty buffer that are bounded by its size, not by the space that is left,
stay inside just when all strings fit together. -/
theorem strncats_replicate_fits_iff {n : ℕ} (hn : 0 < n) {ss : List (List UInt8)}
    (hss : ∀ s ∈ ss, (0 : UInt8) ∉ s) :
    (strncats (List.replicate n 0) (ss.map (·, n))).length = n ↔ ss.flatten.length < n := by
  have hempty := strlen_replicate hn
  have hpieces :
      ((ss.map (·, n)).flatMap fun p => (cstr p.1).take p.2) = ss.flatMap (·.take n) := by
    rw [List.flatMap_map]
    exact List.flatMap_congr fun s hs => by rw [cstr_of_not_mem (hss s hs)]
  have hfits := strncats_fits_iff (ss.map (·, n))
    (show strlen (List.replicate n 0) < (List.replicate n (0 : UInt8)).length by
      rwa [hempty, List.length_replicate])
  rw [hpieces, hempty, List.length_replicate, flatMap_take_lt_iff, Nat.zero_add] at hfits
  exact hfits

/-- Then they stand there one after the other. -/
theorem cstr_strncats_replicate {n : ℕ} {ss : List (List UInt8)}
    (hss : ∀ s ∈ ss, (0 : UInt8) ∉ s) (hfits : ss.flatten.length < n) :
    cstr (strncats (List.replicate n 0) (ss.map (·, n))) = ss.flatten := by
  have hempty : cstr (List.replicate n 0) = [] :=
    List.length_eq_zero_iff.mp (strlen_replicate (Nat.zero_lt_of_lt hfits))
  rw [cstr_strncats, hempty, List.nil_append, List.flatMap_map, List.flatten_eq_flatMap]
  refine List.flatMap_congr fun s hs => ?_
  have hle : s.length ≤ ss.flatten.length := (List.sublist_flatten_of_mem hs).length_le
  rw [cstr_of_not_mem (hss s hs), List.take_of_length_le (by omega), id]

end Text
