import Hspp.Lib.Memory
import Hspp.Lib.Text

/-! # Computations on a memory, with the addresses they read

An `Access α` computes a value from a memory and keeps a record of the addresses it reads on
the way.  The record is part of the type's invariant: memories that agree on it give the same
value (`enough`), so a computation cannot look at a byte that is not in it.

Accesses are built from the reads `bytes`, `num` (a little-endian number) and `str` (a `%s`
argument, read up to and including its NUL) with `pure` and `bind`; each has a lemma for its
value and one for its reads.  `Confined x m o k` says that `x` reads only the `k` bytes from
`o` on. -/

namespace Memory

open Text

/-- A computation on a memory. -/
structure Access (α : Type) where
  val : Mem → α
  reads : Mem → ℕ → Prop
  enough : ∀ m m', (∀ a, reads m a → m a = m' a) → val m = val m' ∧ reads m = reads m'

namespace Access

variable {α β : Type}

instance : Monad Access where
  pure x := ⟨fun _ => x, fun _ _ => False, fun _ _ _ => ⟨rfl, rfl⟩⟩
  bind x f :=
    { val := fun m => (f (x.val m)).val m
      reads := fun m a => x.reads m a ∨ (f (x.val m)).reads m a
      enough := fun m m' h => by
        obtain ⟨hval, hreads⟩ := x.enough m m' fun a ha => h a (.inl ha)
        obtain ⟨hval', hreads'⟩ := (f (x.val m)).enough m m' fun a ha => h a (.inr ha)
        rw [hval] at hval' hreads'
        refine ⟨by rw [hval, hval'], funext fun a => ?_⟩
        rw [hreads, hval, hreads'] }

/-- The `k` bytes from `o` on. -/
def bytes (o k : ℕ) : Access (List UInt8) where
  val m := bytesAt m o k
  reads _ a := o ≤ a ∧ a < o + k
  enough m m' h := ⟨agree_iff.mp fun i hi => h (o + i) (by omega), rfl⟩

/-- The number in the `k` bytes from `o` on. -/
def num (o k : ℕ) : Access ℕ := do
  let bs ← bytes o k
  return leNat bs

/-- Numbers of these widths, one behind the other from `o` on. -/
def nums : ℕ → List ℕ → Access (List ℕ)
  | _, [] => pure []
  | o, w :: ws => do
      let x ← num o w
      let xs ← nums (o + w) ws
      return x :: xs

/-- The addresses of the string at `o`, up to its NUL. -/
def StrAt (m : Mem) (o a : ℕ) : Prop := o ≤ a ∧ ∀ b, o ≤ b → b < a → m b ≠ 0

theorem strAt_congr {m m' : Mem} {o : ℕ} (h : ∀ a, StrAt m o a → m a = m' a) (a : ℕ) :
    StrAt m o a ↔ StrAt m' o a := by
  refine and_congr_right fun _ => ⟨fun hne b hb hba => ?_, fun hne b => ?_⟩
  · rw [← h b ⟨hb, fun c hc hcb => hne c hc (hcb.trans hba)⟩]
    exact hne b hb hba
  · induction b using Nat.strong_induction_on with
    | _ b ih =>
        intro hb hba
        rw [h b ⟨hb, fun c hc hcb => ih c hcb hc (hcb.trans hba)⟩]
        exact hne b hb hba

theorem cstr_congr {m m' : Mem} : ∀ {k o : ℕ}, (∀ a, StrAt m o a → m a = m' a) →
    cstr (bytesAt m o k) = cstr (bytesAt m' o k)
  | 0, _, _ => rfl
  | k + 1, o, h => by
      have heq := h o ⟨le_rfl, fun b hb hb' => absurd hb' (by omega)⟩
      rw [bytesAt_succ, bytesAt_succ, ← heq]
      by_cases h0 : m o = 0
      · simp [cstr, h0]
      · have ih := cstr_congr (k := k) (o := o + 1) fun a ha => h a ⟨by have := ha.1; omega, ?_⟩
        · simp only [cstr] at ih ⊢
          rw [List.takeWhile_cons_of_pos (by simpa using h0),
            List.takeWhile_cons_of_pos (by simpa using h0), ih]
        · intro b hb hba
          obtain rfl | hne := eq_or_ne b o
          · exact h0
          · exact ha.2 b (by omega) hba

/-- The string at `o`, cut to `k` characters.  It is read to its end all the same. -/
def str (o k : ℕ) : Access (List UInt8) where
  val m := cstr (bytesAt m o k)
  reads m a := StrAt m o a
  enough _ _ h := ⟨cstr_congr h, funext fun a => propext (strAt_congr h a)⟩

/-! ### Values and reads -/

variable (m : Mem)

@[simp] theorem val_pure (x : α) : (pure x : Access α).val m = x := rfl

@[simp] theorem reads_pure (x : α) (a : ℕ) : (pure x : Access α).reads m a ↔ False := Iff.rfl

@[simp] theorem val_bind (x : Access α) (f : α → Access β) :
    (x >>= f).val m = (f (x.val m)).val m := rfl

@[simp] theorem reads_bind (x : Access α) (f : α → Access β) (a : ℕ) :
    (x >>= f).reads m a ↔ x.reads m a ∨ (f (x.val m)).reads m a := Iff.rfl

@[simp] theorem val_bytes (o k : ℕ) : (bytes o k).val m = bytesAt m o k := rfl

@[simp] theorem reads_bytes (o k a : ℕ) : (bytes o k).reads m a ↔ o ≤ a ∧ a < o + k := Iff.rfl

@[simp] theorem val_num (o k : ℕ) : (num o k).val m = leNat (bytesAt m o k) := rfl

@[simp] theorem reads_num (o k a : ℕ) : (num o k).reads m a ↔ o ≤ a ∧ a < o + k := by
  simp [num]

@[simp] theorem val_str (o k : ℕ) : (str o k).val m = cstr (bytesAt m o k) := rfl

theorem length_val_nums : ∀ (ws : List ℕ) (o : ℕ), ((nums o ws).val m).length = ws.length
  | [], _ => rfl
  | w :: ws, o => by
      simp only [nums, val_bind, val_num, val_pure, List.length_cons]
      rw [length_val_nums ws]

@[simp] theorem reads_str (o k a : ℕ) : (str o k).reads m a ↔ StrAt m o a := Iff.rfl

/-! ### Confinement -/

/-- The computation reads only the `k` bytes from `o` on. -/
def Confined (x : Access α) (m : Mem) (o k : ℕ) : Prop := ∀ a, x.reads m a → o ≤ a ∧ a < o + k

variable {m} {o k : ℕ}

theorem confined_bind {x : Access α} {f : α → Access β} :
    (x >>= f).Confined m o k ↔ x.Confined m o k ∧ (f (x.val m)).Confined m o k := by
  constructor
  · exact fun h => ⟨fun a ha => h a (.inl ha), fun a ha => h a (.inr ha)⟩
  · rintro ⟨hx, hf⟩ a (ha | ha)
    · exact hx a ha
    · exact hf a ha

theorem confined_pure (x : α) : (pure x : Access α).Confined m o k := fun _ h => h.elim

/-- A range of bytes is read inside when it lies inside, or is empty. -/
theorem confined_bytes {p j : ℕ} :
    (bytes p j).Confined m o k ↔ j = 0 ∨ o ≤ p ∧ p + j ≤ o + k := by
  constructor
  · intro h
    obtain rfl | hj := Nat.eq_zero_or_pos j
    · exact .inl rfl
    · have hfirst := h p ⟨le_rfl, by omega⟩
      have hlast := h (p + (j - 1)) ⟨by omega, by omega⟩
      omega
  · rintro (rfl | ⟨hl, hu⟩) a ⟨ha, ha'⟩ <;> omega

theorem confined_num {p j : ℕ} :
    (num p j).Confined m o k ↔ j = 0 ∨ o ≤ p ∧ p + j ≤ o + k := by
  rw [← confined_bytes (m := m)]
  simp only [Confined, reads_num, reads_bytes]

theorem confined_nums : ∀ {ws : List ℕ} {p : ℕ},
    (nums p ws).Confined m o k ↔ ws.sum = 0 ∨ o ≤ p ∧ p + ws.sum ≤ o + k
  | [], p => by simp [nums, confined_pure]
  | w :: ws, p => by
      rw [nums, confined_bind, confined_num, confined_bind, confined_nums, List.sum_cons]
      simp only [confined_pure, and_true]
      omega

/-- A string is read inside when its NUL lies inside. -/
theorem confined_str {p n : ℕ} (hp : o ≤ p) (hpk : p ≤ o + k) :
    (str p n).Confined m o k ↔ (0 : UInt8) ∈ bytesAt m p (o + k - p) := by
  have hmem : (0 : UInt8) ∈ bytesAt m p (o + k - p) ↔ ∃ b, p ≤ b ∧ b < o + k ∧ m b = 0 := by
    rw [List.mem_iff_getElem]
    constructor
    · rintro ⟨i, hi, h0⟩
      rw [getElem_bytesAt] at h0
      rw [length_bytesAt] at hi
      exact ⟨p + i, by omega, by omega, h0⟩
    · rintro ⟨b, hb, hb', h0⟩
      refine ⟨b - p, by rw [length_bytesAt]; omega, ?_⟩
      rw [getElem_bytesAt, Nat.add_sub_cancel' hb, h0]
  rw [hmem]
  constructor
  · intro h
    by_contra hno
    have := h (o + k) ⟨hpk, fun b hb hb' h0 => hno ⟨b, hb, hb', h0⟩⟩
    omega
  · rintro ⟨b, hb, hb', h0⟩ a ⟨ha, hne⟩
    refine ⟨by omega, ?_⟩
    by_contra hge
    exact hne b hb (by omega) h0

/-! ### Other memories -/

/-- What reads only a range has the same value in memories that agree there. -/
theorem Confined.val_eq {x : Access α} (h : x.Confined m o k) {m' : Mem} (hm : Agree m m' o k) :
    x.val m = x.val m' := by
  refine (x.enough m m' fun a ha => ?_).1
  obtain ⟨hge, hlt⟩ := h a ha
  have hagree := hm (a - o) (by omega)
  rwa [Nat.add_sub_cancel' hge] at hagree

/-- Numbers at another place. -/
theorem val_nums_shift (d : ℕ) (m : Mem) : ∀ (ws : List ℕ) (o : ℕ),
    (nums o ws).val (shift d m) = (nums (d + o) ws).val m
  | [], _ => rfl
  | w :: ws, o => by
      simp only [nums, val_bind, val_num, val_pure]
      rw [val_nums_shift d m ws, bytesAt_shift, Nat.add_assoc]

end Access

end Memory
