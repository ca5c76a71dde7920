import Mathlib.Tactic
import Mathlib.Data.Nat.Digits.Defs
import Mathlib.Data.List.GetD

/-! # Byte memories

A memory is a byte for every address, `Mem := ℕ → UInt8`; reading outside an object is
reading whatever is there.  `bytesAt m o k` are the `k` bytes from `o` on, `leNat` is the
value of a byte string read little-endian and `leBytes` its inverse, `Holds m o bs` says that
`bs` is stored at `o`, and `Agree m m' o k` that two memories cannot be told apart on
`[o, o + k)`. -/

namespace Memory

/-- A byte for every address. -/
abbrev Mem := ℕ → UInt8

/-- The `k` bytes from address `o` on. -/
def bytesAt (m : Mem) : ℕ → ℕ → List UInt8
  | _, 0 => []
  | o, k + 1 => m o :: bytesAt m (o + 1) k

/-- The value of a byte string, least significant byte first. -/
def leNat : List UInt8 → ℕ
  | [] => 0
  | b :: bs => b.toNat + 256 * leNat bs

/-- The `k` bytes of a value, least significant byte first. -/
def leBytes : ℕ → ℕ → List UInt8
  | 0, _ => []
  | k + 1, n => UInt8.ofNat n :: leBytes k (n / 256)

/-- The byte string `bs` is stored from address `o` on. -/
def Holds (m : Mem) (o : ℕ) (bs : List UInt8) : Prop := bytesAt m o bs.length = bs

/-- The two memories agree on the `k` addresses from `o` on. -/
def Agree (m m' : Mem) (o k : ℕ) : Prop := ∀ i, i < k → m (o + i) = m' (o + i)

/-- The memory after `bs` is written from address `o` on. -/
def write (m : Mem) (o : ℕ) (bs : List UInt8) : Mem :=
  fun a => if o ≤ a then bs.getD (a - o) (m a) else m a

instance (m : Mem) (o : ℕ) (bs : List UInt8) : Decidable (Holds m o bs) :=
  inferInstanceAs (Decidable (_ = _))

/-! ### Little-endian values -/

theorem leNat_eq_ofDigits : ∀ bs : List UInt8, leNat bs = Nat.ofDigits 256 (bs.map UInt8.toNat)
  | [] => rfl
  | b :: bs => by
      rw [leNat, leNat_eq_ofDigits bs, List.map_cons, Nat.ofDigits_cons]

theorem leNat_lt (bs : List UInt8) : leNat bs < 256 ^ bs.length := by
  rw [leNat_eq_ofDigits, ← List.length_map (f := UInt8.toNat)]
  refine Nat.ofDigits_lt_base_pow_length (by norm_num) fun x hx => ?_
  obtain ⟨b, _, rfl⟩ := List.mem_map.mp hx
  exact b.toNat_lt

theorem leNat_inj {bs bs' : List UInt8} (hlen : bs.length = bs'.length)
    (h : leNat bs = leNat bs') : bs = bs' := by
  rw [leNat_eq_ofDigits, leNat_eq_ofDigits] at h
  have hlt : ∀ cs : List UInt8, ∀ x ∈ cs.map UInt8.toNat, x < 256 := by
    intro cs x hx
    obtain ⟨b, _, rfl⟩ := List.mem_map.mp hx
    exact b.toNat_lt
  have := Nat.ofDigits_inj_of_len_eq (by norm_num) (by simpa using hlen) (hlt bs) (hlt bs') h
  exact List.map_injective_iff.mpr (fun _ _ => UInt8.toNat_inj.mp) this

theorem length_leBytes : ∀ k n : ℕ, (leBytes k n).length = k
  | 0, _ => rfl
  | k + 1, n => by rw [leBytes, List.length_cons, length_leBytes k]

theorem leNat_leBytes : ∀ {k n : ℕ}, n < 256 ^ k → leNat (leBytes k n) = n
  | 0, n, h => (Nat.lt_one_iff.mp h).symm
  | k + 1, n, h => by
      have hdiv : n / 256 < 256 ^ k := Nat.div_lt_of_lt_mul (by rwa [← Nat.pow_succ'])
      rw [leBytes, leNat, leNat_leBytes hdiv, UInt8.toNat_ofNat', Nat.mod_add_div]

/-! ### Stored byte strings -/

@[simp] theorem bytesAt_zero (m : Mem) (o : ℕ) : bytesAt m o 0 = [] := rfl

theorem bytesAt_succ (m : Mem) (o k : ℕ) : bytesAt m o (k + 1) = m o :: bytesAt m (o + 1) k := rfl

@[simp] theorem length_bytesAt (m : Mem) : ∀ (k o : ℕ), (bytesAt m o k).length = k
  | 0, _ => rfl
  | k + 1, o => by rw [bytesAt_succ, List.length_cons, length_bytesAt m k]

theorem bytesAt_add (m : Mem) : ∀ (j o k : ℕ),
    bytesAt m o (j + k) = bytesAt m o j ++ bytesAt m (o + j) k
  | 0, o, k => by simp
  | j + 1, o, k => by
      rw [show j + 1 + k = j + k + 1 by omega, bytesAt_succ, bytesAt_add m j, bytesAt_succ,
        List.cons_append, show o + 1 + j = o + (j + 1) by omega]

theorem getElem_bytesAt (m : Mem) : ∀ (k o i : ℕ) (h : i < (bytesAt m o k).length),
    (bytesAt m o k)[i] = m (o + i)
  | 0, _, _, h => absurd h (Nat.not_lt_zero _)
  | k + 1, o, 0, _ => rfl
  | k + 1, o, i + 1, h => by
      simp only [bytesAt_succ, List.getElem_cons_succ]
      rw [getElem_bytesAt m k, show o + 1 + i = o + (i + 1) by omega]

theorem take_bytesAt (m : Mem) (o : ℕ) {j k : ℕ} (h : j ≤ k) :
    (bytesAt m o k).take j = bytesAt m o j := by
  obtain ⟨d, rfl⟩ := Nat.exists_eq_add_of_le h
  rw [bytesAt_add, List.take_left' (length_bytesAt m j o)]

theorem drop_bytesAt (m : Mem) (o : ℕ) {j k : ℕ} (h : j ≤ k) :
    (bytesAt m o k).drop j = bytesAt m (o + j) (k - j) := by
  obtain ⟨d, rfl⟩ := Nat.exists_eq_add_of_le h
  rw [bytesAt_add, List.drop_left' (length_bytesAt m j o), Nat.add_sub_cancel_left]

theorem holds_bytesAt (m : Mem) (o k : ℕ) : Holds m o (bytesAt m o k) := by
  rw [Holds, length_bytesAt]

@[simp] theorem holds_nil (m : Mem) (o : ℕ) : Holds m o [] := rfl

theorem holds_cons {m : Mem} {o : ℕ} {b : UInt8} {bs : List UInt8} :
    Holds m o (b :: bs) ↔ m o = b ∧ Holds m (o + 1) bs := by
  simp [Holds, bytesAt_succ]

theorem holds_append {m : Mem} {o : ℕ} {as bs : List UInt8} :
    Holds m o (as ++ bs) ↔ Holds m o as ∧ Holds m (o + as.length) bs := by
  unfold Holds
  rw [List.length_append, bytesAt_add]
  constructor
  · intro h
    exact List.append_inj h (length_bytesAt _ _ _)
  · rintro ⟨ha, hb⟩
    rw [ha, hb]

theorem Holds.bytesAt_eq {m : Mem} {o k : ℕ} {bs : List UInt8} (h : Holds m o bs)
    (hk : k ≤ bs.length) : bytesAt m o k = bs.take k := by
  rw [← take_bytesAt m o hk, h]

theorem Holds.getElem {m : Mem} {o i : ℕ} {bs : List UInt8} (h : Holds m o bs)
    (hi : i < bs.length) : m (o + i) = bs[i] := by
  rw [← getElem_bytesAt m bs.length o i (by simpa using hi)]
  simp only [show bytesAt m o bs.length = bs from h]

theorem Holds.drop {m : Mem} {o : ℕ} {bs : List UInt8} (h : Holds m o bs) {k : ℕ}
    (hk : k ≤ bs.length) : Holds m (o + k) (bs.drop k) := by
  rw [← List.take_append_drop k bs, holds_append, List.length_take, Nat.min_eq_left hk] at h
  exact h.2

theorem holds_write (m : Mem) (o : ℕ) (bs : List UInt8) : Holds (write m o bs) o bs := by
  apply List.ext_getElem (length_bytesAt _ _ _)
  intro i h₁ h₂
  rw [getElem_bytesAt, write, if_pos (Nat.le_add_right o i), Nat.add_sub_cancel_left,
    List.getD_eq_getElem _ _ h₂]

theorem write_of_lt (m : Mem) {o a : ℕ} (bs : List UInt8) (h : a < o) : write m o bs a = m a :=
  if_neg (Nat.not_le.mpr h)

theorem write_of_ge (m : Mem) {o a : ℕ} {bs : List UInt8} (h : o + bs.length ≤ a) :
    write m o bs a = m a := by
  unfold write
  split_ifs with ho
  · exact List.getD_eq_default _ _ (by omega)
  · rfl

/-- What is written over is gone. -/
theorem write_write {m : Mem} {o : ℕ} {as bs : List UInt8} (h : as.length = bs.length) :
    write (write m o as) o bs = write m o bs := by
  funext a
  obtain ha | ha := Nat.lt_or_ge a o
  · rw [write_of_lt _ _ ha, write_of_lt _ _ ha, write_of_lt _ _ ha]
  obtain hb | hb := Nat.lt_or_ge a (o + bs.length)
  · have hlt : a - o < bs.length := by omega
    simp only [write, if_pos ha, List.getD_eq_getElem _ _ hlt]
  · rw [write_of_ge _ hb, write_of_ge _ hb, write_of_ge _ (h ▸ hb)]

/-- Writing what is there changes nothing. -/
theorem Holds.write_eq {m : Mem} {o : ℕ} {bs : List UInt8} (h : Holds m o bs) :
    write m o bs = m := by
  funext a
  obtain ha | ha := Nat.lt_or_ge a o
  · rw [write_of_lt _ _ ha]
  obtain hb | hb := Nat.lt_or_ge a (o + bs.length)
  · have hlt : a - o < bs.length := by omega
    rw [write, if_pos ha, List.getD_eq_getElem _ _ hlt, ← h.getElem hlt, Nat.add_sub_cancel' ha]
  · rw [write_of_ge _ hb]

/-- What is seen of the `k` bytes at offset `h` of a stored string. -/
theorem Holds.take_drop_isPrefix {m : Mem} {o : ℕ} {as : List UInt8} (hm : Holds m o as)
    (h k : ℕ) : (as.drop h).take k <+: bytesAt m (o + h) k := by
  obtain hlt | hle := Nat.lt_or_ge as.length h
  · rw [List.drop_eq_nil_of_le hlt.le, List.take_nil]
    exact List.nil_prefix
  · obtain hk | hk := Nat.lt_or_ge k (as.drop h).length
    · rw [(hm.drop hle).bytesAt_eq hk.le]
    · have hpre := List.take_prefix (as.drop h).length (bytesAt m (o + h) k)
      rwa [take_bytesAt m (o + h) hk, hm.drop hle, ← List.take_of_length_le hk] at hpre

/-- Bytes written first are read back where the later ones agree with them. -/
theorem holds_write_write {m : Mem} {h : ℕ} {as bs : List UInt8}
    (hp : (as.drop h).take bs.length <+: bs) : Holds (write (write m h bs) 0 as) h bs := by
  apply List.ext_getElem (length_bytesAt _ _ _)
  intro i h₁ h₂
  rw [getElem_bytesAt, write, if_pos (Nat.zero_le _), Nat.sub_zero]
  obtain hlt | hge := Nat.lt_or_ge (h + i) as.length
  · have hi : i < ((as.drop h).take bs.length).length := by
      rw [List.length_take, List.length_drop]
      omega
    rw [List.getD_eq_getElem _ _ hlt, ← hp.getElem hi, List.getElem_take, List.getElem_drop]
  · rw [List.getD_eq_default _ _ hge, write, if_pos (Nat.le_add_right _ _),
      Nat.add_sub_cancel_left, List.getD_eq_getElem _ _ h₂]

/-! ### Agreement -/

theorem agree_iff {m m' : Mem} {o k : ℕ} : Agree m m' o k ↔ bytesAt m o k = bytesAt m' o k := by
  constructor
  · intro h
    apply List.ext_getElem (by simp)
    intro i h₁ h₂
    rw [getElem_bytesAt, getElem_bytesAt]
    exact h i (by simpa using h₁)
  · intro h i hi
    have h₁ := getElem_bytesAt m k o i (by simpa using hi)
    have h₂ := getElem_bytesAt m' k o i (by simpa using hi)
    rw [← h₁, ← h₂]
    simp only [h]

/-! ### Places -/

/-- The memory from address `d` on. -/
def shift (d : ℕ) (m : Mem) : Mem := fun a => m (d + a)

theorem bytesAt_shift (d : ℕ) (m : Mem) : ∀ k o : ℕ, bytesAt (shift d m) o k = bytesAt m (d + o) k
  | 0, _ => rfl
  | k + 1, o => by
      rw [bytesAt_succ, bytesAt_succ, bytesAt_shift d m k, shift, Nat.add_assoc]

theorem Holds.shift {m : Mem} {o : ℕ} {bs : List UInt8} (h : Holds m o bs) :
    Holds (shift o m) 0 bs := by
  rw [Holds, bytesAt_shift]
  exact h

end Memory
