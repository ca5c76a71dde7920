import Hspp.Lib.CInt
import Hspp.Lib.Memory

/-! # Length-prefixed, padded records

A record is a byte string that starts with its own length, little-endian in `w` bytes, is
at least `hdr` bytes long, and is followed by padding up to a multiple of `a`.  A stream of
records is `encode rs`; its records start at `starts o rs` when the stream is stored at
`o`.  A walker that reads a length and skips to the next multiple of `a` visits exactly
these addresses: `holds_encode_cons` gives it the record it stands on and the stream that is
left, and `ofMem` reads a record back from a memory. -/

namespace Records

open CInt Memory

/-- A record with a length field of `w` bytes, of at least `hdr` bytes, padded to `a`. -/
structure Record (w hdr a : ℕ) where
  bytes : List UInt8
  pad : List UInt8
  hdr_le : hdr ≤ bytes.length
  len_eq : leNat (bytes.take w) = bytes.length
  pad_len : bytes.length + pad.length = roundUp a bytes.length

variable {w hdr a : ℕ}

/-- The record and its padding. -/
def Record.padded (r : Record w hdr a) : List UInt8 := r.bytes ++ r.pad

/-- The stream of the records `rs`. -/
def encode : List (Record w hdr a) → List UInt8
  | [] => []
  | r :: rs => r.padded ++ encode rs

/-- The addresses at which the records start when the stream is stored at `o`. -/
def starts : ℕ → List (Record w hdr a) → List ℕ
  | _, [] => []
  | o, r :: rs => o :: starts (o + roundUp a r.bytes.length) rs

@[simp] theorem Record.length_padded (r : Record w hdr a) :
    r.padded.length = roundUp a r.bytes.length := by
  rw [Record.padded, List.length_append, r.pad_len]

@[simp] theorem encode_nil : encode ([] : List (Record w hdr a)) = [] := rfl

@[simp] theorem encode_cons (r : Record w hdr a) (rs : List (Record w hdr a)) :
    encode (r :: rs) = r.padded ++ encode rs := rfl

theorem encode_append (rs rs' : List (Record w hdr a)) :
    encode (rs ++ rs') = encode rs ++ encode rs' := by
  induction rs with
  | nil => rfl
  | cons r rs ih => rw [List.cons_append, encode_cons, encode_cons, ih, List.append_assoc]

theorem length_encode_cons (r : Record w hdr a) (rs : List (Record w hdr a)) :
    (encode (r :: rs)).length = roundUp a r.bytes.length + (encode rs).length := by
  rw [encode_cons, List.length_append, r.length_padded]

@[simp] theorem starts_nil (o : ℕ) : starts o ([] : List (Record w hdr a)) = [] := rfl

@[simp] theorem starts_cons (o : ℕ) (r : Record w hdr a) (rs : List (Record w hdr a)) :
    starts o (r :: rs) = o :: starts (o + roundUp a r.bytes.length) rs := rfl

theorem starts_append : ∀ (rs rs' : List (Record w hdr a)) (o : ℕ),
    starts o (rs ++ rs') = starts o rs ++ starts (o + (encode rs).length) rs'
  | [], rs', o => rfl
  | r :: rs, rs', o => by
      rw [List.cons_append, starts_cons, starts_cons, starts_append rs rs', length_encode_cons,
        List.cons_append, Nat.add_assoc]

@[simp] theorem length_starts : ∀ (rs : List (Record w hdr a)) (o : ℕ),
    (starts o rs).length = rs.length
  | [], _ => rfl
  | r :: rs, o => by rw [starts_cons, List.length_cons, length_starts rs, List.length_cons]

/-- A record takes at least its header. -/
theorem Record.hdr_le_roundUp (ha : 0 < a) (r : Record w hdr a) :
    hdr ≤ roundUp a r.bytes.length :=
  r.hdr_le.trans (le_roundUp ha _)

theorem Record.length_lt (r : Record w hdr a) : r.bytes.length < 256 ^ w := by
  have h := leNat_lt (r.bytes.take w)
  rw [r.len_eq] at h
  exact h.trans_le (Nat.pow_le_pow_right (by norm_num) (List.length_take_le _ _))

/-! ### Records in memory -/

theorem holds_encode_cons {m : Mem} {o : ℕ} {r : Record w hdr a} {rs : List (Record w hdr a)} :
    Holds m o (encode (r :: rs)) ↔
      Holds m o r.padded ∧ Holds m (o + roundUp a r.bytes.length) (encode rs) := by
  rw [encode_cons, holds_append, r.length_padded]

theorem Record.holds_bytes {m : Mem} {o : ℕ} {r : Record w hdr a} (h : Holds m o r.padded) :
    Holds m o r.bytes :=
  (holds_append.mp h).1

/-- The length field of a stored record is the length of the record. -/
theorem Record.lenField {m : Mem} {o : ℕ} {r : Record w hdr a} (hw : w ≤ hdr)
    (h : Holds m o r.bytes) : leNat (bytesAt m o w) = r.bytes.length := by
  rw [h.bytesAt_eq (hw.trans r.hdr_le), r.len_eq]

/-- The record that a memory holds at `o`, by the length it finds there. -/
def ofMem (m : Mem) (o : ℕ) (ha : 0 < a) (hw : w ≤ hdr) (h : hdr ≤ leNat (bytesAt m o w)) :
    Record w hdr a where
  bytes := bytesAt m o (leNat (bytesAt m o w))
  pad := bytesAt m (o + leNat (bytesAt m o w))
    (roundUp a (leNat (bytesAt m o w)) - leNat (bytesAt m o w))
  hdr_le := by rwa [length_bytesAt]
  len_eq := by rw [take_bytesAt m o (hw.trans h), length_bytesAt]
  pad_len := by
    rw [length_bytesAt, length_bytesAt]
    have := le_roundUp ha (leNat (bytesAt m o w))
    omega

section ofMem

variable (m : Mem) (o : ℕ) (ha : 0 < a) (hw : w ≤ hdr) (h : hdr ≤ leNat (bytesAt m o w))

@[simp] theorem ofMem_bytes :
    (ofMem m o ha hw h).bytes = bytesAt m o (leNat (bytesAt m o w)) := rfl

theorem ofMem_length : (ofMem m o ha hw h).bytes.length = leNat (bytesAt m o w) := by
  rw [ofMem_bytes, length_bytesAt]

theorem ofMem_padded :
    (ofMem m o ha hw h).padded = bytesAt m o (roundUp a (leNat (bytesAt m o w))) := by
  have hle := le_roundUp ha (leNat (bytesAt m o w))
  rw [Record.padded, ofMem_bytes, ofMem, ← bytesAt_add, Nat.add_sub_cancel' hle]

end ofMem

/-- What a walker finds in the `n` bytes from `o` on: records, as long as they and their
padding fit, and then something that is none. -/
theorem exists_encode (m : Mem) (ha : 0 < a) (hw : w ≤ hdr) (hhdr : 0 < hdr) (n o : ℕ) :
    ∃ rs : List (Record w hdr a), Holds m o (encode rs) ∧ (encode rs).length ≤ n ∧
      ¬ (hdr ≤ leNat (bytesAt m (o + (encode rs).length) w) ∧
        roundUp a (leNat (bytesAt m (o + (encode rs).length) w)) ≤ n - (encode rs).length) := by
  induction n using Nat.strong_induction_on generalizing o with
  | _ n ih =>
      by_cases h : hdr ≤ leNat (bytesAt m o w) ∧ roundUp a (leNat (bytesAt m o w)) ≤ n
      · have hle := le_roundUp ha (leNat (bytesAt m o w))
        have hlen := ofMem_length m o ha hw h.1
        have hpad := ofMem_padded m o ha hw h.1
        obtain ⟨rs, hmem, hfit, hend⟩ := ih (n - roundUp a (leNat (bytesAt m o w))) (by omega)
          (o + roundUp a (leNat (bytesAt m o w)))
        refine ⟨ofMem m o ha hw h.1 :: rs, holds_encode_cons.mpr ⟨?_, ?_⟩, ?_, ?_⟩
        · rw [hpad]
          exact holds_bytesAt ..
        · rwa [hlen]
        · rw [length_encode_cons, hlen]
          omega
        · rwa [length_encode_cons, hlen, ← Nat.add_assoc, ← Nat.sub_sub]
      · exact ⟨[], holds_nil m o, Nat.zero_le n, h⟩

theorem dvd_length_encode : ∀ rs : List (Record w hdr a), a ∣ (encode rs).length
  | [] => Nat.dvd_zero a
  | r :: rs => by
      rw [length_encode_cons]
      exact Nat.dvd_add (dvd_roundUp a _) (dvd_length_encode rs)

/-- Every record takes at least its header. -/
theorem length_mul_le_length_encode (ha : 0 < a) : ∀ rs : List (Record w hdr a),
    rs.length * hdr ≤ (encode rs).length
  | [] => by rw [List.length_nil, Nat.zero_mul]; exact Nat.zero_le _
  | r :: rs => by
      have hle := r.hdr_le_roundUp ha
      have ih := length_mul_le_length_encode ha rs
      rw [length_encode_cons, List.length_cons, Nat.succ_mul]
      omega

/-- The records lie inside the stream. -/
theorem holds_of_mem_starts {m : Mem} : ∀ {rs : List (Record w hdr a)} {o o' : ℕ},
    Holds m o (encode rs) → o' ∈ starts o rs → ∃ r ∈ rs, Holds m o' r.bytes ∧ o ≤ o' ∧
      o' + roundUp a r.bytes.length ≤ o + (encode rs).length
  | r :: rs, o, o', hmem, ho => by
      rw [holds_encode_cons] at hmem
      rw [length_encode_cons]
      rcases List.mem_cons.mp ho with rfl | ho
      · exact ⟨r, .head _, Record.holds_bytes hmem.1, le_rfl, by omega⟩
      · obtain ⟨r', hr', hbytes, hle, hin⟩ := holds_of_mem_starts hmem.2 ho
        exact ⟨r', .tail _ hr', hbytes, by omega, by omega⟩

theorem exists_start_of_mem {m : Mem} {r : Record w hdr a} : ∀ {rs : List (Record w hdr a)} {o : ℕ},
    Holds m o (encode rs) → r ∈ rs → ∃ o' ∈ starts o rs, Holds m o' r.bytes
  | r' :: rs, o, hmem, hr => by
      rw [holds_encode_cons] at hmem
      rcases List.mem_cons.mp hr with rfl | hr
      · exact ⟨o, .head _, Record.holds_bytes hmem.1⟩
      · obtain ⟨o', ho, hbytes⟩ := exists_start_of_mem hmem.2 hr
        exact ⟨o', .tail _ ho, hbytes⟩

/-- Each record starts where the padding of the one before it ends. -/
theorem isChain_starts {m : Mem} (hw : w ≤ hdr) : ∀ {rs : List (Record w hdr a)} {o : ℕ},
    Holds m o (encode rs) →
    (starts o rs).IsChain fun o o' => o' = o + roundUp a (leNat (bytesAt m o w))
  | [], _, _ => .nil
  | [_], _, _ => .singleton _
  | r :: r' :: rs, o, hmem => by
      rw [holds_encode_cons] at hmem
      have hlen := Record.lenField hw (Record.holds_bytes hmem.1)
      have ih := isChain_starts hw hmem.2
      rw [starts_cons] at ih ⊢
      exact .cons_cons (by rw [hlen]) ih

end Records
