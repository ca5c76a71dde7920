import Hspp.Lib.Records
import Hspp.Lib.Text

/-! # Routing attributes (`yalin/rtattr.h`)

The accessors of `struct rtattr`, the walker `rtattr_next` and the readers of payloads.  A
pointer is an address; `NULL` is `none`.  `size_t` and `ssize_t` have 64 bits: a payload
length below zero wraps to a huge one, and `*buflen - seek_len` is computed on `size_t`.

`rtattrNext_eq` says in integers what the walker does with a length that fits a buffer, and
`Attr` is an attribute as a record, with the fields of a stored one read by the accessors
(`Attr.rtattrLen_eq`, `Attr.rtattrType_eq`, `Attr.holds_payload`). -/

namespace Hspp

open CInt Memory Records Text

/-- Why a call does not return.  A write behind a local array is one of the reasons: nothing
is known of the process after it. -/
inductive Halt where
  | assertFailed
  | exit (code : ℕ)
  | nullDeref
  | spins
  | overrun
deriving DecidableEq, Repr

/-- `sizeof(struct rtattr)`. -/
def sizeofRtattr : ℕ := 4

/-- `align`, on `size_t`. -/
def align (blocklen alignlen : ℕ) : ℕ := alignUp 64 alignlen blocklen

def rtattrType (m : Mem) (rta : ℕ) : ℕ := leNat (bytesAt m (rta + 2) 2)

def rtattrLen (m : Mem) (rta : ℕ) : ℕ := leNat (bytesAt m rta 2)

/-- `rtattr_payload_len`: a length below the header wraps. -/
def rtattrPayloadLen (m : Mem) (rta : ℕ) : ℕ := toUnsigned 64 (rtattrLen m rta - sizeofRtattr)

def rtattrPayloadPtr (rta : ℕ) : ℕ := rta + sizeofRtattr

/-- `rtattr_next`: the next attribute, if any, and the new value of `*buflen`. -/
def rtattrNext (m : Mem) (rta : ℕ) (buflen : ℤ) : Option ℕ × ℤ :=
  let seekLen := align (rtattrLen m rta) 4
  if buflen ≤ 0 then (none, buflen)
  else if seekLen ≤ 0 then (none, buflen)
  else if sizeofRtattr < toUnsigned 64 (buflen - seekLen) then
    (some (rta + seekLen), toSigned 64 (buflen - seekLen))
  else (none, buflen)

def rtattrNestNext (rta : ℕ) : ℕ := rtattrPayloadPtr rta

/-- The readers of fixed width: a payload longer than `n` bytes is refused, a shorter one
is read all the same. -/
def rtattrRead (n : ℕ) (m : Mem) (attr : ℕ) : Except Halt ℕ :=
  if n < rtattrPayloadLen m attr then .error (.exit 1)
  else .ok (leNat (bytesAt m (rtattrPayloadPtr attr) n))

def rtattrRead8bit : Mem → ℕ → Except Halt ℕ := rtattrRead 1

def rtattrRead16bit : Mem → ℕ → Except Halt ℕ := rtattrRead 2

def rtattrRead32bit : Mem → ℕ → Except Halt ℕ := rtattrRead 4

def rtattrRead64bit : Mem → ℕ → Except Halt ℕ := rtattrRead 8

/-- `rtattr_read_str`: the string left in a buffer of `strbuflen` bytes, and the value
returned.  The payload is copied up to its first NUL, wherever that is. -/
def rtattrReadStr (m : Mem) (attr strbuflen : ℕ) : Except Halt (List UInt8 × ℕ) :=
  if strbuflen < rtattrPayloadLen m attr then .error (.exit 1)
  else .ok (cstr (bytesAt m (rtattrPayloadPtr attr) (strbuflen - 1)),
    align (rtattrPayloadLen m attr) 4)

/-! ### The accessors in integers -/

theorem rtattrLen_eq_toNat (m : Mem) (rta : ℕ) :
    rtattrLen m rta = (m rta).toNat + 256 * (m (rta + 1)).toNat := by
  simp [rtattrLen, bytesAt, leNat]

theorem rtattrType_eq_toNat (m : Mem) (rta : ℕ) :
    rtattrType m rta = (m (rta + 2)).toNat + 256 * (m (rta + 3)).toNat := by
  simp [rtattrType, bytesAt, leNat]

theorem rtattrLen_lt (m : Mem) (rta : ℕ) : rtattrLen m rta < 2 ^ 16 := by
  have := leNat_lt (bytesAt m rta 2)
  rwa [length_bytesAt] at this

theorem rtattrType_lt (m : Mem) (rta : ℕ) : rtattrType m rta < 2 ^ 16 := by
  have := leNat_lt (bytesAt m (rta + 2) 2)
  rwa [length_bytesAt] at this

theorem align_four {n : ℕ} (hn : n < 2 ^ 16) : align n 4 = roundUp 4 n :=
  alignUp_of_lt (k := 2) (by norm_num) (by omega)

theorem rtattrPayloadLen_of_le {m : Mem} {rta : ℕ} (h : 4 ≤ rtattrLen m rta) :
    rtattrPayloadLen m rta = rtattrLen m rta - 4 := by
  have hlt := rtattrLen_lt m rta
  have := toUnsigned_of_nonneg (w := 64) (x := rtattrLen m rta - 4) (by omega) (by omega)
  unfold rtattrPayloadLen sizeofRtattr
  push_cast
  omega

/-- A payload length is at most `n` only for the lengths from 4 to `4 + n`. -/
theorem rtattrPayloadLen_le_iff {m : Mem} {rta n : ℕ} (hn : n ≤ 2 ^ 16) :
    rtattrPayloadLen m rta ≤ n ↔ 4 ≤ rtattrLen m rta ∧ rtattrLen m rta ≤ 4 + n := by
  obtain h | h := Nat.lt_or_ge (rtattrLen m rta) 4
  · have := toUnsigned_of_neg (w := 64) (x := rtattrLen m rta - 4) (by omega) (by omega)
    have hlt := rtattrLen_lt m rta
    unfold rtattrPayloadLen sizeofRtattr
    push_cast
    omega
  · rw [rtattrPayloadLen_of_le h]
    omega

/-- A reader reads exactly from the lengths `4` to `4 + n`. -/
theorem rtattrRead_eq_ite {n : ℕ} (hn : n ≤ 2 ^ 16) (m : Mem) (attr : ℕ) :
    rtattrRead n m attr = if 4 ≤ rtattrLen m attr ∧ rtattrLen m attr ≤ 4 + n then
      .ok (leNat (bytesAt m (attr + 4) n)) else .error (.exit 1) := by
  rw [rtattrRead]
  by_cases h : rtattrPayloadLen m attr ≤ n
  · rw [if_neg (by omega), if_pos ((rtattrPayloadLen_le_iff hn).mp h)]
    rfl
  · rw [if_pos (by omega), if_neg (mt (rtattrPayloadLen_le_iff hn).mpr h)]

/-- The walker in integers.  It steps when more than a header is left, and also when the
attribute is longer than what is left: then the new length is negative. -/
theorem rtattrNext_eq {m : Mem} {rta : ℕ} {b : ℤ} (hl : -2 ^ 62 ≤ b) (hu : b < 2 ^ 63) :
    rtattrNext m rta b =
      if 0 < b ∧ 0 < rtattrLen m rta ∧
          (b < roundUp 4 (rtattrLen m rta) ∨ roundUp 4 (rtattrLen m rta) + 4 < b) then
        (some (rta + roundUp 4 (rtattrLen m rta)), b - roundUp 4 (rtattrLen m rta))
      else (none, b) := by
  have hlt := rtattrLen_lt m rta
  have hle := le_roundUp (a := 4) (by norm_num) (rtattrLen m rta)
  have hup := roundUp_lt (a := 4) (by norm_num) (rtattrLen m rta)
  have hz : rtattrLen m rta = 0 → roundUp 4 (rtattrLen m rta) = 0 := fun h => by rw [h]; rfl
  simp only [rtattrNext, align_four hlt, sizeofRtattr]
  set seek := roundUp 4 (rtattrLen m rta)
  by_cases hb : b ≤ 0
  · rw [if_pos hb, if_neg (by omega)]
  by_cases hs : seek ≤ 0
  · rw [if_neg hb, if_pos hs, if_neg (by omega)]
  rw [if_neg hb, if_neg hs, toSigned_of_mem (by omega) (by omega)]
  obtain h | h := lt_or_ge b seek
  · have := toUnsigned_of_neg (w := 64) (x := b - seek) (by omega) (by omega)
    rw [if_pos (by omega), if_pos (by omega)]
  · have := toUnsigned_of_nonneg (w := 64) (x := b - seek) (by omega) (by omega)
    by_cases h4 : seek + 4 < b
    · rw [if_pos (by omega), if_pos (by omega)]
    · rw [if_neg (by omega), if_neg (by omega)]

/-! ### Attributes as records -/

/-- A routing attribute with the padding that follows it. -/
abbrev Attr := Record 2 4 4

namespace Attr

/-- The type of an attribute. -/
def type (a : Attr) : ℕ := leNat ((a.bytes.drop 2).take 2)

/-- The payload of an attribute. -/
def payload (a : Attr) : List UInt8 := a.bytes.drop 4

theorem length_payload (a : Attr) : a.payload.length = a.bytes.length - 4 := List.length_drop

variable {m : Mem} {o : ℕ} {a : Attr}

theorem rtattrLen_eq (h : Holds m o a.bytes) : rtattrLen m o = a.bytes.length :=
  Record.lenField (by norm_num) h

theorem rtattrType_eq (h : Holds m o a.bytes) : rtattrType m o = a.type := by
  have ha := a.hdr_le
  have := (h.drop (k := 2) (by omega)).bytesAt_eq (k := 2) (by rw [List.length_drop]; omega)
  rw [rtattrType, this, type]

theorem holds_payload (h : Holds m o a.bytes) : Holds m (o + 4) a.payload :=
  h.drop a.hdr_le

end Attr

end Hspp
