import Hspp.Dump
import Hspp.RtaToStr

/-! # What `rta_to_str` reads

The dump loops pass attributes of all kinds of messages to one decoder, which goes by the
numbers of link attributes and never compares `rta_len` with the size it reads.  For a type
other than `IFLA_LINKINFO` it stays inside the attribute exactly when the payload covers the
structure or the number that the type stands for, or holds the NUL of the name
(`rtaText_confined_iff`).  The hex loops and `hexdump` go by `rta_len` and always do. -/

namespace Hspp

open CInt Memory Memory.Access Loop Records Text

/-- The number of bytes that a block reads whatever the length of the payload is. -/
def RtaCase.width : RtaCase → ℕ
  | .stats64 => 184
  | .stats => 92
  | .map => 28
  | .promiscuity => 4
  | .num width => width
  | _ => 0

/-- The payload of the attribute is what the block for its type reads. -/
def CoversReads (m : Mem) (rta : ℕ) : Prop :=
  match rtaCase (rtattrType m rta) with
  | .ifname => (0 : UInt8) ∈ bytesAt m (rta + 4) (rtattrLen m rta - 4)
  | c => c.width ≤ rtattrLen m rta - 4

variable {m : Mem} {rta : ℕ}

/-- The loop over the payload reads the attribute's own bytes. -/
theorem confined_payload (hlen : 4 ≤ rtattrLen m rta) :
    (bytes (rta + 4) (rtattrPayloadLen m rta)).Confined m rta (rtattrLen m rta) := by
  rw [confined_bytes, rtattrPayloadLen_of_le hlen]
  omega

/-- The block for the type stays inside the attribute when the payload covers what it reads. -/
theorem rtaText_confined_iff (hlen : 4 ≤ rtattrLen m rta) (len : ℕ) :
    (rtaText rta len).Confined m rta (rtattrLen m rta) ↔ CoversReads m rta := by
  have hfield : ∀ p, rta ≤ p → p + 2 ≤ rta + 4 →
      (num p 2).Confined m rta (rtattrLen m rta) := by
    intro p hp hp'
    apply confined_num.mpr
    omega
  have hnum : ∀ width, (num (rta + 4) width).Confined m rta (rtattrLen m rta) ↔
      width ≤ rtattrLen m rta - 4 := by
    intro width
    rw [confined_num]
    omega
  have hnums : ∀ widths, (nums (rta + 4) widths).Confined m rta (rtattrLen m rta) ↔
      widths.sum ≤ rtattrLen m rta - 4 := by
    intro widths
    rw [confined_nums]
    omega
  rw [rtaText, confined_bind, and_iff_right (hfield (rta + 2) (by omega) (by omega))]
  change (rtaBlock _ rta len (rtaCase (rtattrType m rta))).Confined m rta _ ↔ _
  unfold CoversReads
  cases rtaCase (rtattrType m rta) with
  | ifname =>
      rw [rtaBlock, confined_bind, and_iff_left (confined_pure _),
        confined_str (by omega) (by omega),
        show rta + rtattrLen m rta - (rta + 4) = rtattrLen m rta - 4 by omega]
  | address =>
      rw [rtaBlock, confined_bind, confined_bind]
      refine iff_of_true ⟨hfield rta le_rfl (by omega), confined_payload hlen, ?_⟩ (Nat.zero_le _)
      exact confined_pure _
  | stats64 =>
      rw [rtaBlock, confined_bind, and_iff_left (confined_pure _), hnums]
      exact Iff.rfl
  | stats =>
      rw [rtaBlock, confined_bind, and_iff_left (confined_pure _), hnums]
      exact Iff.rfl
  | map =>
      rw [rtaBlock, confined_bind, and_iff_left (confined_pure _), hnums]
      exact Iff.rfl
  | promiscuity =>
      rw [rtaBlock, confined_bind, and_iff_left (confined_pure _), hnum]
      exact Iff.rfl
  | num width =>
      rw [rtaBlock, confined_bind, and_iff_left (confined_pure _), hnum]
      exact Iff.rfl
  | afSpec => exact iff_of_true (confined_pure _) (Nat.zero_le _)
  | default =>
      rw [rtaBlock, confined_bind, confined_bind, confined_bind]
      refine iff_of_true ⟨hfield rta le_rfl (by omega), confined_payload hlen, ?_, ?_⟩
        (Nat.zero_le _)
      -- `hexdump` goes over the whole attribute
      · exact confined_bytes.mpr (.inr ⟨le_rfl, le_rfl⟩)
      · exact confined_pure _

/-- A link message that ends with an `IFLA_MTU` of no payload. -/
def emptyMtuMsg : Mem := write (fun _ => 0) 0
  ([36, 0, 0, 0, 16, 0] ++ List.replicate 26 0 ++ [4, 0, 4, 0])

def emptyMtu : Attr := ⟨[4, 0, 4, 0], [], by decide, by decide, by decide⟩

end Hspp
