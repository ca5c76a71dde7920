import Hspp.Lib.Checksum
import Hspp.Lib.Memory

/-! # Packet programs (`bpf/code/t2.c`, `bpf/code/t3.c`)

Both programs replace one IPv4 source address by another, and differ in the direction only.
A packet is the data of an mbuf in memory; `ether_type` and `saddr` are loaded and stored
little-endian and swapped.

Nothing else in memory changes, so the header checksum stays as it was while the sum of the
header does not: a frame with a correct checksum keeps it exactly when its address is not the
one that is replaced (`eentry_checksum`). -/

namespace Hspp.Bpf

open Checksum Memory

/-- The fields of `struct rte_mbuf` that `rte_pktmbuf_mtod` reads. -/
structure RteMbuf where
  bufAddr : ℕ
  dataOff : ℕ

def rtePktmbufMtod (m : RteMbuf) : ℕ := m.bufAddr + m.dataOff

def bswap16 (v : BitVec 16) : BitVec 16 := (v &&& 0x00ff#16) <<< 8 ||| (v &&& 0xff00#16) >>> 8

def bswap32 (v : BitVec 32) : BitVec 32 :=
  (v &&& 0x000000ff#32) <<< 24 ||| (v &&& 0x0000ff00#32) <<< 8 |||
    (v &&& 0x00ff0000#32) >>> 8 ||| (v &&& 0xff000000#32) >>> 24

/-- `eentry`, for the address `old` that is replaced by `new`: the memory afterwards and the
value returned. -/
def eentry (old new : BitVec 32) (m : Mem) (pkt : RteMbuf) : Mem × ℕ :=
  let eh := rtePktmbufMtod pkt
  let type := bswap16 (BitVec.ofNat 16 (leNat (bytesAt m (eh + 12) 2)))
  if type ≠ 0x0800#16 then (m, 0)
  else
    let ih := eh + 14
    let saddr := bswap32 (BitVec.ofNat 32 (leNat (bytesAt m (ih + 12) 4)))
    if saddr = old then (write m (ih + 12) (leBytes 4 (bswap32 new).toNat), 0) else (m, 0)

/-- `eentry` of `t2.c`. -/
def t2Eentry : Mem → RteMbuf → Mem × ℕ := eentry 0x0a000002#32 0x0a000014#32

/-- `eentry` of `t3.c`. -/
def t3Eentry : Mem → RteMbuf → Mem × ℕ := eentry 0x0a000014#32 0x0a000002#32

/-! ### IPv4 frames -/

/-- The length of the header in words of 32 bits. -/
def ihl (frame : List UInt8) : ℕ := (frame.getD 14 0).toNat % 16

def ipHeader (frame : List UInt8) : List UInt8 := (frame.drop 14).take (4 * ihl frame)

/-- The frame carries an IPv4 header. -/
structure CarriesIpv4 (frame : List UInt8) : Prop where
  etherType : (frame.drop 12).take 2 = [8, 0]
  version : (frame.getD 14 0).toNat / 16 = 4
  ihl_ge : 5 ≤ ihl frame
  fits : 14 + 4 * ihl frame ≤ frame.length

/-- The frame carries an IPv4 header, with a correct checksum. -/
def Correct (frame : List UInt8) : Prop := CarriesIpv4 frame ∧ Verifies (ipHeader frame)

/-- The bytes of an address, in the order in which they are sent. -/
def octets (addr : BitVec 32) : List UInt8 := leBytes 4 (bswap32 addr).toNat

/-! ### What the program does -/

theorem bswap16_bswap16 (v : BitVec 16) : bswap16 (bswap16 v) = v := by
  apply BitVec.eq_of_getLsbD_eq
  intro i hi
  unfold bswap16
  interval_cases i <;> simp

theorem bswap32_bswap32 (v : BitVec 32) : bswap32 (bswap32 v) = v := by
  apply BitVec.eq_of_getLsbD_eq
  intro i hi
  unfold bswap32
  interval_cases i <;> simp

/-- The swapped type is `0x0800` just when the bytes in the frame are. -/
theorem bswap16_eq_iff {bs : List UInt8} (hbs : bs.length = 2) :
    bswap16 (BitVec.ofNat 16 (leNat bs)) = 0x0800#16 ↔ bs = [8, 0] := by
  constructor
  · intro h
    have hval : BitVec.ofNat 16 (leNat bs) = 8#16 := by
      rw [← bswap16_bswap16 (BitVec.ofNat 16 (leNat bs)), h]
      rfl
    have hlt : leNat bs < 2 ^ 16 := (leNat_lt bs).trans_eq (by rw [hbs]; rfl)
    have hnat := congrArg BitVec.toNat hval
    rw [BitVec.toNat_ofNat, Nat.mod_eq_of_lt hlt] at hnat
    exact leNat_inj hbs hnat
  · rintro rfl
    rfl

/-- The swapped address is `addr` just when the bytes in the frame are its octets. -/
theorem bswap32_eq_iff {bs : List UInt8} (hbs : bs.length = 4) (addr : BitVec 32) :
    bswap32 (BitVec.ofNat 32 (leNat bs)) = addr ↔ bs = octets addr := by
  have hoctets : leNat (octets addr) = (bswap32 addr).toNat := leNat_leBytes (bswap32 addr).isLt
  constructor
  · rintro rfl
    have hlt : leNat bs < 2 ^ 32 := (leNat_lt bs).trans_eq (by rw [hbs]; rfl)
    refine leNat_inj (hbs.trans (length_leBytes ..).symm) (Eq.trans ?_ hoctets.symm)
    rw [bswap32_bswap32, BitVec.toNat_ofNat, Nat.mod_eq_of_lt hlt]
  · rintro rfl
    rw [hoctets, BitVec.ofNat_toNat, BitVec.setWidth_eq, bswap32_bswap32]

/-- The program writes the new address, in an IPv4 frame from the old one. -/
theorem eentry_eq (old new : BitVec 32) (m : Mem) (pkt : RteMbuf) :
    (eentry old new m pkt).1 =
      if bytesAt m (rtePktmbufMtod pkt + 12) 2 = [8, 0] ∧
          bytesAt m (rtePktmbufMtod pkt + 26) 4 = octets old then
        write m (rtePktmbufMtod pkt + 26) (octets new) else m := by
  simp only [eentry, ne_eq, bswap16_eq_iff (length_bytesAt ..), bswap32_eq_iff (length_bytesAt ..)]
  by_cases htype : bytesAt m (rtePktmbufMtod pkt + 12) 2 = [8, 0]
  · by_cases hsaddr : bytesAt m (rtePktmbufMtod pkt + 26) 4 = octets old
    · simp [htype, hsaddr, octets]
    · simp [htype, hsaddr]
  · simp [htype]

/-- Nothing is written but the four bytes of the address. -/
theorem eentry_unchanged (old new : BitVec 32) (m : Mem) (pkt : RteMbuf) {a : ℕ}
    (ha : a < rtePktmbufMtod pkt + 26 ∨ rtePktmbufMtod pkt + 30 ≤ a) :
    (eentry old new m pkt).1 a = m a := by
  have hlen : (octets new).length = 4 := length_leBytes ..
  rw [eentry_eq]
  split_ifs
  · rcases ha with ha | ha
    · exact write_of_lt m _ ha
    · exact write_of_ge m (by omega)
  · rfl

/-! ### Checksums -/

/-- The header of a frame, around the source address. -/
theorem ipHeader_append {before s after : List UInt8} (hbefore : before.length = 26)
    (hs : s.length = 4) (hihl : 5 ≤ ihl (before ++ (s ++ after))) :
    ipHeader (before ++ (s ++ after)) =
      before.drop 14 ++ (s ++ after.take (4 * ihl (before ++ (s ++ after)) - 16)) := by
  have hdrop : (before.drop 14).length = 12 := by
    rw [List.length_drop, hbefore]
  rw [ipHeader, List.drop_append_of_le_length (by omega), List.take_append,
    List.take_of_length_le (by omega), hdrop, List.take_append,
    List.take_of_length_le (by omega), hs, Nat.sub_sub]

theorem ihl_append {before : List UInt8} (hbefore : before.length = 26) (rest : List UInt8) :
    ihl (before ++ rest) = (before.getD 14 0).toNat % 16 := by
  rw [ihl, List.getD_append _ _ _ _ (by omega)]

/-- Of two frames that differ in the source address, both with a correct checksum, the addresses
have the same sum. -/
theorem Correct.replace {before s s' after : List UInt8} (hbefore : before.length = 26)
    (hs : s.length = 4) (hs' : s'.length = 4) (h : Correct (before ++ (s ++ after)))
    (h' : Correct (before ++ (s' ++ after))) :
    (beWords s).sum ≡ (beWords s').sum [MOD 2 ^ 16 - 1] := by
  have hverifies := h.2
  have hverifies' := h'.2
  rw [ipHeader_append hbefore hs h.1.ihl_ge, ihl_append hbefore] at hverifies
  rw [ipHeader_append hbefore hs' h'.1.ihl_ge, ihl_append hbefore] at hverifies'
  refine hverifies.replace hverifies' ?_ ?_ ?_
  · rw [List.length_drop, hbefore]
    norm_num
  · norm_num [hs]
  · norm_num [hs']

/-- A frame with a correct checksum has none any more when an address with another sum is
written. -/
theorem eentry_correct_iff {old new : BitVec 32}
    (hne : ¬ (beWords (octets old)).sum ≡ (beWords (octets new)).sum [MOD 2 ^ 16 - 1]) {m : Mem}
    {pkt : RteMbuf} {n : ℕ} (h : Correct (bytesAt m (rtePktmbufMtod pkt) n)) :
    Correct (bytesAt (eentry old new m pkt).1 (rtePktmbufMtod pkt) n) ↔
      bytesAt m (rtePktmbufMtod pkt + 26) 4 ≠ octets old := by
  have hn : 34 ≤ n := by
    have hge := h.1.ihl_ge
    have hfits := h.1.fits
    rw [length_bytesAt] at hfits
    omega
  obtain ⟨d, rfl⟩ := Nat.exists_eq_add_of_le hn
  have htype := h.1.etherType
  rw [drop_bytesAt _ _ (by omega), take_bytesAt _ _ (by omega)] at htype
  have hsplit : ∀ m' : Mem, bytesAt m' (rtePktmbufMtod pkt) (34 + d) =
      bytesAt m' (rtePktmbufMtod pkt) 26 ++ (bytesAt m' (rtePktmbufMtod pkt + 26) 4 ++
        bytesAt m' (rtePktmbufMtod pkt + 30) (4 + d)) := by
    intro m'
    rw [show 34 + d = 26 + (4 + (4 + d)) by omega, bytesAt_add, bytesAt_add]
  have hlen : (octets new).length = 4 := length_leBytes ..
  constructor
  · intro h' hsaddr
    have hbefore : bytesAt (eentry old new m pkt).1 (rtePktmbufMtod pkt) 26 =
        bytesAt m (rtePktmbufMtod pkt) 26 :=
      agree_iff.mp fun i hi => eentry_unchanged old new m pkt (.inl (by omega))
    have hafter : bytesAt (eentry old new m pkt).1 (rtePktmbufMtod pkt + 30) (4 + d) =
        bytesAt m (rtePktmbufMtod pkt + 30) (4 + d) :=
      agree_iff.mp fun i hi => eentry_unchanged old new m pkt (.inr (by omega))
    have hnew : bytesAt (eentry old new m pkt).1 (rtePktmbufMtod pkt + 26) 4 = octets new := by
      rw [eentry_eq, if_pos ⟨htype, hsaddr⟩]
      exact hlen ▸ holds_write m _ (octets new)
    rw [hsplit, hbefore, hafter, hnew] at h'
    rw [hsplit, hsaddr] at h
    exact hne (h.replace (length_bytesAt ..) (length_leBytes ..) hlen h')
  · intro hsaddr
    rw [eentry_eq, if_neg fun hboth => hsaddr hboth.2]
    exact h

/-- **Checksums**: both programs leave everything but the source address as it is, and a frame
with a correct header checksum keeps it exactly when its source address is not replaced. -/
theorem eentry_checksum (m : Mem) (pkt : RteMbuf) (n : ℕ) :
    ((∀ a, a < rtePktmbufMtod pkt + 26 ∨ rtePktmbufMtod pkt + 30 ≤ a →
        (t2Eentry m pkt).1 a = m a) ∧
      (Correct (bytesAt m (rtePktmbufMtod pkt) n) →
        (Correct (bytesAt (t2Eentry m pkt).1 (rtePktmbufMtod pkt) n) ↔
          bytesAt m (rtePktmbufMtod pkt + 26) 4 ≠ [10, 0, 0, 2]))) ∧
    (∀ a, a < rtePktmbufMtod pkt + 26 ∨ rtePktmbufMtod pkt + 30 ≤ a →
        (t3Eentry m pkt).1 a = m a) ∧
      (Correct (bytesAt m (rtePktmbufMtod pkt) n) →
        (Correct (bytesAt (t3Eentry m pkt).1 (rtePktmbufMtod pkt) n) ↔
          bytesAt m (rtePktmbufMtod pkt + 26) 4 ≠ [10, 0, 0, 20])) := by
  have hold : octets 0x0a000002#32 = [10, 0, 0, 2] := rfl
  have hnew : octets 0x0a000014#32 = [10, 0, 0, 20] := rfl
  refine ⟨⟨fun a ha => eentry_unchanged _ _ m pkt ha, fun h => ?_⟩,
    fun a ha => eentry_unchanged _ _ m pkt ha, fun h => ?_⟩
  · rw [← hold]
    exact eentry_correct_iff (by decide) h
  · rw [← hnew]
    exact eentry_correct_iff (by decide) h

/-- A frame with just a header, from 10.0.0.2 to 10.0.0.1. -/
def fromTwo : List UInt8 :=
  [0, 0, 0, 0, 0, 0, 0, 0, 0, 0, 0, 0, 8, 0,
    0x45, 0, 0, 20, 0, 0, 0, 0, 64, 17, 0x66, 0xd7, 10, 0, 0, 2, 10, 0, 0, 1]

theorem not_correct_fromTwo : ¬ ∀ (m : Mem) (pkt : RteMbuf) (n : ℕ), 34 ≤ n →
    Correct (bytesAt m (rtePktmbufMtod pkt) n) →
    Correct (bytesAt (t2Eentry m pkt).1 (rtePktmbufMtod pkt) n) := by
  intro h
  have hframe : Correct (bytesAt (write (fun _ => 0) 0 fromTwo) (rtePktmbufMtod ⟨0, 0⟩) 34) :=
    ⟨⟨by decide, by decide, by decide, by decide⟩, by decide⟩
  have hkept := h _ ⟨0, 0⟩ 34 le_rfl hframe
  exact (eentry_correct_iff (by decide) hframe).mp hkept (by decide)

end Hspp.Bpf
