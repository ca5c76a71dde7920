import Hspp.Bpf

/-! # Packet programs one after the other (`bpf/code/t2.c`, `bpf/code/t3.c`)

The two programs replace the same two addresses, in opposite directions, so each absorbs what was
run before it: of any sequence of them the last one alone decides what becomes of a packet
(`runs_last`).  A packet that went through one program and then through the other is as it was
exactly when it did not have the address that the first one writes. -/

namespace Hspp.Bpf

open Checksum Memory

/-- The programs that replace an address. -/
inductive Program where
  | t2
  | t3
deriving DecidableEq, Repr

/-- The function of a program that is run on a packet. -/
def Program.eentry : Program → Mem → RteMbuf → Mem × ℕ
  | .t2 => t2Eentry
  | .t3 => t3Eentry

/-- The address that a program replaces, 10.0.0.2 or 10.0.0.20. -/
def Program.old : Program → BitVec 32
  | .t2 => 0x0a000002#32
  | .t3 => 0x0a000014#32

/-- The address that it writes. -/
def Program.new : Program → BitVec 32
  | .t2 => 0x0a000014#32
  | .t3 => 0x0a000002#32

/-- The memory after programs that are run one after the other. -/
def runs (ps : List Program) (m : Mem) (pkt : RteMbuf) : Mem :=
  ps.foldl (fun m p => (p.eentry m pkt).1) m

section
variable {old new : BitVec 32} {m : Mem} {pkt : RteMbuf}

variable (new) in
/-- What is read again where the program has written. -/
theorem eentry_written (h : bytesAt m (rtePktmbufMtod pkt + 12) 2 = [8, 0] ∧
      bytesAt m (rtePktmbufMtod pkt + 26) 4 = octets old) :
    (eentry old new m pkt).1 = write m (rtePktmbufMtod pkt + 26) (octets new) ∧
      bytesAt (eentry old new m pkt).1 (rtePktmbufMtod pkt + 12) 2 = [8, 0] ∧
      bytesAt (eentry old new m pkt).1 (rtePktmbufMtod pkt + 26) 4 = octets new := by
  have heq : (eentry old new m pkt).1 = write m (rtePktmbufMtod pkt + 26) (octets new) := by
    rw [eentry_eq, if_pos h]
  refine ⟨heq, ?_, ?_⟩
  · rw [← h.1]
    exact agree_iff.mp fun i hi => eentry_unchanged old new m pkt (.inl (by omega))
  · rw [heq]
    exact length_leBytes 4 (bswap32 new).toNat ▸ holds_write m _ (octets new)

/-- A second run of the program finds nothing to do. -/
theorem eentry_eentry_self (hne : octets old ≠ octets new) :
    (eentry old new (eentry old new m pkt).1 pkt).1 = (eentry old new m pkt).1 := by
  by_cases h : bytesAt m (rtePktmbufMtod pkt + 12) 2 = [8, 0] ∧
      bytesAt m (rtePktmbufMtod pkt + 26) 4 = octets old
  · obtain ⟨-, -, hsaddr⟩ := eentry_written new h
    rw [eentry_eq old new (eentry old new m pkt).1, if_neg]
    exact fun hboth => hne (hboth.2.symm.trans hsaddr)
  · have hsame : (eentry old new m pkt).1 = m := by rw [eentry_eq, if_neg h]
    rw [hsame, hsame]

/-- The opposite program does what it does without a run of the program before. -/
theorem eentry_eentry_swap (hne : octets old ≠ octets new) :
    (eentry new old (eentry old new m pkt).1 pkt).1 = (eentry new old m pkt).1 := by
  by_cases h : bytesAt m (rtePktmbufMtod pkt + 12) 2 = [8, 0] ∧
      bytesAt m (rtePktmbufMtod pkt + 26) 4 = octets old
  · obtain ⟨heq, htype, hsaddr⟩ := eentry_written new h
    have hlen : (octets new).length = (octets old).length :=
      (length_leBytes ..).trans (length_leBytes ..).symm
    have hholds : Holds m (rtePktmbufMtod pkt + 26) (octets old) := by
      unfold Holds
      rw [show (octets old).length = 4 from length_leBytes ..]
      exact h.2
    rw [eentry_eq new old (eentry old new m pkt).1, if_pos ⟨htype, hsaddr⟩, heq,
      write_write hlen, hholds.write_eq, eentry_eq, if_neg]
    exact fun hboth => hne (h.2.symm.trans hboth.2)
  · have hsame : (eentry old new m pkt).1 = m := by rw [eentry_eq, if_neg h]
    rw [hsame]

/-- The memory is as it was just when there was nothing to replace. -/
theorem eentry_eq_self_iff (hne : octets old ≠ octets new) : (eentry old new m pkt).1 = m ↔
    ¬ (bytesAt m (rtePktmbufMtod pkt + 12) 2 = [8, 0] ∧
      bytesAt m (rtePktmbufMtod pkt + 26) 4 = octets old) := by
  constructor
  · intro hsame h
    obtain ⟨-, -, hsaddr⟩ := eentry_written new h
    rw [hsame, h.2] at hsaddr
    exact hne hsaddr
  · intro h
    rw [eentry_eq, if_neg h]

end

theorem Program.eentry_eq (p : Program) : p.eentry = Bpf.eentry p.old p.new := by
  cases p <;> rfl

/-- The addresses differ, in their checksums too. -/
theorem Program.old_ne_new (p : Program) : octets p.old ≠ octets p.new ∧
    ¬ (beWords (octets p.old)).sum ≡ (beWords (octets p.new)).sum [MOD 2 ^ 16 - 1] := by
  cases p <;> decide

/-- A program absorbs the one that was run before it. -/
theorem eentry_eentry (q p : Program) (m : Mem) (pkt : RteMbuf) :
    (p.eentry (q.eentry m pkt).1 pkt).1 = (p.eentry m pkt).1 := by
  cases q <;> cases p
  · exact eentry_eentry_self (by decide)
  · exact eentry_eentry_swap (by decide)
  · exact eentry_eentry_swap (by decide)
  · exact eentry_eentry_self (by decide)

/-- **Sequences**: whatever programs were run on a packet before, the last one leaves the memory
as if it had been run alone.  So the packet is as it was, and a correct header checksum is still
correct, exactly when the packet did not come from the address that the last program replaces. -/
theorem runs_last (ps : List Program) (p : Program) (m : Mem) (pkt : RteMbuf) :
    runs (ps ++ [p]) m pkt = (p.eentry m pkt).1 ∧
      (runs (ps ++ [p]) m pkt = m ↔ ¬ (bytesAt m (rtePktmbufMtod pkt + 12) 2 = [8, 0] ∧
        bytesAt m (rtePktmbufMtod pkt + 26) 4 = octets p.old)) ∧
      ∀ n, Correct (bytesAt m (rtePktmbufMtod pkt) n) →
        (Correct (bytesAt (runs (ps ++ [p]) m pkt) (rtePktmbufMtod pkt) n) ↔
          bytesAt m (rtePktmbufMtod pkt + 26) 4 ≠ octets p.old) := by
  have hlast : runs (ps ++ [p]) m pkt = (p.eentry m pkt).1 := by
    rw [runs, List.foldl_append, List.foldl_cons, List.foldl_nil]
    induction ps generalizing m with
    | nil => rfl
    | cons q ps ih => rw [List.foldl_cons, ih, eentry_eentry]
  obtain ⟨hne, hsum⟩ := p.old_ne_new
  rw [hlast, p.eentry_eq]
  exact ⟨rfl, eentry_eq_self_iff hne, fun n h => eentry_correct_iff hsum h⟩

end Hspp.Bpf
