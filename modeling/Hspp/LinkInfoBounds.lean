import Hspp.LinkInfo
import Hspp.RtattrWalk

/-! # Bounds of the loop over nested attributes

A loop that steps with `rtattr_next` and ends when that returns `NULL` or leaves nothing
(`StepsWith`) looks at headers that lie in the buffer, whatever lengths the buffer gives
(`Inside`).  An attribute that is longer than what is left makes `rtattr_next` return an
address behind the buffer; the length is then negative, and the loop ends before it reads
there.  Each round uses up at least four bytes, so there are at most `b / 4` of them.

Both the loop over the VLAN attributes, whose readers may end the process, and the bare walk
are such loops (`nestedLoop_bounds`). -/

namespace Hspp

open CInt Loop Memory

/-- The header at `nrta` lies in the `b` bytes from `o` on, and `nbuflen` bytes are left from
there. -/
structure Inside (o b nrta : ℕ) (nbuflen : ℤ) : Prop where
  ge : o ≤ nrta
  header : nrta + sizeofRtattr ≤ o + b
  left : nbuflen = b - (nrta - o : ℕ)

theorem Inside.start (o : ℕ) {b : ℕ} (hb : 4 ≤ b) : Inside o b o b where
  ge := le_rfl
  header := Nat.add_le_add_left hb o
  left := by simp

/-- When something is left, the walker has moved on, and a header more is left. -/
theorem Inside.next {m : Mem} {o b nrta nrta' : ℕ} {nbuflen nbuflen' : ℤ} (hb : b < 2 ^ 63)
    (h : Inside o b nrta nbuflen) (hnext : rtattrNext m nrta nbuflen = (some nrta', nbuflen'))
    (hpos : 0 < nbuflen') :
    Inside o b nrta' nbuflen' ∧ nrta < nrta' ∧ 4 < nbuflen' ∧ nbuflen' + 4 ≤ nbuflen := by
  obtain ⟨hge, hhdr, hleft⟩ := h
  have hle := le_roundUp (a := 4) (by norm_num) (rtattrLen m nrta)
  have hdvd := dvd_roundUp 4 (rtattrLen m nrta)
  rw [sizeofRtattr] at hhdr
  rw [rtattrNext_eq (by omega) (by omega)] at hnext
  split_ifs at hnext with hstep
  swap
  · cases congrArg Prod.fst hnext
  obtain ⟨-, hlen, hroom⟩ := hstep
  obtain ⟨hrta, hbuf⟩ := Prod.mk.inj hnext
  cases hrta
  -- the step is not the one over the end of the buffer
  have hroom : (roundUp 4 (rtattrLen m nrta) + 4 : ℤ) < nbuflen := hroom.resolve_left (by omega)
  refine ⟨⟨by omega, ?_, by omega⟩, by omega, by omega, by omega⟩
  rw [sizeofRtattr]
  omega

/-! ### Loops that step with `rtattr_next` -/

section loops

variable {S R : Type*} {m : Mem} {body : S → S ⊕ R} {nrta : S → ℕ} {nbuflen : S → ℤ} {s t : S}
  {o b : ℕ}

/-- Every round that is followed by another one steps with `rtattr_next`, and something is
left. -/
def StepsWith (m : Mem) (body : S → S ⊕ R) (nrta : S → ℕ) (nbuflen : S → ℤ) : Prop :=
  ∀ s t, body s = .inl t →
    rtattrNext m (nrta s) (nbuflen s) = (some (nrta t), nbuflen t) ∧ 0 < nbuflen t

theorem StepsWith.next (hbody : StepsWith m body nrta nbuflen) (hb : b < 2 ^ 63)
    (hs : Inside o b (nrta s) (nbuflen s)) (h : body s = .inl t) :
    Inside o b (nrta t) (nbuflen t) ∧ nrta s < nrta t ∧ 4 < nbuflen t ∧
      nbuflen t + 4 ≤ nbuflen s :=
  hs.next hb (hbody s t h).1 (hbody s t h).2

/-- The run lemma: the header stays in the buffer. -/
theorem StepsWith.inside (hbody : StepsWith m body nrta nbuflen) (hb : b < 2 ^ 63)
    (hs : Inside o b (nrta s) (nbuflen s)) (h : Reaches body s t) :
    Inside o b (nrta t) (nbuflen t) := by
  refine Reaches.rel (P := fun s t => Inside o b (nrta s) (nbuflen s) →
    Inside o b (nrta t) (nbuflen t)) (fun _ => id) ?_ h hs
  intro s t u hst htu hs
  exact htu (hbody.next hb hs hst).1

/-- Each round but the last one leaves four bytes less, and more than four. -/
theorem StepsWith.exits (hbody : StepsWith m body nrta nbuflen) (hb : b < 2 ^ 63) (hb4 : 4 ≤ b)
    (hs : Inside o b (nrta s) (nbuflen s)) (hleft : nbuflen s = b) :
    ∃ k ≤ b / 4, ∃ r, run body k s = .inr r := by
  have hstep : ∀ s t, Inside o b (nrta s) (nbuflen s) → body s = .inl t →
      Inside o b (nrta t) (nbuflen t) ∧
        (nbuflen t).toNat / 4 - 1 < (nbuflen s).toNat / 4 - 1 := by
    intro s t hs hst
    obtain ⟨ht, -, hmore, hless⟩ := hbody.next hb hs hst
    exact ⟨ht, by omega⟩
  obtain ⟨k, hk, r, hr⟩ := exits_of_measure _ hstep hs
  exact ⟨k + 1, by omega, r, hr⟩

end loops

/-! ### The two loops -/

theorem vlanLoop_stepsWith (m : Mem) :
    StepsWith m (vlanLoop m) VlanLoop.nrta VlanLoop.nbuflen := by
  intro s t h
  unfold vlanLoop at h
  cases hattr : vlanAttr m s.nrta s.vlaninfo with
  | error e => simp [hattr] at h
  | ok v =>
      rcases hnext : rtattrNext m s.nrta s.nbuflen with ⟨_ | nrta, nbuflen⟩
      · simp [hattr, hnext] at h
      · simp only [hattr, hnext] at h
        split_ifs at h with hpos
        cases h
        exact ⟨rfl, not_le.mp hpos⟩

theorem rtattrWalk_stepsWith (m : Mem) :
    StepsWith m (rtattrWalk m) RtattrWalk.nrta RtattrWalk.nbuflen := by
  intro s t h
  unfold rtattrWalk at h
  rcases hnext : rtattrNext m s.nrta s.nbuflen with ⟨_ | nrta, nbuflen⟩
  · simp [hnext] at h
  · simp only [hnext] at h
    split_ifs at h with hpos
    cases h
    exact ⟨rfl, not_le.mp hpos⟩

/-- **Bounds of the nested loop**: for every buffer of at least four bytes, whatever is in it,
the loop ends after at most `b / 4` rounds; every header that it looks at lies in the buffer
with `nbuflen` the bytes from there on, and behind the one before.  It is the same when no
reader ends the process. -/
theorem nestedLoop_bounds (m : Mem) (o b : ℕ) (v : InterfaceInfoVlan) (hb4 : 4 ≤ b)
    (hb : b < 2 ^ 63) :
    ((∃ k ≤ b / 4, ∃ r, run (vlanLoop m) k ⟨o, b, v⟩ = .inr r) ∧
      (∀ s, Reaches (vlanLoop m) ⟨o, b, v⟩ s → Inside o b s.nrta s.nbuflen) ∧
      ∀ s t, Reaches (vlanLoop m) ⟨o, b, v⟩ s → vlanLoop m s = .inl t → s.nrta < t.nrta) ∧
    (∃ k ≤ b / 4, ∃ visited, run (rtattrWalk m) k ⟨o, b, []⟩ = .inr visited) ∧
      (∀ s, Reaches (rtattrWalk m) ⟨o, b, []⟩ s → Inside o b s.nrta s.nbuflen) ∧
      ∀ s t, Reaches (rtattrWalk m) ⟨o, b, []⟩ s → rtattrWalk m s = .inl t →
        s.nrta < t.nrta := by
  have hstart := Inside.start o hb4
  have hvlan := vlanLoop_stepsWith m
  have hwalk := rtattrWalk_stepsWith m
  refine ⟨⟨hvlan.exits hb hb4 hstart rfl, fun s hs => hvlan.inside hb hstart hs, ?_⟩,
    hwalk.exits hb hb4 hstart rfl, fun s hs => hwalk.inside hb hstart hs, ?_⟩
  · exact fun s t hs ht => (hvlan.next hb (hvlan.inside hb hstart hs) ht).2.1
  · exact fun s t hs ht => (hwalk.next hb (hwalk.inside hb hstart hs) ht).2.1

/-- An attribute that skips 8 bytes, and one that is longer than the buffer. -/
def overlong : Mem := write (fun _ => 0) 0 [6, 0, 9, 0, 1, 2, 0, 0, 255, 255, 9, 0, 0, 0, 0, 0]

theorem nestedLoop_bounds_overlong :
    ((∃ k ≤ 16 / 4, ∃ r, run (vlanLoop overlong) k ⟨0, (16 : ℕ), ⟨0, 0, 0⟩⟩ = .inr r) ∧
      ∀ s, Reaches (vlanLoop overlong) ⟨0, (16 : ℕ), ⟨0, 0, 0⟩⟩ s →
        Inside 0 16 s.nrta s.nbuflen) ∧
    (∃ k ≤ 16 / 4, ∃ visited, run (rtattrWalk overlong) k ⟨0, (16 : ℕ), []⟩ = .inr visited) ∧
      ∀ s, Reaches (rtattrWalk overlong) ⟨0, (16 : ℕ), []⟩ s → Inside 0 16 s.nrta s.nbuflen :=
  have h := nestedLoop_bounds overlong 0 16 ⟨0, 0, 0⟩ (by decide) (by decide)
  ⟨⟨h.1.1, h.1.2.1⟩, h.2.1, h.2.2.1⟩

end Hspp
