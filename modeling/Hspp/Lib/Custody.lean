import Mathlib.Tactic
import Mathlib.Algebra.Order.Group.Multiset
import Mathlib.Algebra.BigOperators.Group.Finset.Basic

/-! # Tokens in places

Tokens lie in places, `H : P → Multiset T`; a move takes some of them from one place to
another and changes nothing else (`Moves`).  A token is in sole custody of a place when it
is there once and nowhere else (`Sole`).  Moves keep every token in sole custody of some
place (`Moves.sole`) and bring no new ones in (`Moves.mem`), so the places hold together as
many as there are (`sum_card`). -/

namespace Custody

variable {P T : Type*}

/-- The tokens `ts` are moved from `p` to `q`. -/
structure Moves (H H' : P → Multiset T) (p q : P) (ts : Multiset T) : Prop where
  ne : p ≠ q
  source : H p = H' p + ts
  target : H' q = H q + ts
  other : ∀ r, r ≠ p → r ≠ q → H' r = H r

variable {H H' : P → Multiset T} {p q r : P} {ts : Multiset T} {t : T}

/-- Nothing is moved. -/
theorem Moves.of_eq (hne : p ≠ q) (h : H' = H) : Moves H H' p q 0 :=
  ⟨hne, by rw [h, add_zero], by rw [h, add_zero], fun r _ _ => by rw [h]⟩

/-- A token in a place after a move was there before, or came from `p` to `q`. -/
theorem Moves.mem (h : Moves H H' p q ts) (ht : t ∈ H' r) : t ∈ H r ∨ r = q ∧ t ∈ H p := by
  obtain rfl | hq := eq_or_ne r q
  · rw [h.target, Multiset.mem_add] at ht
    rcases ht with ht | ht
    · exact .inl ht
    · exact .inr ⟨rfl, h.source ▸ Multiset.mem_add.mpr (.inr ht)⟩
  obtain rfl | hp := eq_or_ne r p
  · exact .inl (h.source ▸ Multiset.mem_add.mpr (.inl ht))
  · exact .inl (h.other r hp hq ▸ ht)

variable [DecidableEq T]

/-- The token `t` is in the place `p` once, and in no other. -/
def Sole (H : P → Multiset T) (t : T) (p : P) : Prop :=
  (H p).count t = 1 ∧ ∀ q, q ≠ p → (H q).count t = 0

theorem Sole.mem (h : Sole H t p) : t ∈ H p := by
  rw [← Multiset.count_pos, h.1]
  exact Nat.one_pos

theorem Sole.eq_of_mem (h : Sole H t p) (ht : t ∈ H q) : q = p := by
  by_contra hne
  exact Multiset.count_eq_zero.mp (h.2 q hne) ht

/-- A move takes a token with it, or leaves it where it is. -/
theorem Moves.sole (h : Moves H H' p q ts) (hs : Sole H t r) :
    Sole H' t (if t ∈ ts then q else r) := by
  have hcount : (H p).count t = (H' p).count t + ts.count t := by
    rw [h.source, Multiset.count_add]
  have htarget : (H' q).count t = (H q).count t + ts.count t := by
    rw [h.target, Multiset.count_add]
  obtain ⟨h1, h0⟩ := hs
  split_ifs with ht
  · have hpos := Multiset.count_pos.mpr ht
    have hr : r = p := by
      by_contra hne
      have := h0 p (Ne.symm hne)
      omega
    subst hr
    have hq0 := h0 q (Ne.symm h.ne)
    refine ⟨by omega, fun s hs => ?_⟩
    obtain rfl | hsr := eq_or_ne s r
    · omega
    · rw [h.other s hsr hs, h0 s hsr]
  · have hts : ts.count t = 0 := Multiset.count_eq_zero.mpr ht
    have hsame : ∀ s, (H' s).count t = (H s).count t := by
      intro s
      obtain rfl | hsp := eq_or_ne s p
      · omega
      obtain rfl | hsq := eq_or_ne s q
      · omega
      · rw [h.other s hsp hsq]
    exact ⟨by rw [hsame, h1], fun s hs => by rw [hsame, h0 s hs]⟩

/-- **Conservation**: when some tokens are each in sole custody of some place, the places
hold as many of them as there are. -/
theorem sum_card {tokens : Finset T} {places : Finset P}
    (hsole : ∀ t ∈ tokens, ∃ r ∈ places, Sole H t r) :
    ∑ p ∈ places, ((H p).filter (· ∈ tokens)).card = tokens.card := by
  have hcard (p : P) : ((H p).filter (· ∈ tokens)).card = ∑ t ∈ tokens, (H p).count t := by
    rw [← Multiset.sum_count_eq_card fun t ht => (Multiset.mem_filter.mp ht).2]
    exact Finset.sum_congr rfl fun t ht => Multiset.count_filter_of_pos ht
  have hone : ∀ t ∈ tokens, ∑ p ∈ places, (H p).count t = 1 := by
    intro t ht
    obtain ⟨r, hr, h1, h0⟩ := hsole t ht
    rw [Finset.sum_eq_single_of_mem r hr fun p _ hp => h0 p hp, h1]
  calc ∑ p ∈ places, ((H p).filter (· ∈ tokens)).card
      = ∑ p ∈ places, ∑ t ∈ tokens, (H p).count t := Finset.sum_congr rfl fun p _ => hcard p
    _ = ∑ t ∈ tokens, ∑ p ∈ places, (H p).count t := Finset.sum_comm
    _ = ∑ _t ∈ tokens, 1 := Finset.sum_congr rfl hone
    _ = tokens.card := (Finset.card_eq_sum_ones tokens).symm

end Custody
