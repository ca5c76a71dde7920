import Mathlib.Tactic

/-! # Loops as iterated bodies

A `while` loop is its body, `body : S → S ⊕ R`: `.inl s'` goes round again in the state
`s'`, `.inr r` leaves the loop with the result `r`.  Nothing says that a loop ends.

* `run body k s` executes the body at most `k` times; it is the executable form.
* `Reaches body s s'` and `Exits body s r` forget the number of rounds.  The result does
  not depend on it (`Exits.unique`), and a loop may be followed round by round
  (`Exits.step`, `exits_iff_of_inl`, `Reaches.cases_head`).
* `exits_of_measure` is the variant rule, which also bounds the number of rounds, and
  `not_exits_of_invariant` shows that a loop runs for ever.
* A loop inside a program runs there as it does alone (`run_map`).
* `traced emit body` is the loop with what its rounds put out.  It runs as `body` does
  (`run_traced`), and what a round keeps true of the output holds in the end
  (`run_traced_induct`). -/

namespace Loop

variable {S R : Type*}

/-- Execute the body at most `k` times. -/
def run (body : S → S ⊕ R) : ℕ → S → S ⊕ R
  | 0, s => .inl s
  | k + 1, s => match body s with
    | .inl s' => run body k s'
    | .inr r => .inr r

/-- `s'` is the state after some number of rounds from `s`. -/
def Reaches (body : S → S ⊕ R) (s s' : S) : Prop := ∃ k, run body k s = .inl s'

/-- The loop started in `s` leaves with the result `r`. -/
def Exits (body : S → S ⊕ R) (s : S) (r : R) : Prop := ∃ k, run body k s = .inr r

variable {body : S → S ⊕ R} {s s' s'' : S} {r r' : R}

@[simp] theorem run_zero (s : S) : run body 0 s = .inl s := rfl

theorem run_succ_of_inl (k : ℕ) (h : body s = .inl s') : run body (k + 1) s = run body k s' := by
  simp [run, h]

theorem run_succ_of_inr (k : ℕ) (h : body s = .inr r) : run body (k + 1) s = .inr r := by
  simp [run, h]

/-- `j + k` rounds are `j` rounds and then `k` rounds. -/
theorem run_add_of_inl : ∀ {j : ℕ} {s : S} (k : ℕ), run body j s = .inl s' →
    run body (j + k) s = run body k s'
  | 0, s, k, h => by
      cases h
      rw [Nat.zero_add]
  | j + 1, s, k, h => by
      cases hb : body s with
      | inl t =>
          rw [run_succ_of_inl j hb] at h
          rw [show j + 1 + k = j + k + 1 by omega, run_succ_of_inl _ hb]
          exact run_add_of_inl k h
      | inr t =>
          rw [run_succ_of_inr j hb] at h
          cases h

/-- Once the loop has left, more fuel changes nothing. -/
theorem run_add_of_inr : ∀ {j : ℕ} {s : S} (k : ℕ), run body j s = .inr r →
    run body (j + k) s = .inr r
  | 0, _, _, h => by cases h
  | j + 1, s, k, h => by
      rw [show j + 1 + k = j + k + 1 by omega]
      cases hb : body s with
      | inl t =>
          rw [run_succ_of_inl j hb] at h
          rw [run_succ_of_inl _ hb]
          exact run_add_of_inr k h
      | inr t =>
          rw [run_succ_of_inr j hb] at h
          rw [run_succ_of_inr _ hb, h]

theorem run_mono {j k : ℕ} (hjk : j ≤ k) (h : run body j s = .inr r) : run body k s = .inr r := by
  obtain ⟨d, rfl⟩ := Nat.exists_eq_add_of_le hjk
  exact run_add_of_inr d h

/-! ### Reached states and results -/

theorem Reaches.refl (s : S) : Reaches body s s := ⟨0, rfl⟩

theorem Reaches.trans (h₁ : Reaches body s s') (h₂ : Reaches body s' s'') :
    Reaches body s s'' := by
  obtain ⟨j, hj⟩ := h₁
  obtain ⟨k, hk⟩ := h₂
  exact ⟨j + k, by rw [run_add_of_inl k hj, hk]⟩

theorem Reaches.single (h : body s = .inl s') : Reaches body s s' :=
  ⟨1, by rw [run_succ_of_inl 0 h, run_zero]⟩

theorem Exits.single (h : body s = .inr r) : Exits body s r := ⟨1, run_succ_of_inr 0 h⟩

theorem Exits.of_reaches (h₁ : Reaches body s s') (h₂ : Exits body s' r) : Exits body s r := by
  obtain ⟨j, hj⟩ := h₁
  obtain ⟨k, hk⟩ := h₂
  exact ⟨j + k, by rw [run_add_of_inl k hj, hk]⟩

theorem Exits.step (h : body s = .inl s') (hx : Exits body s' r) : Exits body s r :=
  .of_reaches (.single h) hx

theorem Exits.unique (h : Exits body s r) (h' : Exits body s r') : r = r' := by
  obtain ⟨j, hj⟩ := h
  obtain ⟨k, hk⟩ := h'
  have h₁ := run_mono (Nat.le_max_left j k) hj
  have h₂ := run_mono (Nat.le_max_right j k) hk
  exact Sum.inr.inj (h₁.symm.trans h₂)

/-- What a loop does from `s` is what it does after its first round. -/
theorem exits_iff_of_inl (h : body s = .inl s') : Exits body s r ↔ Exits body s' r := by
  refine ⟨fun ⟨k, hk⟩ => ?_, Exits.step h⟩
  cases k with
  | zero => cases hk
  | succ k => exact ⟨k, by rwa [run_succ_of_inl k h] at hk⟩

/-- And what it does after any number of rounds. -/
theorem exits_iff_of_reaches (h : Reaches body s s') : Exits body s r ↔ Exits body s' r := by
  refine ⟨fun hx => ?_, Exits.of_reaches h⟩
  obtain ⟨k, hk⟩ := h
  induction k generalizing s with
  | zero => cases hk; exact hx
  | succ k ih =>
      cases hb : body s with
      | inl t => exact ih ((exits_iff_of_inl hb).mp hx) (by rwa [run_succ_of_inl k hb] at hk)
      | inr r' =>
          rw [run_succ_of_inr k hb] at hk
          cases hk

/-- A loop whose body keeps going round inside `I` never leaves. -/
theorem not_exits_of_invariant {I : S → Prop} (hs : I s)
    (hstep : ∀ t, I t → ∃ t', body t = .inl t' ∧ I t') : ¬ Exits body s r := by
  rintro ⟨k, hk⟩
  induction k generalizing s with
  | zero => cases hk
  | succ k ih =>
      obtain ⟨t, ht, hI⟩ := hstep s hs
      exact ih hI (by rwa [run_succ_of_inl k ht] at hk)

/-- The first round is taken before every state reached but the first. -/
theorem Reaches.cases_head (h : Reaches body s s') :
    s' = s ∨ ∃ t, body s = .inl t ∧ Reaches body t s' := by
  obtain ⟨k, hk⟩ := h
  cases k with
  | zero => exact .inl (Sum.inl.inj hk).symm
  | succ k =>
      cases hb : body s with
      | inl t => exact .inr ⟨t, rfl, k, by rwa [run_succ_of_inl k hb] at hk⟩
      | inr r =>
          rw [run_succ_of_inr k hb] at hk
          cases hk

/-- What holds between a state and itself, and is kept by a round before it, holds between a
state and those reached from it. -/
theorem Reaches.rel {P : S → S → Prop} (hrefl : ∀ s, P s s)
    (hstep : ∀ {s t u}, body s = .inl t → P t u → P s u) (h : Reaches body s s') : P s s' := by
  obtain ⟨k, hk⟩ := h
  induction k generalizing s with
  | zero =>
      cases hk
      exact hrefl _
  | succ k ih =>
      cases hb : body s with
      | inl t => exact hstep hb (ih (by rwa [run_succ_of_inl k hb] at hk))
      | inr r =>
          rw [run_succ_of_inr k hb] at hk
          cases hk

/-- Of two states reached one is reached from the other. -/
theorem Reaches.total (h : Reaches body s s') (h' : Reaches body s s'') :
    Reaches body s' s'' ∨ Reaches body s'' s' := by
  obtain ⟨j, hj⟩ := h
  obtain ⟨k, hk⟩ := h'
  rcases Nat.le_total j k with hle | hle
  · obtain ⟨d, rfl⟩ := Nat.exists_eq_add_of_le hle
    exact .inl ⟨d, by rwa [run_add_of_inl d hj] at hk⟩
  · obtain ⟨d, rfl⟩ := Nat.exists_eq_add_of_le hle
    exact .inr ⟨d, by rwa [run_add_of_inl d hk] at hj⟩

/-! ### Invariants and variants -/

/-- **Exit rule**: what follows of the result from an invariant holds of it. -/
theorem Exits.of_invariant {I : S → Prop} {Q : R → Prop} (h : Exits body s r) (hs : I s)
    (hinl : ∀ t t', I t → body t = .inl t' → I t') (hinr : ∀ t r, I t → body t = .inr r → Q r) :
    Q r := by
  obtain ⟨k, hk⟩ := h
  induction k generalizing s with
  | zero => cases hk
  | succ k ih =>
      cases hb : body s with
      | inl t => exact ih (hinl s t hs hb) (by rwa [run_succ_of_inl k hb] at hk)
      | inr r' =>
          rw [run_succ_of_inr k hb] at hk
          exact Sum.inr.inj hk ▸ hinr s r' hs hb

/-- **Step rule**: what every round keeps, for the next state or the result, holds after any
number of rounds. -/
theorem run_induct {P : S ⊕ R → Prop} (hstep : ∀ t, P (.inl t) → P (body t)) (hs : P (.inl s))
    (k : ℕ) : P (run body k s) := by
  induction k generalizing s with
  | zero => exact hs
  | succ k ih =>
      have hnext := hstep s hs
      cases hb : body s with
      | inl t =>
          rw [run_succ_of_inl k hb]
          exact ih (hb ▸ hnext)
      | inr r =>
          rw [run_succ_of_inr k hb]
          exact hb ▸ hnext

/-- **Variant rule**: a measure that every further round decreases bounds the number of
rounds before the loop leaves. -/
theorem exits_of_measure {I : S → Prop} (μ : S → ℕ)
    (hstep : ∀ t t', I t → body t = .inl t' → I t' ∧ μ t' < μ t) (hs : I s) :
    ∃ k ≤ μ s, ∃ r, run body (k + 1) s = .inr r := by
  induction hμ : μ s using Nat.strong_induction_on generalizing s with
  | _ n ih =>
      cases hb : body s with
      | inr r => exact ⟨0, Nat.zero_le _, r, run_succ_of_inr 0 hb⟩
      | inl t =>
          obtain ⟨hI, hlt⟩ := hstep s t hs hb
          obtain ⟨k, hk, r, hr⟩ := ih (μ t) (hμ ▸ hlt) hI rfl
          exact ⟨k + 1, by omega, r, by rw [run_succ_of_inl (k + 1) hb, hr]⟩

/-- Every further round that is taken from `s` on decreases the measure. -/
def Descends (body : S → S ⊕ R) (μ : S → ℕ) (s : S) : Prop :=
  ∀ t t', Reaches body s t → body t = .inl t' → μ t' < μ t

theorem descends_of_inr {μ : S → ℕ} (h : body s = .inr r) : Descends body μ s := by
  intro t t' ht hstep
  rcases ht.cases_head with rfl | ⟨u, hu, _⟩
  · rw [h] at hstep
    cases hstep
  · rw [h] at hu
    cases hu

theorem descends_of_inl {μ : S → ℕ} (h : body s = .inl s') (hlt : μ s' < μ s)
    (hs : Descends body μ s') : Descends body μ s := by
  intro t t' ht hstep
  rcases ht.cases_head with rfl | ⟨u, hu, hut⟩
  · rw [h] at hstep
    cases hstep
    exact hlt
  · rw [h] at hu
    cases hu
    exact hs t t' hut hstep

/-! ### A loop inside a program -/

section mapped

variable {S' : Type*} {prog : S' → S' ⊕ R} {f : S → S'}

/-- A program whose steps from the states `f s` are the rounds of a loop runs as the loop does. -/
theorem run_map (h : ∀ s, prog (f s) = (body s).map f id) : ∀ (k : ℕ) (s : S),
    run prog k (f s) = (run body k s).map f id
  | 0, _ => rfl
  | k + 1, s => by
      have hstep := h s
      cases hb : body s with
      | inl t =>
          rw [hb] at hstep
          rw [run_succ_of_inl k hb, run_succ_of_inl k hstep, run_map h k]
      | inr r =>
          rw [hb] at hstep
          rw [run_succ_of_inr k hb, run_succ_of_inr k hstep]
          rfl

theorem reaches_map_iff (h : ∀ s, prog (f s) = (body s).map f id) (hf : Function.Injective f) :
    Reaches prog (f s) (f s') ↔ Reaches body s s' := by
  refine exists_congr fun k => ?_
  rw [run_map h]
  cases run body k s with
  | inl t => simp only [Sum.map_inl, Sum.inl.injEq, hf.eq_iff]
  | inr r => exact iff_of_false (fun hx => by cases hx) (fun hx => by cases hx)

theorem exits_map_iff (h : ∀ s, prog (f s) = (body s).map f id) :
    Exits prog (f s) r ↔ Exits body s r := by
  refine exists_congr fun k => ?_
  rw [run_map h]
  cases run body k s with
  | inl t => exact iff_of_false (fun hx => by cases hx) (fun hx => by cases hx)
  | inr r' => simp only [Sum.map_inr, id_eq, Sum.inr.injEq]

end mapped

/-! ### Output -/

section traced

variable {O : Type*} [Append O] {emit : S → O}

/-- The loop with its output: the round from `s` puts out `emit s`, also if it is the last. -/
def traced (emit : S → O) (body : S → S ⊕ R) (s : S × O) : (S × O) ⊕ (R × O) :=
  match body s.1 with
  | .inl t => .inl (t, s.2 ++ emit s.1)
  | .inr r => .inr (r, s.2 ++ emit s.1)

variable (emit) in
/-- Output does not change the run. -/
theorem run_traced : ∀ (k : ℕ) (s : S) (o : O),
    (run (traced emit body) k (s, o)).map Prod.fst Prod.fst = run body k s
  | 0, _, _ => rfl
  | k + 1, s, o => by
      cases hb : body s with
      | inl t =>
          have hround : traced emit body (s, o) = .inl (t, o ++ emit s) := by simp only [traced, hb]
          rw [run_succ_of_inl k hb, run_succ_of_inl k hround, run_traced k]
      | inr r =>
          have hround : traced emit body (s, o) = .inr (r, o ++ emit s) := by simp only [traced, hb]
          rw [run_succ_of_inr k hb, run_succ_of_inr k hround]
          rfl

theorem run_of_run_traced {k : ℕ} {o o' : O} (h : run (traced emit body) k (s, o) = .inr (r, o')) :
    run body k s = .inr r := by
  rw [← run_traced emit k s o, h]
  rfl

/-- **Output rule**: what holds of no output and is kept by the rounds that a loop makes before
it leaves with `r` holds of its output. -/
theorem run_traced_induct {P : O → Prop}
    (hinl : ∀ s t o, body s = .inl t → Exits body t r → P o → P (o ++ emit s))
    (hinr : ∀ s o, body s = .inr r → P o → P (o ++ emit s)) {k : ℕ} {s : S} {o o' : O}
    (h : run (traced emit body) k (s, o) = .inr (r, o')) (ho : P o) : P o' := by
  induction k generalizing s o with
  | zero => cases h
  | succ k ih =>
      cases hb : body s with
      | inl t =>
          have hround : traced emit body (s, o) = .inl (t, o ++ emit s) := by simp only [traced, hb]
          rw [run_succ_of_inl k hround] at h
          exact ih h (hinl s t o hb ⟨k, run_of_run_traced h⟩ ho)
      | inr r' =>
          have hround : traced emit body (s, o) = .inr (r', o ++ emit s) := by
            simp only [traced, hb]
          rw [run_succ_of_inr k hround] at h
          obtain ⟨rfl, rfl⟩ := Prod.mk.inj (Sum.inr.inj h)
          exact hinr s o hb ho

end traced

end Loop
