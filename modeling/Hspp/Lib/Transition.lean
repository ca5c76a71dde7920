import Mathlib.Tactic
import Mathlib.Logic.Relation

/-! # Labelled transition systems

A system is a partial step function `step : S → A → Option S`; an action that is not enabled
gives `none`.  `Reachable step ok s s'` says that `s'` is the state after some run from `s`
in which every action satisfies `ok` in the state it is taken in; without a condition on the
run `ok` is `fun _ _ => True`.  `Reachable.induct` is the invariant rule.

`logged step record` is the system together with a log of what `record` says of each action;
the log does not hold the system back, and its runs are runs of the system. -/

namespace Transition

variable {S A : Type*}

/-- `s'` is reached from `s` by a run whose actions all satisfy `ok`. -/
def Reachable (step : S → A → Option S) (ok : S → A → Prop) : S → S → Prop :=
  Relation.ReflTransGen fun s s' => ∃ a, ok s a ∧ step s a = some s'

/-- The runs without a condition. -/
abbrev Always : S → A → Prop := fun _ _ => True

variable {step : S → A → Option S} {ok : S → A → Prop} {s s' s'' : S}

theorem Reachable.refl (s : S) : Reachable step ok s s := Relation.ReflTransGen.refl

theorem Reachable.tail (h : Reachable step ok s s') {a : A} (ha : ok s' a)
    (hs : step s' a = some s'') : Reachable step ok s s'' :=
  Relation.ReflTransGen.tail h ⟨a, ha, hs⟩

theorem Reachable.trans (h : Reachable step ok s s') (h' : Reachable step ok s' s'') :
    Reachable step ok s s'' := Relation.ReflTransGen.trans h h'

/-- **Invariant rule**: what holds at the start and is kept by every step holds of every
state reached. -/
theorem Reachable.induct {I : S → Prop} (h : Reachable step ok s s') (h0 : I s)
    (hstep : ∀ t a t', Reachable step ok s t → I t → ok t a → step t a = some t' → I t') :
    I s' := by
  induction h with
  | refl => exact h0
  | tail hr ha ih =>
      obtain ⟨a, hok, hs⟩ := ha
      exact hstep _ a _ hr ih hok hs

/-! ### Logs -/

variable {E : Type*}

/-- The system with a log, to which every action adds what `record` says of it. -/
def logged (step : S → A → Option S) (record : S → A → List E) (x : S × List E) (a : A) :
    Option (S × List E) :=
  (step x.1 a).map fun s => (s, x.2 ++ record x.1 a)

variable {record : S → A → List E} {x y : S × List E} {a : A}

theorem logged_eq_some :
    logged step record x a = some y ↔ step x.1 a = some y.1 ∧ y.2 = x.2 ++ record x.1 a := by
  simp only [logged, Option.map_eq_some_iff, Prod.ext_iff]
  constructor
  · rintro ⟨s, hs, rfl, hlog⟩
    exact ⟨hs, hlog.symm⟩
  · rintro ⟨hs, hlog⟩
    exact ⟨y.1, hs, rfl, hlog.symm⟩

theorem Reachable.of_logged {ok : S × List E → A → Prop}
    (h : Reachable (logged step record) ok x y) : Reachable step Always x.1 y.1 := by
  refine h.induct (I := fun y => Reachable step Always x.1 y.1) (.refl _) ?_
  intro y a z _ hy _ hs
  exact hy.tail trivial (logged_eq_some.mp hs).1

theorem Reachable.tail_logged {ok : S × List E → A → Prop} {log : List E}
    (h : Reachable (logged step record) ok x (s, log)) (ha : ok (s, log) a)
    (hs : step s a = some s') :
    Reachable (logged step record) ok x (s', log ++ record s a) :=
  h.tail ha (logged_eq_some.mpr ⟨hs, rfl⟩)

end Transition
