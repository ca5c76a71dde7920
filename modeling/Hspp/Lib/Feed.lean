import Mathlib.Tactic

/-! # Feeding a list to a stateful consumer

A consumer `f : S → C → S × E` takes one item at a time, keeps a state and answers; an answer
for which `halts` holds ends the feeding.  `feed f halts s cs` is the abstract meaning of a
loop that hands the items of `cs` to a callback in order and leaves at the first halting
answer: the state at the end, the items taken, and the answer that ended it, if any. -/

namespace Feed

variable {S C E : Type*}

/-- The result of feeding: last state, items taken, halting answer. -/
structure Fed (S C E : Type*) where
  st : S
  taken : List C
  halt : Option E

variable (f : S → C → S × E) (halts : E → Prop) [DecidablePred halts]

/-- Hand the items to the consumer in order, up to the first halting answer. -/
def feed : S → List C → Fed S C E
  | s, [] => ⟨s, [], none⟩
  | s, c :: cs =>
      if halts (f s c).2 then ⟨(f s c).1, [c], some (f s c).2⟩
      else
        let r := feed (f s c).1 cs
        ⟨r.st, c :: r.taken, r.halt⟩

variable {f halts} {s : S} {c : C} {cs : List C}

@[simp] theorem feed_nil (s : S) : feed f halts s [] = ⟨s, [], none⟩ := rfl

theorem feed_cons_of_halts (h : halts (f s c).2) :
    feed f halts s (c :: cs) = ⟨(f s c).1, [c], some (f s c).2⟩ := by
  rw [feed, if_pos h]

theorem feed_cons_of_not (h : ¬ halts (f s c).2) :
    feed f halts s (c :: cs) = ⟨(feed f halts (f s c).1 cs).st,
      c :: (feed f halts (f s c).1 cs).taken, (feed f halts (f s c).1 cs).halt⟩ := by
  rw [feed, if_neg h]

/-- After a halting answer nothing of a later list is taken. -/
theorem feed_append_of_some {e : E} (ds : List C) : ∀ (cs : List C) (s : S),
    (feed f halts s cs).halt = some e → feed f halts s (cs ++ ds) = feed f halts s cs
  | [], _, h => by cases h
  | c :: cs, s, he => by
      rw [List.cons_append]
      by_cases h : halts (f s c).2
      · rw [feed_cons_of_halts h, feed_cons_of_halts h]
      · rw [feed_cons_of_not h] at he
        rw [feed_cons_of_not h, feed_cons_of_not h, feed_append_of_some ds cs _ he]

/-- Without one, feeding goes on with the later list. -/
theorem feed_append_of_none (ds : List C) : ∀ (cs : List C) (s : S),
    (feed f halts s cs).halt = none →
    feed f halts s (cs ++ ds) = ⟨(feed f halts (feed f halts s cs).st ds).st,
      cs ++ (feed f halts (feed f halts s cs).st ds).taken,
      (feed f halts (feed f halts s cs).st ds).halt⟩
  | [], _, _ => rfl
  | c :: cs, s, hn => by
      by_cases h : halts (f s c).2
      · rw [feed_cons_of_halts h] at hn
        cases hn
      · rw [feed_cons_of_not h] at hn
        rw [List.cons_append, feed_cons_of_not h, feed_cons_of_not h,
          feed_append_of_none ds cs _ hn]
        rfl

/-- Without one everything is taken. -/
theorem taken_of_halt_none (h : (feed f halts s cs).halt = none) :
    (feed f halts s cs).taken = cs := by
  have happ := feed_append_of_none [] cs s h
  rw [List.append_nil] at happ
  rw [happ, feed_nil, List.append_nil]

end Feed
