import Mathlib.Tactic

/-! # A line, first in first out

What entered a line, what left it, and what is inside, each in order (`Line`).  Things enter
at the end and leave at the front (`Line.Step`), so what entered is what left followed by
what is inside (`Line.Step.fifo`), and what left is a prefix of what entered. -/

namespace Fifo

/-- What entered, what left and what is inside. -/
structure Line (α : Type*) where
  entered : List α
  left : List α
  inside : List α

namespace Line

variable {α : Type*} {l l' : Line α}

/-- One thing enters at the end, or the first one leaves, or nothing happens. -/
inductive Step (l : Line α) : Line α → Prop
  | stay : Step l l
  | enter (x : α) : Step l ⟨l.entered ++ [x], l.left, l.inside ++ [x]⟩
  | leave {x : α} {xs : List α} (h : l.inside = x :: xs) : Step l ⟨l.entered, l.left ++ [x], xs⟩

/-- Nothing was lost, doubled or overtaken. -/
def InOrder (l : Line α) : Prop := l.entered = l.left ++ l.inside

theorem Step.inOrder (h : l.Step l') (hl : l.InOrder) : l'.InOrder := by
  unfold InOrder at hl ⊢
  cases h with
  | stay => exact hl
  | enter x => rw [hl, List.append_assoc]
  | leave hin => rw [hl, hin, List.append_assoc, List.singleton_append]

theorem InOrder.left_isPrefix (h : l.InOrder) : l.left <+: l.entered :=
  ⟨l.inside, h.symm⟩

end Line

end Fifo
