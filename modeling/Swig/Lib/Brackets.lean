import Mathlib.Data.List.Basic

/-!
Texts in which one kind of brackets is balanced.
-/

namespace Brackets

variable {α : Type*}

/-- Every `o` has its `c`, and other letters stand for themselves. -/
inductive Balanced (o c : α) : List α → Prop
  | nil : Balanced o c []
  | letter {b : α} {s : List α} (hb : b ≠ o ∧ b ≠ c) (h : Balanced o c s) : Balanced o c (b :: s)
  | group {u s : List α} (hu : Balanced o c u) (h : Balanced o c s) : Balanced o c (o :: (u ++ c :: s))

namespace Balanced

variable {o c : α} {s t : List α}

/-- A text without brackets. -/
theorem of_plain (h : ∀ b ∈ s, b ≠ o ∧ b ≠ c) : Balanced o c s := by
  induction s with
  | nil => exact .nil
  | cons b s ih =>
      obtain ⟨hb, hs⟩ := List.forall_mem_cons.mp h
      exact .letter hb (ih hs)

theorem append (hs : Balanced o c s) (ht : Balanced o c t) : Balanced o c (s ++ t) := by
  induction hs with
  | nil => exact ht
  | letter hb _ ih => exact .letter hb ih
  | @group u s hu _ _ ih =>
      rw [List.cons_append, List.append_assoc, List.cons_append]
      exact .group hu ih

/-- Read from the end, the brackets change places. -/
theorem reverse (h : Balanced o c s) : Balanced c o s.reverse := by
  induction h with
  | nil => exact .nil
  | letter hb _ ih =>
      rw [List.reverse_cons]
      exact ih.append (.letter hb.symm .nil)
  | @group u s _ _ ihu ih =>
      have hgroup : Balanced c o (c :: (u.reverse ++ o :: [])) := .group ihu .nil
      have hrev : (o :: (u ++ c :: s)).reverse = s.reverse ++ (c :: (u.reverse ++ o :: [])) := by
        simp only [List.reverse_cons, List.reverse_append, List.append_assoc, List.cons_append, List.nil_append]
      rw [hrev]
      exact ih.append hgroup

end Balanced

end Brackets
