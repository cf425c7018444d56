import Mathlib.Tactic.Common

/-!
Two runs of computations that may fail, compared step by step.

`Agree E R x y` says that both computations give results related by `R`, or both
fail with errors related by `E`.
-/

namespace TwoRuns

universe u v

variable {ε ε' : Type*} {α α' : Type u} {β β' : Type v} {E : ε → ε' → Prop}

inductive Agree (E : ε → ε' → Prop) (R : α → β → Prop) : Except ε α → Except ε' β → Prop
  | ok {a : α} {b : β} (h : R a b) : Agree E R (.ok a) (.ok b)
  | error {e : ε} {e' : ε'} (h : E e e') : Agree E R (.error e) (.error e')

theorem Agree.mono {R S : α → β → Prop} {x : Except ε α} {y : Except ε' β} (h : Agree E R x y)
    (hRS : ∀ a b, R a b → S a b) : Agree E S x y := by
  cases h with
  | ok h => exact .ok (hRS _ _ h)
  | error h => exact .error h

/-- What comes after two computations that agree may rely on their results being
related. -/
theorem Agree.bind_of_eq {R : α → β → Prop} {S : α' → β' → Prop} {x : Except ε α}
    {y : Except ε' β} {f : α → Except ε α'} {g : β → Except ε' β'} (h : Agree E R x y)
    (hfg : ∀ a b, x = .ok a → y = .ok b → R a b → Agree E S (f a) (g b)) :
    Agree E S (x >>= f) (y >>= g) := by
  cases h with
  | ok h => exact hfg _ _ rfl rfl h
  | error h => exact .error h

theorem Agree.bind {R : α → β → Prop} {S : α' → β' → Prop} {x : Except ε α} {y : Except ε' β}
    {f : α → Except ε α'} {g : β → Except ε' β'} (h : Agree E R x y)
    (hfg : ∀ a b, R a b → Agree E S (f a) (g b)) : Agree E S (x >>= f) (y >>= g) :=
  h.bind_of_eq fun a b _ _ => hfg a b

/-- Two branchings on conditions that mean the same. -/
theorem Agree.ite {R : α → β → Prop} {p q : Prop} [Decidable p] [Decidable q] (hpq : p ↔ q)
    {x x' : Except ε α} {y y' : Except ε' β} (h : p → q → Agree E R x y)
    (h' : ¬p → ¬q → Agree E R x' y') :
    Agree E R (if p then x else x') (if q then y else y') := by
  by_cases hp : p
  · rw [if_pos hp, if_pos (hpq.mp hp)]
    exact h hp (hpq.mp hp)
  · rw [if_neg hp, if_neg fun hq => hp (hpq.mpr hq)]
    exact h' hp fun hq => hp (hpq.mpr hq)

end TwoRuns
