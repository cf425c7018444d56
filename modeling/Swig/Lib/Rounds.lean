import Mathlib.Logic.Relation
import Swig.Lib.Fuel

/-!
Loops that may go on without end: a round of the loop goes wrong, ends the loop or leaves the state for the next
round. The loop returns exactly if it goes wrong in no state that it reaches, and the way from its first state is
well-founded; for that only the rounds count which do not lower a measure.
-/

namespace Rounds

open Fuel
open Relation (ReflTransGen TransGen transGen_swap)

inductive Round (α β : Type*)
  | stuck
  | done (b : β)
  | next (a : α)

variable {α β : Type*}

/-- The loop with the number of rounds that it is allowed. -/
def run (round : α → Round α β) : ℕ → α → Option β
  | 0, _ => none
  | fuel + 1, x =>
      match round x with
      | .stuck => none
      | .done b => some b
      | .next y => run round fuel y

/-- In the states with `P`, the rounds go wrong in the states with `Stuck`, and are the steps of `R` in the other
ones. -/
structure Describes (round : α → Round α β) (P : α → Prop) (R : α → α → Prop) (Stuck : α → Prop) :
    Prop where
  next_iff : ∀ x y, P x → ¬Stuck x → (round x = .next y ↔ R x y)
  stuck_iff : ∀ x, P x → (round x = .stuck ↔ Stuck x)
  keeps : ∀ x y, P x → R x y → P y

variable {round : α → Round α β} {P : α → Prop} {R : α → α → Prop}
  {Stuck : α → Prop} {m : α → ℕ} {x y : α} {b : β}

theorem run_next (h : round x = .next y) (fuel : ℕ) : run round (fuel + 1) x = run round fuel y := by
  rw [run, h]

namespace Describes

variable (h : Describes round P R Stuck)
include h

theorem next_of_run {n : ℕ} (hx : P x) (hrun : run round (n + 1) x = some b) (hxy : R x y) :
    run round n y = some b := by
  have hstuck : ¬Stuck x := fun hstuck => by
    rw [run, (h.stuck_iff x hx).mpr hstuck] at hrun
    cases hrun
  rwa [run_next ((h.next_iff x y hx hstuck).mpr hxy)] at hrun

theorem step_of_next (hx : P x) (hround : round x = .next y) : R x y := by
  refine (h.next_iff x y hx fun hstuck => ?_).mp hround
  cases hround.symm.trans ((h.stuck_iff x hx).mpr hstuck)

theorem not_stuck_of_run {n : ℕ} (hx : P x) (hrun : run round n x = some b) (hreach : ReflTransGen R x y) :
    ¬Stuck y := by
  induction n generalizing x with
  | zero => cases hrun
  | succ n ih =>
      obtain rfl | ⟨z, hxz, hzy⟩ := hreach.cases_head
      · intro hstuck
        rw [run, (h.stuck_iff _ hx).mpr hstuck] at hrun
        cases hrun
      · exact ih (h.keeps x z hx hxz) (h.next_of_run hx hrun hxz) hzy

theorem acc_of_run {n : ℕ} (hx : P x) (hrun : run round n x = some b) : Acc (fun y x => R x y) x := by
  induction n generalizing x with
  | zero => cases hrun
  | succ n ih =>
      exact ⟨x, fun y hxy => ih (h.keeps x y hx hxy) (h.next_of_run hx hrun hxy)⟩

theorem returns_of_acc (hx : P x) (hacc : Acc (fun y x => R x y) x) (hstuck : ∀ y, ReflTransGen R x y → ¬Stuck y) :
    ∃ b, Returns (fun n => run round n x) b := by
  induction hacc with
  | intro x _ ih =>
      cases hround : round x with
      | stuck => exact absurd ((h.stuck_iff x hx).mp hround) (hstuck x .refl)
      | done b => exact ⟨b, ((Returns.const b).congr fun n => by rw [run, hround]).of_succ⟩
      | next y =>
          have hxy := h.step_of_next hx hround
          obtain ⟨b, hb⟩ := ih y hxy (h.keeps x y hx hxy) fun z hyz => hstuck z (hyz.head hxy)
          exact ⟨b, (hb.congr fun n => run_next hround n).of_succ⟩

/-- A loop returns if and only if it goes wrong nowhere, and there is no endless way. -/
theorem returns_iff (hx : P x) : (∃ b, Returns (fun n => run round n x) b) ↔
    (∀ y, ReflTransGen R x y → ¬Stuck y) ∧ Acc (fun y x => R x y) x := by
  constructor
  · rintro ⟨b, N, hN⟩
    have hrun := hN N (Nat.le_refl N)
    exact ⟨fun y hreach => h.not_stuck_of_run hx hrun hreach, h.acc_of_run hx hrun⟩
  · rintro ⟨hstuck, hacc⟩
    exact h.returns_of_acc hx hacc hstuck

/-- The state in which a loop has ended. -/
theorem done_of_run {n : ℕ} (hx : P x) (hrun : run round n x = some b) : ∃ y, P y ∧ round y = .done b := by
  induction n generalizing x with
  | zero => cases hrun
  | succ n ih =>
      rw [run] at hrun
      cases hround : round x with
      | stuck =>
          rw [hround] at hrun
          cases hrun
      | done b' =>
          rw [hround] at hrun
          exact ⟨x, hx, hround.trans (congrArg Round.done (Option.some.inj hrun))⟩
      | next y =>
          rw [hround] at hrun
          exact ih (h.keeps x y hx (h.step_of_next hx hround)) hrun

/-- With a measure that every round lowers, a loop ends within that many rounds. -/
theorem run_isSome_iff (hm : ∀ x y, P x → R x y → m y < m x) (hx : P x) :
    (run round (m x + 1) x).isSome ↔ ∀ y, ReflTransGen R x y → ¬Stuck y := by
  constructor
  · intro hsome y hreach
    obtain ⟨b, hb⟩ := Option.isSome_iff_exists.mp hsome
    exact h.not_stuck_of_run hx hb hreach
  · intro hstuck
    have hrun (n : ℕ) (hn : m x < n) : (run round n x).isSome := by
      induction n generalizing x with
      | zero => exact absurd hn (Nat.not_lt_zero _)
      | succ n ih =>
          rw [run]
          cases hround : round x with
          | stuck => exact absurd ((h.stuck_iff x hx).mp hround) (hstuck x .refl)
          | done b => rfl
          | next y =>
              have hxy := h.step_of_next hx hround
              have hlt := hm x y hx hxy
              exact ih (h.keeps x y hx hxy) (fun z hyz => hstuck z (hyz.head hxy)) (by omega)
    exact hrun _ (Nat.lt_succ_self _)

end Describes

/-- The rounds that lower the measure, and at their end one that does not. -/
def Raises (R : α → α → Prop) (m : α → ℕ) (x y : α) : Prop :=
  ∃ z, ReflTransGen (fun x y => R x y ∧ m y < m x) x z ∧ R z y ∧ m z ≤ m y

/-- An endless way does not lower a measure in the end: only the rounds that do not lower it count. -/
theorem acc_iff_raises : Acc (fun y x => R x y) x ↔ Acc (fun y x => Raises R m x y) x := by
  constructor
  · intro hacc
    refine Subrelation.accessible (fun {y x} h => ?_) (acc_transGen_iff.mpr hacc)
    obtain ⟨z, hxz, hzy, -⟩ := h
    exact transGen_swap.mpr (TransGen.tail' (hxz.lift id fun _ _ h => h.1) hzy)
  · intro hacc
    induction hacc with
    | intro x _ ih =>
        have hlower (n : ℕ) (z : α) (hz : m z = n) (hxz : ReflTransGen (fun x y => R x y ∧ m y < m x) x z) :
            Acc (fun y x => R x y) z := by
          induction n using Nat.strongRecOn generalizing z with
          | ind n ihn =>
              refine ⟨z, fun y hzy => ?_⟩
              by_cases hlt : m y < m z
              · exact ihn (m y) (hz ▸ hlt) y rfl (hxz.tail ⟨hzy, hlt⟩)
              · exact ih y ⟨z, hxz, hzy, Nat.le_of_not_lt hlt⟩
        exact hlower (m x) x rfl .refl

end Rounds
