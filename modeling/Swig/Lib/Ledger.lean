import Mathlib.Data.Nat.Notation
import Mathlib.Tactic.Common
import Mathlib.Algebra.GroupWithZero.Nat

/-!
Runs of a step function over a list of inputs, and what is gained and lost on
the way.

A quantity of the state grows with each input by its weight, up to what the
step gains and loses. The balance of a run sums the gains and the losses over
its steps, each taken at the state before the step.
-/

namespace Ledger

variable {S I : Type} (step : S → I → Option S)

def run : S → List I → Option S
  | s, [] => some s
  | s, i :: is => (step s i).bind (run · is)

/-- The property holds at every step the run takes, of the state before it. -/
def Throughout (P : S → I → Prop) : S → List I → Prop
  | _, [] => True
  | s, i :: is => P s i ∧ ∀ t, step s i = some t → Throughout P t is

/-- The sum over the steps the run takes. -/
def total (f : S → I → ℕ) : S → List I → ℕ
  | _, [] => 0
  | s, i :: is => f s i + (step s i).elim 0 (total f · is)

variable {step} {P Q : S → I → Prop} {Inv : S → Prop} {s t : S} {is : List I}

theorem run_cons (i : I) : run step s (i :: is) = some t ↔ ∃ u, step s i = some u ∧ run step u is = some t := by
  rw [run, Option.bind_eq_some_iff]

theorem total_cons {f : S → I → ℕ} {i : I} (h : step s i = some t) :
    total step f s (i :: is) = f s i + total step f t is := by
  rw [total, h, Option.elim_some]

theorem throughout_cons {i : I} (h : step s i = some t) :
    Throughout step P s (i :: is) ↔ P s i ∧ Throughout step P t is := by
  rw [Throughout, h]
  simp

/-- Two properties that agree where the invariant holds, which a step taken under `R`
keeps. -/
theorem throughout_congr {R : S → I → Prop} (hkeep : ∀ s i t, Inv s → R s i → step s i = some t → Inv t)
    (h : ∀ s i, Inv s → (P s i ↔ Q s i)) (hs : Inv s) (hR : Throughout step R s is) :
    Throughout step P s is ↔ Throughout step Q s is := by
  induction is generalizing s with
  | nil => exact Iff.rfl
  | cons i is ih =>
      obtain ⟨hi, hR⟩ := hR
      refine and_congr (h s i hs) (forall₂_congr fun t ht => ?_)
      exact ih (hkeep s i t hs hi ht) (hR t ht)

theorem throughout_and :
    Throughout step (fun s i => P s i ∧ Q s i) s is ↔ Throughout step P s is ∧ Throughout step Q s is := by
  induction is generalizing s with
  | nil => simp [Throughout]
  | cons i is ih =>
      simp only [Throughout, ih]
      constructor
      · rintro ⟨⟨hp, hq⟩, h⟩
        exact ⟨⟨hp, fun t ht => (h t ht).1⟩, hq, fun t ht => (h t ht).2⟩
      · rintro ⟨⟨hp, hps⟩, hq, hqs⟩
        exact ⟨⟨hp, hq⟩, fun t ht => ⟨hps t ht, hqs t ht⟩⟩

theorem run_isSome_iff : (∃ t, run step s is = some t) ↔ Throughout step (fun s i => ∃ t, step s i = some t) s is := by
  induction is generalizing s with
  | nil => exact ⟨fun _ => trivial, fun _ => ⟨s, rfl⟩⟩
  | cons i is ih =>
      constructor
      · rintro ⟨t, ht⟩
        obtain ⟨u, hu, ht⟩ := (run_cons i).mp ht
        rw [throughout_cons hu]
        exact ⟨⟨u, hu⟩, ih.mp ⟨t, ht⟩⟩
      · rintro ⟨⟨u, hu⟩, h⟩
        obtain ⟨t, ht⟩ := ih.mpr (h u hu)
        exact ⟨t, (run_cons i).mpr ⟨u, hu, ht⟩⟩

/-- From what a step gains and loses, what a run does. -/
theorem run_balance {amount : S → ℕ} {weight : I → ℕ} {gain loss : S → I → ℕ}
    (hstep : ∀ s i t, Inv s → P s i → step s i = some t →
      Inv t ∧ amount t + loss s i = amount s + weight i + gain s i)
    (hs : Inv s) (hP : Throughout step P s is) (hrun : run step s is = some t) :
    Inv t ∧ amount t + total step loss s is = amount s + (is.map weight).sum + total step gain s is := by
  induction is generalizing s with
  | nil =>
      obtain rfl := Option.some.inj hrun
      exact ⟨hs, rfl⟩
  | cons i is ih =>
      obtain ⟨u, hu, hrun⟩ := (run_cons i).mp hrun
      obtain ⟨hi, his⟩ := (throughout_cons hu).mp hP
      obtain ⟨hinv, hone⟩ := hstep s i u hs hi hu
      obtain ⟨hinv, hrest⟩ := ih hinv his hrun
      rw [total_cons hu, total_cons hu, List.map_cons, List.sum_cons]
      exact ⟨hinv, by omega⟩

instance decidableThroughout [∀ s i, Decidable (P s i)] (s : S) (is : List I) : Decidable (Throughout step P s is) :=
  match is with
  | [] => inferInstanceAs (Decidable True)
  | i :: is =>
      match h : step s i with
      | none => decidable_of_iff (P s i) (by simp [Throughout, h])
      | some t =>
          have := decidableThroughout t is
          decidable_of_iff (P s i ∧ Throughout step P t is) (throughout_cons h).symm

end Ledger
