import Mathlib.Data.Set.Basic
import Mathlib.Tactic.Common

/-!
Marking a graph from a node on. The search marks the node and goes through its
successors, on from each that is still free. A node is its own stop condition:
the search enters free nodes only, and marking a node makes it not free.
-/

namespace Marking

variable {α : Type*} {succ : α → List α} {F F' F'' : Set α} {a b : α} {bs : List α}

/-- The nodes reached from `a` through free nodes. -/
inductive Reach (succ : α → List α) (F : Set α) (a : α) : α → Prop
  | refl : Reach succ F a a
  | step {b c : α} (h : Reach succ F a b) (hc : c ∈ succ b) (hfree : c ∈ F) : Reach succ F a c

theorem Reach.mono (hF : F' ⊆ F) (h : Reach succ F' a b) : Reach succ F a b := by
  induction h with
  | refl => exact .refl
  | step h hc hfree ih => exact ih.step hc (hF hfree)

theorem Reach.trans {c : α} (h : Reach succ F a b) (h' : Reach succ F b c) : Reach succ F a c := by
  induction h' with
  | refl => exact h
  | step h' hc hfree ih => exact ih.step hc hfree

theorem Reach.mem (h : Reach succ F a b) (hb : b ≠ a) : b ∈ F := by
  cases h with
  | refl => exact absurd rfl hb
  | step h hc hfree => exact hfree

/-- A path either keeps to the free nodes or has a last node that is not free. -/
theorem Reach.last_taken (h : Reach succ Set.univ a b) :
    Reach succ F a b ∨ ∃ c ∉ F, Reach succ Set.univ c b := by
  induction h with
  | refl => exact .inl .refl
  | @step b c h hc hfree ih =>
      rcases ih with hab | ⟨d, hd, hdb⟩
      · by_cases hcF : c ∈ F
        · exact .inl (hab.step hc hcF)
        · exact .inr ⟨c, hcF, .refl⟩
      · exact .inr ⟨d, hd, hdb.step hc hfree⟩

/-- A path can be followed from its last visit to its first node on. -/
theorem Reach.last_start (h : Reach succ F a b) :
    b = a ∨ ∃ c ∈ succ a, c ∈ F \ {a} ∧ Reach succ (F \ {a}) c b := by
  induction h with
  | refl => exact .inl rfl
  | @step b c h hc hfree ih =>
      by_cases hca : c = a
      · exact .inl hca
      have hcF : c ∈ F \ {a} := ⟨hfree, hca⟩
      rcases ih with rfl | ⟨d, hd, hdF, hdb⟩
      · exact .inr ⟨c, hc, hcF, .refl⟩
      · exact .inr ⟨d, hd, hdF, hdb.step hc hcF⟩

/-- The search from `a` has dealt with the successors `bs`. The free nodes were
`F` and are now `F'`. -/
structure Visiting (succ : α → List α) (a : α) (bs : List α) (F F' : Set α) : Prop where
  subset : F' ⊆ F
  root : a ∉ F'
  done : ∀ b ∈ bs, b ∉ F'
  closed : ∀ b ∈ F, b ∉ F' → b ≠ a → ∀ c ∈ succ b, c ∉ F'
  reach : ∀ b ∈ F, b ∉ F' → Reach succ F a b

/-- The search from `a` is over. -/
abbrev Visited (succ : α → List α) (a : α) (F F' : Set α) : Prop := Visiting succ a (succ a) F F'

theorem Visiting.start (succ : α → List α) (a : α) (F : Set α) : Visiting succ a [] F (F \ {a}) where
  subset b hb := hb.1
  root h := h.2 rfl
  done := nofun
  closed b hb hb' hne := absurd ⟨hb, hne⟩ hb'
  reach b hb hb' := by
    have hab : b = a := by
      by_contra hne
      exact hb' ⟨hb, hne⟩
    rw [hab]
    exact .refl

/-- A successor that is not free is passed over. -/
theorem Visiting.skip (h : Visiting succ a bs F F') (hb : b ∉ F') : Visiting succ a (bs ++ [b]) F F' where
  subset := h.subset
  root := h.root
  done c hc := by
    rcases List.mem_append.mp hc with hc | hc
    · exact h.done c hc
    · rwa [List.mem_singleton.mp hc]
  closed := h.closed
  reach := h.reach

/-- The search goes on from a free successor. -/
theorem Visiting.visit (h : Visiting succ a bs F F') (hsucc : b ∈ succ a) (hb : b ∈ F')
    (h' : Visited succ b F' F'') : Visiting succ a (bs ++ [b]) F F'' where
  subset := h'.subset.trans h.subset
  root hmem := h.root (h'.subset hmem)
  done c hc := by
    rcases List.mem_append.mp hc with hc | hc
    · exact fun hmem => h.done c hc (h'.subset hmem)
    · rw [List.mem_singleton.mp hc]
      exact h'.root
  closed c hc hc'' hne d hd := by
    by_cases hc' : c ∈ F'
    · by_cases hcb : c = b
      · rw [hcb] at hd
        exact h'.done d hd
      · exact h'.closed c hc' hc'' hcb d hd
    · exact fun hmem => h.closed c hc hc' hne d hd (h'.subset hmem)
  reach c hc hc'' := by
    by_cases hc' : c ∈ F'
    · have hab : Reach succ F a b := Reach.refl.step hsucc (h.subset hb)
      exact hab.trans ((h'.reach c hc' hc'').mono h.subset)
    · exact h.reach c hc hc'

/-- The nodes still free are those that are not reached. -/
theorem Visiting.free_iff (h : Visited succ a F F') (b : α) : b ∈ F' ↔ b ∈ F ∧ ¬ Reach succ F a b := by
  have hreached (b : α) (hb : Reach succ F a b) : b ∉ F' := by
    induction hb with
    | refl => exact h.root
    | @step b c hb hc hfree ih =>
        by_cases hab : b = a
        · rw [hab] at hc
          exact h.done c hc
        · exact h.closed b (hb.mem hab) ih hab c hc
  constructor
  · intro hb
    exact ⟨h.subset hb, fun hr => hreached b hr hb⟩
  · rintro ⟨hb, hr⟩
    by_contra hb'
    exact hr (h.reach b hb hb')

end Marking
