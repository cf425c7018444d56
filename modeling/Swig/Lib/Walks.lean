import Mathlib.Data.Fintype.Order
import Mathlib.Logic.Relation

/-!
Walks in a finite graph. They all come to an end exactly if no cycle is reached; where
every node has one successor at most, this is about one walk.
-/

namespace Walks

open Relation

variable {α : Type*} {r : α → α → Prop} {next : α → Option α} {a b c : α}

/-- From `a` on, no node comes back to itself. -/
def Acyclic (r : α → α → Prop) (a : α) : Prop := ∀ b, ReflTransGen r a b → ¬TransGen r b b

theorem Acyclic.of_rel (h : Acyclic r a) (hab : r a b) : Acyclic r b := fun c hc => h c (.head hab hc)

/-- A node that reaches a cycle has a successor that does. -/
theorem exists_of_not_acyclic (h : ¬Acyclic r a) : ∃ b, r a b ∧ ¬Acyclic r b := by
  obtain ⟨c, hc⟩ := not_forall.mp h
  obtain ⟨hac, hcycle⟩ := Classical.not_imp.mp hc
  have hcycle := not_not.mp hcycle
  obtain rfl | ⟨b, hab, hbc⟩ := hac.cases_head
  · obtain ⟨b, hab, hba⟩ := TransGen.head'_iff.mp hcycle
    exact ⟨b, hab, fun hb => hb a hba hcycle⟩
  · exact ⟨b, hab, fun hb => hb c hbc hcycle⟩

/-- In a finite graph every walk from a node ends that reaches no cycle. -/
theorem Acyclic.acc [Finite α] (h : Acyclic r a) : Acc (flip r) a := by
  let Later (x y : { b // ReflTransGen r a b }) : Prop := TransGen r y.1 x.1
  have htrans : IsTrans _ Later := ⟨fun x y z hxy hyz => hyz.trans hxy⟩
  have hirrefl : Std.Irrefl Later := ⟨fun x hx => h x.1 x.2 hx⟩
  have hwf : WellFounded Later := Finite.wellFounded_of_trans_of_irrefl Later
  suffices hall : ∀ x : { b // ReflTransGen r a b }, Acc (flip r) x.1 from hall ⟨a, .refl⟩
  intro x
  induction x using hwf.induction with
  | _ x ih => exact ⟨_, fun b hb => ih ⟨b, x.2.tail hb⟩ (.single hb)⟩

/-! ### One successor at most -/

/-- The last node of the walk from `a`, in at most `n` rounds. -/
def walk (next : α → Option α) : ℕ → α → Option α
  | 0, _ => none
  | n + 1, a =>
      match next a with
      | none => some a
      | some b => walk next n b

/-- `b` is the successor of `a`. -/
def Leads (next : α → Option α) (a b : α) : Prop := next a = some b

theorem Leads.acyclic (h : Leads next a b) (hb : Acyclic (Leads next) b) : Acyclic (Leads next) a := by
  by_contra ha
  obtain ⟨c, hc, hcycle⟩ := exists_of_not_acyclic ha
  obtain rfl : b = c := Option.some.inj (h.symm.trans hc)
  exact hcycle hb

theorem acyclic_of_walk {n : ℕ} (h : (walk next n a).isSome) : Acyclic (Leads next) a := by
  induction n generalizing a with
  | zero => cases h
  | succ n ih =>
      cases hnext : next a with
      | none =>
          by_contra ha
          obtain ⟨b, hb, -⟩ := exists_of_not_acyclic ha
          cases hnext.symm.trans hb
      | some b =>
          have hlead : Leads next a b := hnext
          rw [walk, hnext] at h
          exact hlead.acyclic (ih h)

theorem walk_of_acyclic [Finite α] (h : Acyclic (Leads next) a) : ∃ n, (walk next n a).isSome := by
  induction h.acc with
  | intro a _ ih =>
      cases hnext : next a with
      | none => exact ⟨1, by rw [walk, hnext]; rfl⟩
      | some b =>
          have hlead : Leads next a b := hnext
          obtain ⟨n, hn⟩ := ih b hlead (h.of_rel hlead)
          exact ⟨n + 1, by rwa [walk, hnext]⟩

theorem exists_walk_iff [Finite α] : (∃ n, (walk next n a).isSome) ↔ Acyclic (Leads next) a :=
  ⟨fun ⟨_, hn⟩ => acyclic_of_walk hn, walk_of_acyclic⟩

/-! ### Loops with a result -/

variable {β : Type*} {round : α → β ⊕ α}

/-- The loop that is left with a result or goes on with a node, in at most `n` rounds. -/
def chase (round : α → β ⊕ α) : ℕ → α → Option β
  | 0, _ => none
  | n + 1, a =>
      match round a with
      | .inl r => some r
      | .inr b => chase round n b

/-- The node that a round goes on with. -/
def goesOn (round : α → β ⊕ α) (a : α) : Option α := (round a).getRight?

theorem chase_isSome (n : ℕ) (a : α) : (chase round n a).isSome = (walk (goesOn round) n a).isSome := by
  induction n generalizing a with
  | zero => rfl
  | succ n ih =>
      rw [chase, walk, goesOn]
      cases round a with
      | inl r => rfl
      | inr b => exact ih b

theorem exists_chase_iff [Finite α] : (∃ n, (chase round n a).isSome) ↔ Acyclic (Leads (goesOn round)) a := by
  simp only [chase_isSome]
  exact exists_walk_iff

theorem chase_mono {n m : ℕ} {r : β} (h : chase round n a = some r) (hle : n ≤ m) : chase round m a = some r := by
  induction n generalizing a m with
  | zero => cases h
  | succ n ih =>
      obtain ⟨m, rfl⟩ := Nat.exists_eq_add_of_le' (Nat.le_trans (Nat.succ_le_succ (Nat.zero_le n)) hle)
      rw [chase] at h ⊢
      cases hround : round a with
      | inl r' =>
          rw [hround] at h
          exact h
      | inr b =>
          rw [hround] at h
          exact ih h (Nat.le_of_succ_le_succ hle)

end Walks
