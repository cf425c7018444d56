import Mathlib.Algebra.GroupWithZero.Nat
import Mathlib.Data.List.Basic
import Mathlib.Data.Nat.Notation
import Mathlib.Tactic.Common

/-!
Hashing block by block: a state, a function that takes in one block of `n`
items, and the items that do not fill a block yet.

A message may come in any number of parts. What is left open by one part stands
in front of the next, so the parts do the same as the message in one piece.
-/

namespace BlockHash

variable {α S : Type*} (n : ℕ) (compress : S → List α → S)

/-- The state after every whole block of `xs`, and what is left of `xs`. -/
def absorb [NeZero n] (s : S) (xs : List α) : S × List α :=
  if n ≤ xs.length then absorb (compress s (xs.take n)) (xs.drop n) else (s, xs)
termination_by xs.length
decreasing_by
  have := Nat.pos_of_neZero n
  rw [List.length_drop]
  omega

variable {n compress} [NeZero n] {s : S} {xs ys b : List α}

theorem absorb_lt (h : xs.length < n) : absorb n compress s xs = (s, xs) := by
  rw [absorb, if_neg (Nat.not_le.mpr h)]

theorem absorb_block (h : b.length = n) :
    absorb n compress s (b ++ xs) = absorb n compress (compress s b) xs := by
  rw [absorb, if_pos (by rw [List.length_append]; omega), List.take_left' h, List.drop_left' h]

/-- A message is some whole blocks and less than a block. -/
theorem block_induction {P : List α → Prop} (hlt : ∀ xs : List α, xs.length < n → P xs)
    (hblock : ∀ b xs : List α, b.length = n → P xs → P (b ++ xs)) (xs : List α) : P xs := by
  have hn := Nat.pos_of_neZero n
  induction hk : xs.length using Nat.strongRecOn generalizing xs with
  | ind k ih =>
      rcases Nat.lt_or_ge xs.length n with h | h
      · exact hlt xs h
      · have hdrop : (xs.drop n).length < k := by
          rw [List.length_drop]
          omega
        have := hblock (xs.take n) (xs.drop n) (by rw [List.length_take]; omega) (ih _ hdrop (xs.drop n) rfl)
        rwa [List.take_append_drop] at this

theorem absorb_length_lt : (absorb n compress s xs).2.length < n := by
  induction xs using block_induction (n := n) generalizing s with
  | hlt xs h => rwa [absorb_lt h]
  | hblock b xs hb ih =>
      rw [absorb_block hb]
      exact ih

/-- Two parts, one after the other. -/
theorem absorb_append (xs : List α) : absorb n compress s (xs ++ ys) =
    absorb n compress (absorb n compress s xs).1 ((absorb n compress s xs).2 ++ ys) := by
  induction xs using block_induction (n := n) generalizing s with
  | hlt xs h => rw [absorb_lt h]
  | hblock b xs hb ih => rw [List.append_assoc, absorb_block hb, absorb_block hb, ih]

/-- What is left open is the message's length, less whole blocks. -/
theorem absorb_length : (absorb n compress s xs).2.length = xs.length % n := by
  induction xs using block_induction (n := n) generalizing s with
  | hlt xs h => rw [absorb_lt h, Nat.mod_eq_of_lt h]
  | hblock b xs hb ih => rw [absorb_block hb, ih, List.length_append, hb, Nat.add_mod_left]

/-- Blocks only change the part of the state that `compress` changes. -/
theorem absorb_map {T : Type*} {f : S → T} {compress' : T → List α → T}
    (hf : ∀ s b, f (compress s b) = compress' (f s) b) :
    absorb n compress' (f s) xs = (f (absorb n compress s xs).1, (absorb n compress s xs).2) := by
  induction xs using block_induction (n := n) generalizing s with
  | hlt xs h => rw [absorb_lt h, absorb_lt h]
  | hblock b xs hb ih => rw [absorb_block hb, absorb_block hb, ← hf, ih]

end BlockHash
