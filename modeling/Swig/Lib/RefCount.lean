import Mathlib.Data.List.Basic
import Mathlib.Data.List.Range
import Mathlib.Logic.Function.Basic
import Mathlib.Tactic.Common
import Mathlib.Algebra.GroupWithZero.Nat

/-!
Counting the references between numbered objects. `S c` lists what the slots of
object `c` refer to, and `owned o` says how many references to `o` are held
outside of them.
-/

namespace RefCount

/-- The number of slots of the first `n` objects that refer to `o`. -/
def slotCount (S : ℕ → List ℕ) (n o : ℕ) : ℕ := ((List.range n).map fun c => (S c).count o).sum

variable {S S' : ℕ → List ℕ} {owned : ℕ → ℕ} {n o c : ℕ}

theorem slotCount_succ (S : ℕ → List ℕ) (n o : ℕ) :
    slotCount S (n + 1) o = slotCount S n o + (S n).count o := by
  simp [slotCount, List.range_succ]

theorem slotCount_congr (h : ∀ c < n, (S' c).count o = (S c).count o) :
    slotCount S' n o = slotCount S n o := by
  induction n with
  | zero => rfl
  | succ n ih =>
      rw [slotCount_succ, slotCount_succ, ih fun c hc => h c (by omega), h n (by omega)]

/-- Other slots for one object. -/
theorem slotCount_update (h : c < n) (l : List ℕ) :
    slotCount (Function.update S c l) n o + (S c).count o = slotCount S n o + l.count o := by
  induction n with
  | zero => omega
  | succ n ih =>
      rw [slotCount_succ, slotCount_succ]
      by_cases hc : c = n
      · subst hc
        rw [Function.update_self, slotCount_congr fun d hd => by
          rw [Function.update_of_ne (by omega)]]
        omega
      · have := ih (by omega)
        rw [Function.update_of_ne (Ne.symm hc)]
        omega

theorem slotCount_pos_iff : 0 < slotCount S n o ↔ ∃ c < n, o ∈ S c := by
  induction n with
  | zero => simp [slotCount]
  | succ n ih =>
      rw [slotCount_succ, Nat.add_pos_iff_pos_or_pos, ih, List.count_pos_iff]
      constructor
      · rintro (⟨c, hc, ho⟩ | ho)
        · exact ⟨c, by omega, ho⟩
        · exact ⟨n, by omega, ho⟩
      · rintro ⟨c, hc, ho⟩
        rcases Nat.lt_succ_iff_lt_or_eq.mp hc with hlt | rfl
        · exact .inl ⟨c, hlt, ho⟩
        · exact .inr ho

/-- The objects a chain of slots leads to from a reference held outside. -/
inductive Held (owned : ℕ → ℕ) (S : ℕ → List ℕ) : ℕ → Prop
  | owner {o : ℕ} (h : 0 < owned o) : Held owned S o
  | slot {c o : ℕ} (hc : Held owned S c) (ho : o ∈ S c) : Held owned S o

theorem Held.exists_ref (h : Held owned S o) : 0 < owned o ∨ ∃ c, o ∈ S c := by
  cases h with
  | owner h => exact .inl h
  | slot hc ho => exact .inr ⟨_, ho⟩

/-- What is held stays held when the slots of the held objects do not lose it. -/
theorem Held.mono (h : Held owned S o) {owned' : ℕ → ℕ} (hown : ∀ o, 0 < owned o → 0 < owned' o)
    (hS : ∀ c, Held owned S c → ∀ o ∈ S c, o ∈ S' c) : Held owned' S' o := by
  induction h with
  | owner h => exact .owner (hown _ h)
  | slot hc ho ih => exact .slot ih (hS _ hc _ ho)

/-- No chain to an object needs the slots of the object itself. -/
theorem Held.update_self (h : Held owned S c) (l : List ℕ) :
    Held owned (Function.update S c l) c := by
  have hreach {o : ℕ} (ho : Held owned S o) : Held owned (Function.update S c l) c ∨
      Held owned (Function.update S c l) o := by
    induction ho with
    | owner ho => exact .inr (.owner ho)
    | @slot d o hd ho ih =>
        rcases ih with ih | ih
        · exact .inl ih
        · by_cases hdc : d = c
          · exact .inl (hdc ▸ ih)
          · exact .inr (.slot ih (by rwa [Function.update_of_ne hdc]))
  rcases hreach h with h | h <;> exact h

end RefCount
