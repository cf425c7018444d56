import Mathlib.Logic.Function.Basic
import Mathlib.Data.List.Nodup
import Mathlib.Tactic.Common

/-!
Circular singly linked lists in a heap of next pointers.

The heap is a function `next : α → Option α`, where `none` is the null pointer.
A list is seen from one of its members: `IsRing next x xs` says that following
`next` from `x` visits `xs`, each once, and arrives at `x` again.
-/

namespace CircularList

variable {α : Type*} {next : α → Option α}

/-- Following `next` from `x` visits `xs` in order and then arrives at `e`. -/
def Path (next : α → Option α) : α → List α → α → Prop
  | x, [], e => next x = some e
  | x, y :: ys, e => next x = some y ∧ Path next y ys e

/-- The circular list through `x`, whose other members are `xs`. -/
structure IsRing (next : α → Option α) (x : α) (xs : List α) : Prop where
  path : Path next x xs x
  nodup : (x :: xs).Nodup

theorem Path.append {x y e : α} {xs ys : List α} (h₁ : Path next x xs y)
    (h₂ : Path next y ys e) : Path next x (xs ++ y :: ys) e := by
  induction xs generalizing x with
  | nil => exact ⟨h₁, h₂⟩
  | cons z zs ih => exact ⟨h₁.1, ih h₁.2⟩

theorem Path.of_append {x y e : α} {xs ys : List α} (h : Path next x (xs ++ y :: ys) e) :
    Path next x xs y ∧ Path next y ys e := by
  induction xs generalizing x with
  | nil => exact h
  | cons z zs ih =>
      have := ih h.2
      exact ⟨⟨h.1, this.1⟩, this.2⟩

/-- Only the pointers of the cells passed matter. -/
theorem Path.congr {next' : α → Option α} {x e : α} {xs : List α} (h : Path next x xs e)
    (hsame : ∀ y ∈ x :: xs, next' y = next y) : Path next' x xs e := by
  induction xs generalizing x with
  | nil => exact (hsame x (by simp)).trans h
  | cons y ys ih =>
      exact ⟨(hsame x (by simp)).trans h.1, ih h.2 fun z hz => hsame z (by simp [hz])⟩

/-- Every cell passed points to another one, or to the end. -/
theorem Path.next_mem {x e : α} {xs : List α} (h : Path next x xs e) {y : α}
    (hy : y ∈ x :: xs) : ∃ z ∈ xs ++ [e], next y = some z := by
  induction xs generalizing x with
  | nil =>
      obtain rfl : y = x := by simpa using hy
      exact ⟨e, by simp, h⟩
  | cons w ws ih =>
      rcases List.mem_cons.mp hy with rfl | hy
      · exact ⟨w, by simp, h.1⟩
      · obtain ⟨z, hz, hnext⟩ := ih h.2 hy
        exact ⟨z, List.mem_cons_of_mem _ hz, hnext⟩

/-- The part of a path up to one of its cells. -/
theorem Path.takeWhile [DecidableEq α] {x y e : α} {xs : List α} (h : Path next x xs e)
    (hy : y ∈ xs) : Path next x (xs.takeWhile (· ≠ y)) y := by
  induction xs generalizing x with
  | nil => cases hy
  | cons z zs ih =>
      by_cases hz : z = y
      · rw [List.takeWhile_cons_of_neg (by simpa using hz)]
        exact hz ▸ h.1
      · rw [List.takeWhile_cons_of_pos (by simpa using hz)]
        exact ⟨h.1, ih h.2 ((List.mem_cons.mp hy).resolve_left (Ne.symm hz))⟩

namespace IsRing

variable {x : α} {xs : List α}

theorem single (h : next x = some x) : IsRing next x [] := ⟨h, by simp⟩

theorem congr {next' : α → Option α} (h : IsRing next x xs)
    (hsame : ∀ y ∈ x :: xs, next' y = next y) : IsRing next' x xs :=
  ⟨h.path.congr hsame, h.nodup⟩

theorem next_mem (h : IsRing next x xs) {y : α} (hy : y ∈ x :: xs) :
    ∃ z ∈ x :: xs, next y = some z := by
  obtain ⟨z, hz, hnext⟩ := h.path.next_mem hy
  exact ⟨z, by simpa [or_comm] using hz, hnext⟩

theorem next_ne_none (h : IsRing next x xs) {y : α} (hy : y ∈ x :: xs) : next y ≠ none := by
  obtain ⟨z, -, hz⟩ := h.next_mem hy
  simp [hz]

/-- The same circular list seen from another member. -/
theorem rotate (h : IsRing next x xs) {y : α} (hy : y ∈ x :: xs) :
    ∃ ys, IsRing next y ys ∧ (y :: ys).Perm (x :: xs) := by
  rcases List.mem_cons.mp hy with rfl | hy
  · exact ⟨xs, h, List.Perm.refl _⟩
  · obtain ⟨as, bs, rfl⟩ := List.append_of_mem hy
    obtain ⟨hpre, hpost⟩ := h.path.of_append
    have hperm : (y :: (bs ++ x :: as)).Perm (x :: (as ++ y :: bs)) := by
      have : (y :: bs ++ x :: as).Perm (x :: as ++ y :: bs) := List.perm_append_comm
      simpa using this
    exact ⟨bs ++ x :: as, ⟨hpost.append hpre, hperm.nodup_iff.mpr h.nodup⟩, hperm⟩

/-- Every member is pointed to by a member. -/
theorem exists_pred (h : IsRing next x xs) : ∃ y ∈ x :: xs, next y = some x := by
  have key : ∀ (x : α) (xs : List α) (e : α), Path next x xs e →
      ∃ y ∈ x :: xs, next y = some e := by
    intro x xs
    induction xs generalizing x with
    | nil => exact fun e h => ⟨x, by simp, h⟩
    | cons w ws ih =>
        intro e h
        obtain ⟨y, hy, hnext⟩ := ih w e h.2
        exact ⟨y, List.mem_cons_of_mem _ hy, hnext⟩
  exact key x xs x h.path

/-- A set closed under `next` that holds one member holds them all. -/
theorem subset_of_closed (h : IsRing next x xs) {S : α → Prop} (hx : S x)
    (hclosed : ∀ y z, S y → next y = some z → S z) : ∀ y ∈ x :: xs, S y := by
  have key : ∀ (xs : List α) (x e : α), S x → Path next x xs e → ∀ y ∈ x :: xs, S y := by
    intro xs
    induction xs with
    | nil => exact fun x e hx _ y hy => List.mem_singleton.mp hy ▸ hx
    | cons w ws ih =>
        intro x e hx hp y hy
        rcases List.mem_cons.mp hy with rfl | hy
        · exact hx
        · exact ih w e (hclosed x w hx hp.1) hp.2 y hy
  exact key xs x x hx h.path

/-- Two circular lists with a common member have the same members. -/
theorem mem_iff_of_mem {y z : α} {ys : List α} (h : IsRing next x xs) (h' : IsRing next y ys)
    (hz : z ∈ x :: xs) (hz' : z ∈ y :: ys) (w : α) : w ∈ x :: xs ↔ w ∈ y :: ys := by
  have step {a b c : α} {as bs : List α} (ha : IsRing next a as) (hb : IsRing next b bs)
      (hca : c ∈ a :: as) (hcb : c ∈ b :: bs) : ∀ w ∈ a :: as, w ∈ b :: bs := by
    obtain ⟨cs, hc, hperm⟩ := ha.rotate hca
    intro w hw
    refine hc.subset_of_closed (S := fun v => v ∈ b :: bs) hcb ?_ w (hperm.mem_iff.mpr hw)
    intro u v hu huv
    obtain ⟨v', hv', huv'⟩ := hb.next_mem hu
    exact Option.some.inj (huv.symm.trans huv') ▸ hv'
  exact ⟨step h h' hz hz' w, step h' h hz' hz w⟩

/-- A member is pointed to by one member only. -/
theorem pred_unique (h : IsRing next x xs) {y z w : α} (hy : y ∈ x :: xs) (hz : z ∈ x :: xs)
    (hyw : next y = some w) (hzw : next z = some w) : y = z := by
  obtain ⟨ys, hring, hperm⟩ := h.rotate hy
  have hz' : z ∈ y :: ys := hperm.mem_iff.mpr hz
  rcases List.mem_cons.mp hz' with rfl | hz'
  · rfl
  · exfalso
    obtain ⟨as, bs, rfl⟩ := List.append_of_mem hz'
    obtain ⟨hpre, hpost⟩ := hring.path.of_append
    have hnodup := hring.nodup
    cases as with
    | nil =>
        have hyz : next y = some z := hpre
        obtain rfl : z = w := Option.some.inj (hyz.symm.trans hyw)
        cases bs with
        | nil =>
            obtain rfl : y = z := Option.some.inj (Eq.trans (Eq.symm hpost) hzw)
            simp at hnodup
        | cons b bs =>
            obtain rfl : b = z := Option.some.inj (hpost.1.symm.trans hzw)
            simp at hnodup
    | cons a as =>
        obtain rfl : a = w := Option.some.inj (hpre.1.symm.trans hyw)
        cases bs with
        | nil =>
            obtain rfl : y = a := Option.some.inj (Eq.trans (Eq.symm hpost) hzw)
            simp at hnodup
        | cons b bs =>
            obtain rfl : b = a := Option.some.inj (hpost.1.symm.trans hzw)
            simp at hnodup

variable [DecidableEq α]

/-- Linking a new cell in after `x`: the new cell takes over the pointer of `x`. -/
theorem splice (h : IsRing next x xs) {m : α} (hm : m ∉ x :: xs) :
    IsRing (Function.update (Function.update next m (next x)) x (some m)) x (m :: xs) := by
  have hxm : x ≠ m := fun e => hm (by simp [e])
  have hnodup : (x :: m :: xs).Nodup := by
    have := h.nodup
    simp only [List.nodup_cons, List.mem_cons, not_or] at hm this ⊢
    exact ⟨⟨hxm, this.1⟩, hm.2, this.2⟩
  refine ⟨⟨by simp, ?_⟩, hnodup⟩
  cases xs with
  | nil => simpa [Path, hxm.symm] using h.path
  | cons y ys =>
      refine ⟨by simpa [hxm.symm] using h.path.1, h.path.2.congr ?_⟩
      intro z hz
      have hzx : z ≠ x := by
        rintro rfl
        exact (List.nodup_cons.mp h.nodup).1 hz
      have hzm : z ≠ m := by
        rintro rfl
        exact hm (List.mem_cons_of_mem _ hz)
      simp [hzx, hzm]

end IsRing

/-! ### Walking a list

`do { if f x finds something, return it; x = x->next } while (x != stop)`. -/

/-- The walk from `x` up to `stop` with at most `n` cells visited; `none` when
it does not end within them or follows a null pointer. -/
def walk {β : Type*} [DecidableEq α] (next : α → Option α) (f : α → Option β) (stop : α) :
    ℕ → α → Option (Option β)
  | 0, _ => none
  | n + 1, x =>
      match f x with
      | some b => some (some b)
      | none =>
          match next x with
          | none => none
          | some y => if y = stop then some none else walk next f stop n y

/-- The walk along a path looks at the start and at every cell before `stop`. -/
theorem walk_of_path {β : Type*} [DecidableEq α] {f : α → Option β} {x stop : α} {xs : List α}
    {n : ℕ} (h : Path next x xs stop) (hstop : stop ∉ xs) (hn : xs.length < n) :
    walk next f stop n x = some ((x :: xs).findSome? f) := by
  induction xs generalizing x n with
  | nil =>
      obtain ⟨m, rfl⟩ : ∃ m, n = m + 1 := ⟨n - 1, by omega⟩
      have hnext : next x = some stop := h
      cases hf : f x <;> simp [walk, hf, hnext]
  | cons y ys ih =>
      obtain ⟨m, rfl⟩ : ∃ m, n = m + 1 := ⟨n - 1, by omega⟩
      have hys : y ≠ stop := fun e => hstop (by simp [e])
      have := ih h.2 (fun hmem => hstop (by simp [hmem])) (n := m) (by simpa using hn)
      cases hf : f x with
      | some b => simp [walk, hf]
      | none =>
          rw [List.findSome?_cons, hf]
          simpa [walk, hf, h.1, hys] using this

/-- The walk all the way round a circular list. -/
theorem walk_of_ring {β : Type*} [DecidableEq α] {f : α → Option β} {x : α} {xs : List α}
    {n : ℕ} (h : IsRing next x xs) (hn : xs.length < n) :
    walk next f x n x = some ((x :: xs).findSome? f) :=
  walk_of_path h.path (List.nodup_cons.mp h.nodup).1 hn

theorem walk_mono {β : Type*} [DecidableEq α] {f : α → Option β} {x stop : α} {n m : ℕ}
    {r : Option β} (h : walk next f stop n x = some r) (hnm : n ≤ m) :
    walk next f stop m x = some r := by
  induction n generalizing x m with
  | zero => simp [walk] at h
  | succ n ih =>
      obtain ⟨m, rfl⟩ : ∃ k, m = k + 1 := ⟨m - 1, by omega⟩
      cases hf : f x with
      | some b => simpa [walk, hf] using h
      | none =>
          cases hx : next x with
          | none => simp [walk, hf, hx] at h
          | some y =>
              by_cases hy : y = stop
              · simpa [walk, hf, hx, hy] using h
              · simp only [walk, hf, hx, hy, if_false] at h ⊢
                exact ih h (by omega)

/-- Only what `f` finds at the cells passed matters. -/
theorem walk_congr {β : Type*} [DecidableEq α] {f g : α → Option β} {x stop : α} {n : ℕ}
    (hfg : ∀ y, y ≠ stop → f y = g y) (hx : x ≠ stop) :
    walk next f stop n x = walk next g stop n x := by
  induction n generalizing x with
  | zero => rfl
  | succ n ih =>
      simp only [walk, hfg x hx]
      cases g x with
      | some b => rfl
      | none =>
          cases next x with
          | none => rfl
          | some y =>
              by_cases hy : y = stop
              · simp [hy]
              · simp only [hy, if_false, ih hy]

end CircularList
