import Mathlib.Data.List.Perm.Basic
import Mathlib.Order.Defs.LinearOrder
import Mathlib.Tactic.Common

/-!
The sort by exchanges: each place of a list is compared with the places behind it, as far as
they have the same rank, and the two entries may change places. The entries may be written
to; what is sorted are their keys.
-/

namespace ExchangeSort

variable {α β : Type*}

/-! ### The sort -/

/-- One place against those behind it, up to the first of another rank. -/
def pass (rank : α → ℕ) (compare : α → α → α × α) : α → List α → α × List α
  | c, [] => (c, [])
  | c, x :: xs =>
      if rank x = rank c then
        let r := compare c x
        let s := pass rank compare r.1 xs
        (s.1, r.2 :: s.2)
      else (c, x :: xs)

/-- The first `n` places, one after the other. -/
def passes (rank : α → ℕ) (compare : α → α → α × α) : ℕ → List α → List α
  | n + 1, c :: xs =>
      let s := pass rank compare c xs
      s.1 :: passes rank compare n s.2
  | _, l => l

def exchangeSort (rank : α → ℕ) (compare : α → α → α × α) (l : List α) : List α :=
  passes rank compare l.length l

/-- What a comparison of two `good` entries of one rank does to their keys: either they stay and
the second is not better, or they change places, where the first is not better and whatever is
better than the second is better than the first. Only entries of one rank are better or worse. -/
structure Exchanges (key : α → β) (good : β → Prop) (rank : α → ℕ) (better : β → β → Prop)
    (compare : α → α → α × α) : Prop where
  ranked : ∀ c x, better (key x) (key c) → rank x = rank c
  first : ∀ c x, rank x = rank c → rank (compare c x).1 = rank c
  second : ∀ c x, rank x = rank c → rank (compare c x).2 = rank x
  step : ∀ c x, good (key c) → good (key x) → rank x = rank c →
    (key (compare c x).1 = key c ∧ key (compare c x).2 = key x ∧ ¬better (key x) (key c)) ∨
    (key (compare c x).1 = key x ∧ key (compare c x).2 = key c ∧ ¬better (key c) (key x) ∧
      ∀ z, better z (key x) → better z (key c))

namespace Exchanges

variable {key : α → β} {good : β → Prop} {rank : α → ℕ} {better : β → β → Prop} {compare : α → α → α × α}
  {c x : α} {xs l : List α}

theorem perm_step (h : Exchanges key good rank better compare) (hc : good (key c)) (hx : good (key x))
    (hrank : rank x = rank c) : [key (compare c x).1, key (compare c x).2].Perm [key c, key x] := by
  obtain ⟨h₁, h₂, -⟩ | ⟨h₁, h₂, -⟩ := h.step c x hc hx hrank
  · rw [h₁, h₂]
  · simpa only [h₁, h₂] using List.Perm.swap _ _ _

theorem good_step (h : Exchanges key good rank better compare) (hgood : ∀ a ∈ c :: x :: xs, good (key a))
    (hrank : rank x = rank c) : good (key (compare c x).1) ∧ good (key (compare c x).2) := by
  have hc := hgood c List.mem_cons_self
  have hx := hgood x (List.mem_cons_of_mem c List.mem_cons_self)
  obtain ⟨h₁, h₂, -⟩ | ⟨h₁, h₂, -⟩ := h.step c x hc hx hrank
  · rw [h₁, h₂]
    exact ⟨hc, hx⟩
  · rw [h₁, h₂]
    exact ⟨hx, hc⟩

theorem good_rest (h : Exchanges key good rank better compare) (hgood : ∀ a ∈ c :: x :: xs, good (key a))
    (hrank : rank x = rank c) : ∀ a ∈ (compare c x).1 :: xs, good (key a) := by
  intro a ha
  obtain rfl | ha := List.mem_cons.mp ha
  · exact (h.good_step hgood hrank).1
  · exact hgood a (List.mem_cons_of_mem c (List.mem_cons_of_mem x ha))

/-! ### A pass -/

theorem perm_pass (h : Exchanges key good rank better compare) (hgood : ∀ a ∈ c :: xs, good (key a)) :
    (key (pass rank compare c xs).1 :: (pass rank compare c xs).2.map key).Perm (key c :: xs.map key) := by
  induction xs generalizing c with
  | nil => exact .refl _
  | cons x xs ih =>
      rw [pass]
      by_cases hrank : rank x = rank c
      · rw [if_pos hrank]
        have hx := hgood x (List.mem_cons_of_mem c List.mem_cons_self)
        have hrest := ih (h.good_rest hgood hrank)
        have hstep := h.perm_step (hgood c List.mem_cons_self) hx hrank
        exact (List.Perm.swap _ _ _).trans <| (hrest.cons _).trans <| (List.Perm.swap _ _ _).trans <|
          hstep.append_right (xs.map key)
      · rw [if_neg hrank]

theorem rank_pass (h : Exchanges key good rank better compare) (c : α) (xs : List α) :
    rank (pass rank compare c xs).1 = rank c ∧ (pass rank compare c xs).2.map rank = xs.map rank := by
  induction xs generalizing c with
  | nil => exact ⟨rfl, rfl⟩
  | cons x xs ih =>
      rw [pass]
      by_cases hrank : rank x = rank c
      · rw [if_pos hrank]
        obtain ⟨hfirst, hrest⟩ := ih (compare c x).1
        refine ⟨hfirst.trans (h.first c x hrank), ?_⟩
        rw [List.map_cons, List.map_cons, hrest, h.second c x hrank]
      · rw [if_neg hrank]
        exact ⟨rfl, rfl⟩

theorem good_pass (h : Exchanges key good rank better compare) (hgood : ∀ a ∈ c :: xs, good (key a)) :
    ∀ a ∈ (pass rank compare c xs).2, good (key a) := by
  intro a ha
  have hmem : key a ∈ (c :: xs).map key :=
    (h.perm_pass hgood).mem_iff.mp (List.mem_cons_of_mem _ (List.mem_map_of_mem ha))
  obtain ⟨b, hb, hkey⟩ := List.mem_map.mp hmem
  rw [← hkey]
  exact hgood b hb

/-- Behind a pass no entry is better than the first. -/
theorem first_pass (h : Exchanges key good rank better compare) (hgood : ∀ a ∈ c :: xs, good (key a))
    (hsorted : (c :: xs).Pairwise fun a b => rank a ≤ rank b) :
    (∀ z, better z (key (pass rank compare c xs).1) → better z (key c)) ∧
      ∀ y ∈ (pass rank compare c xs).2, ¬better (key y) (key (pass rank compare c xs).1) := by
  induction xs generalizing c with
  | nil => exact ⟨fun _ hz => hz, fun _ hy => by cases hy⟩
  | cons x xs ih =>
      obtain ⟨hc, hxs⟩ := List.pairwise_cons.mp hsorted
      obtain ⟨hx, htail⟩ := List.pairwise_cons.mp hxs
      rw [pass]
      by_cases hrank : rank x = rank c
      · rw [if_pos hrank]
        have hrest : ((compare c x).1 :: xs).Pairwise fun a b => rank a ≤ rank b :=
          List.pairwise_cons.mpr ⟨fun y hy => h.first c x hrank ▸ hc y (List.mem_cons_of_mem x hy), htail⟩
        obtain ⟨hbetter, hlater⟩ := ih (h.good_rest hgood hrank) hrest
        obtain ⟨hfirst, hsecond, hno⟩ | ⟨hfirst, hsecond, hno, hup⟩ := h.step c x (hgood c List.mem_cons_self)
          (hgood x (List.mem_cons_of_mem c List.mem_cons_self)) hrank
        · rw [hfirst] at hbetter
          refine ⟨hbetter, fun y hy hlow => ?_⟩
          obtain rfl | hy := List.mem_cons.mp hy
          · rw [hsecond] at hlow
            exact hno (hbetter _ hlow)
          · exact hlater y hy hlow
        · rw [hfirst] at hbetter
          refine ⟨fun z hlow => hup z (hbetter z hlow), fun y hy hlow => ?_⟩
          obtain rfl | hy := List.mem_cons.mp hy
          · rw [hsecond] at hlow
            exact hno (hbetter _ hlow)
          · exact hlater y hy hlow
      · rw [if_neg hrank]
        refine ⟨fun _ hz => hz, fun y hy hlow => ?_⟩
        have hsame := h.ranked c y hlow
        have hcx := hc x List.mem_cons_self
        obtain rfl | hy := List.mem_cons.mp hy
        · exact hrank hsame
        · have hxy := hx y hy
          omega

/-! ### All passes -/

theorem perm_passes (h : Exchanges key good rank better compare) (hgood : ∀ a ∈ l, good (key a)) (n : ℕ) :
    ((passes rank compare n l).map key).Perm (l.map key) := by
  induction n generalizing l with
  | zero => exact .refl _
  | succ n ih =>
      cases l with
      | nil => exact .refl _
      | cons c xs => exact ((ih (h.good_pass hgood)).cons _).trans (h.perm_pass hgood)

theorem map_rank_passes (h : Exchanges key good rank better compare) (n : ℕ) :
    (passes rank compare n l).map rank = l.map rank := by
  induction n generalizing l with
  | zero => rfl
  | succ n ih =>
      cases l with
      | nil => rfl
      | cons c xs =>
          obtain ⟨hfirst, hrest⟩ := h.rank_pass c xs
          rw [passes, List.map_cons, List.map_cons, ih, hfirst, hrest]

theorem sorted_of_map_rank {l l' : List α} (h : l'.map rank = l.map rank)
    (hsorted : l.Pairwise fun a b => rank a ≤ rank b) : l'.Pairwise fun a b => rank a ≤ rank b := by
  refine (List.pairwise_map (R := (· ≤ ·))).mp ?_
  rw [h]
  exact List.pairwise_map.mpr hsorted

theorem pairwise_passes (h : Exchanges key good rank better compare) (hgood : ∀ a ∈ l, good (key a))
    (hsorted : l.Pairwise fun a b => rank a ≤ rank b) {n : ℕ} (hn : l.length ≤ n) :
    (passes rank compare n l).Pairwise fun a b => ¬better (key b) (key a) := by
  induction n generalizing l with
  | zero =>
      obtain rfl := List.length_eq_zero_iff.mp (Nat.le_zero.mp hn)
      exact .nil
  | succ n ih =>
      cases l with
      | nil => exact .nil
      | cons c xs =>
          have hranks : (pass rank compare c xs).2.map rank = xs.map rank := (h.rank_pass c xs).2
          have hlength : (pass rank compare c xs).2.length = xs.length := by
            rw [← List.length_map rank, hranks, List.length_map]
          have htail := sorted_of_map_rank hranks (List.pairwise_cons.mp hsorted).2
          refine List.pairwise_cons.mpr ⟨fun y hy => ?_,
            ih (h.good_pass hgood) htail (by rw [hlength]; exact Nat.le_of_succ_le_succ hn)⟩
          obtain ⟨y', hy', hkey⟩ :=
            List.mem_map.mp ((h.perm_passes (h.good_pass hgood) n).mem_iff.mp (List.mem_map_of_mem hy))
          rw [← hkey]
          exact (h.first_pass hgood hsorted).2 y' hy'

/-- The sort is a permutation of the keys. -/
theorem perm (h : Exchanges key good rank better compare) (hgood : ∀ a ∈ l, good (key a)) :
    ((exchangeSort rank compare l).map key).Perm (l.map key) :=
  h.perm_passes hgood l.length

/-- The ranks stay as they are. -/
theorem map_rank (h : Exchanges key good rank better compare) : (exchangeSort rank compare l).map rank = l.map rank :=
  h.map_rank_passes l.length

/-- No entry is better than one before it. -/
theorem pairwise (h : Exchanges key good rank better compare) (hgood : ∀ a ∈ l, good (key a))
    (hsorted : l.Pairwise fun a b => rank a ≤ rank b) :
    (exchangeSort rank compare l).Pairwise fun a b => ¬better (key b) (key a) :=
  h.pairwise_passes hgood hsorted (Nat.le_refl _)

end Exchanges

end ExchangeSort
