import Mathlib.Data.List.Nodup
import Mathlib.Tactic.Common

/-!
Places with a rank that may have a value: the last one of a list of places, and the ones of
the highest rank.
-/

namespace Ranked

variable {α V : Type*}

/-- The value of the last place that has one. -/
def last (e : α → Option V) (ps : List α) : Option V := ps.reverse.findSome? e

/-- Among the places that have a value, none has a higher rank than `p`. -/
structure Top (rank : α → ℕ) (e : α → Option V) (ps : List α) (p : α) : Prop where
  mem : p ∈ ps
  has : (e p).isSome
  top : ∀ q ∈ ps, (e q).isSome → rank q ≤ rank p

variable {rank : α → ℕ} {e : α → Option V} {ps qs : List α} {p q : α} {v : V}

theorem last_cons (p : α) (ps : List α) : last e (p :: ps) = (last e ps).or (e p) := by
  rw [last, List.reverse_cons, List.findSome?_append, List.findSome?_singleton]
  rfl

theorem last_append (ps qs : List α) : last e (ps ++ qs) = (last e qs).or (last e ps) := by
  rw [last, List.reverse_append, List.findSome?_append]
  rfl

theorem last_eq_none_iff : last e ps = none ↔ ∀ p ∈ ps, e p = none := by
  simp [last]

/-- The last of some places of increasing rank is one of the highest rank. -/
theorem exists_top (hps : ps.Pairwise (rank · < rank ·)) (h : last e ps = some v) : ∃ p, Top rank e ps p ∧ e p = some v := by
  induction ps with
  | nil => cases h
  | cons p ps ih =>
      obtain ⟨hp, hps⟩ := List.pairwise_cons.mp hps
      rw [last_cons] at h
      cases hlast : last e ps with
      | some w =>
          rw [hlast, Option.some_or] at h
          obtain ⟨q, hq, hv⟩ := ih hps (hlast.trans h)
          refine ⟨q, ⟨List.mem_cons_of_mem _ hq.mem, hq.has, fun r hr hsome => ?_⟩, hv⟩
          obtain rfl | hr := List.mem_cons.mp hr
          · exact Nat.le_of_lt (hp q hq.mem)
          · exact hq.top r hr hsome
      | none =>
          rw [hlast, Option.none_or] at h
          refine ⟨p, ⟨List.mem_cons_self, by rw [h]; rfl, fun r hr hsome => ?_⟩, h⟩
          obtain rfl | hr := List.mem_cons.mp hr
          · exact Nat.le_refl _
          · rw [last_eq_none_iff.mp hlast r hr] at hsome
            cases hsome

theorem eq_of_rank (hps : ps.Pairwise (rank · < rank ·)) (hp : p ∈ ps) (hq : q ∈ ps) (h : rank p = rank q) : p = q := by
  have hnodup : (ps.map rank).Nodup := List.pairwise_map.mpr (hps.imp fun hlt => Nat.ne_of_lt hlt)
  exact List.inj_on_of_nodup_map hnodup hp hq h

theorem Top.last_eq (hps : ps.Pairwise (rank · < rank ·)) (hp : Top rank e ps p) : last e ps = e p := by
  obtain ⟨v, hv⟩ : ∃ v, last e ps = some v := by
    rw [← Option.ne_none_iff_exists']
    intro hnone
    have hhas := hp.has
    rw [last_eq_none_iff.mp hnone p hp.mem] at hhas
    cases hhas
  obtain ⟨q, hq, hqv⟩ := exists_top hps hv
  obtain rfl := eq_of_rank hps hp.mem hq.mem (Nat.le_antisymm (hq.top p hp.mem hp.has) (hp.top q hq.mem hq.has))
  rw [hv, hqv]

/-- `r` is the value of a place of the highest rank, if any place has a value. -/
def IsTop (rank : α → ℕ) (e : α → Option V) (ps : List α) (r : Option V) : Prop :=
  (r = none ∧ ∀ p ∈ ps, e p = none) ∨ ∃ p, Top rank e ps p ∧ r = e p

theorem isTop_last (hps : ps.Pairwise (rank · < rank ·)) : IsTop rank e ps (last e ps) := by
  cases h : last e ps with
  | none => exact .inl ⟨rfl, last_eq_none_iff.mp h⟩
  | some v =>
      obtain ⟨p, hp, hv⟩ := exists_top hps h
      exact .inr ⟨p, hp, hv.symm⟩

theorem IsTop.of_or {r x : Option V} (hr : IsTop rank e ps r) (h : (last e ps).or x = r.or x) :
    IsTop rank e ps (last e ps) := by
  have heq : last e ps = r := by
    obtain ⟨rfl, hnone⟩ | ⟨p, hp, rfl⟩ := hr
    · exact last_eq_none_iff.mpr hnone
    · obtain ⟨v, hv⟩ := Option.isSome_iff_exists.mp hp.has
      cases hlast : last e ps with
      | none =>
          rw [last_eq_none_iff.mp hlast p hp.mem] at hv
          cases hv
      | some w =>
          rw [hlast, hv] at h
          exact h.trans hv.symm
  exact heq ▸ hr

theorem Top.append_left (hp : Top rank e ps p) (h : ∀ q ∈ qs, (e q).isSome → rank q ≤ rank p) : Top rank e (ps ++ qs) p where
  mem := List.mem_append_left _ hp.mem
  has := hp.has
  top q hq := (List.mem_append.mp hq).elim (hp.top q) (h q)

theorem Top.append_right (hq : Top rank e qs q) (h : ∀ p ∈ ps, (e p).isSome → rank p ≤ rank q) : Top rank e (ps ++ qs) q where
  mem := List.mem_append_right _ hq.mem
  has := hq.has
  top p hp := (List.mem_append.mp hp).elim (h p) (hq.top p)

theorem not_isSome (h : last e ps = none) (hp : p ∈ ps) : ¬(e p).isSome := by
  rw [last_eq_none_iff.mp h p hp]
  exact Bool.false_ne_true

/-- The last of the places of two lists, each of increasing rank, is one of the highest rank
exactly if the second list does not end below the first one. -/
theorem isTop_last_append_iff (hps : ps.Pairwise (rank · < rank ·)) (hqs : qs.Pairwise (rank · < rank ·)) :
    IsTop rank e (ps ++ qs) (last e (ps ++ qs)) ↔
      ∀ p q, Top rank e ps p → Top rank e qs q → rank p ≤ rank q ∨ e p = e q := by
  rw [last_append]
  constructor
  · intro h p q hp hq
    obtain ⟨v, hv⟩ := Option.isSome_iff_exists.mp hq.has
    rw [hq.last_eq hqs, hv, Option.some_or] at h
    obtain ⟨hnone, -⟩ | ⟨r, hr, hrv⟩ := h
    · cases hnone
    · by_contra! hlt
      have hpr := hr.top p (List.mem_append_left _ hp.mem) hp.has
      obtain hmem | hmem := List.mem_append.mp hr.mem
      · obtain rfl := eq_of_rank hps hp.mem hmem (Nat.le_antisymm hpr (hp.top r hmem hr.has))
        exact hlt.2 (hrv.symm.trans hv.symm)
      · have := hq.top r hmem hr.has
        omega
  · intro h
    cases hlast : last e qs with
    | none =>
        rw [Option.none_or]
        obtain ⟨hnone, hall⟩ | ⟨p, hp, hv⟩ := isTop_last (e := e) hps
        · exact .inl ⟨hnone, fun r hr => (List.mem_append.mp hr).elim (hall r) (last_eq_none_iff.mp hlast r)⟩
        · exact .inr ⟨p, hp.append_left fun q hq hsome => absurd hsome (not_isSome hlast hq), hv⟩
    | some v =>
        obtain ⟨q, hq, hv⟩ := exists_top hqs hlast
        rw [Option.some_or, ← hv]
        obtain ⟨-, hall⟩ | ⟨p, hp, -⟩ := isTop_last (e := e) hps
        · refine .inr ⟨q, hq.append_right fun p hp hsome => ?_, rfl⟩
          rw [hall p hp] at hsome
          cases hsome
        · obtain hle | hlt := Nat.lt_or_ge (rank q) (rank p) |>.symm
          · exact .inr ⟨q, hq.append_right fun r hr hsome => Nat.le_trans (hp.top r hr hsome) hle, rfl⟩
          · refine .inr ⟨p, hp.append_left fun r hr hsome => Nat.le_trans (hq.top r hr hsome) (Nat.le_of_lt hlt), ?_⟩
            exact ((h p q hp hq).resolve_left (Nat.not_le.mpr hlt)).symm

end Ranked
