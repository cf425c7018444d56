import Mathlib.Logic.Function.Basic
import Mathlib.Data.List.Nodup
import Mathlib.Tactic.Common

/-!
Singly linked chains in a memory of cells.

The memory gives the cell at an address, and none where nothing is allocated. A segment is a
list of cells with their addresses, from a pointer to the first one to a pointer behind the
last one.
-/

namespace Chain

structure Cell (α : Type*) where
  data : α
  next : Option ℕ

variable {α : Type*}

/-- The cells `l` from `start` on, before `e`. -/
def Segment (mem : ℕ → Option (Cell α)) : Option ℕ → List (ℕ × α) → Option ℕ → Prop
  | start, [], e => start = e
  | start, (a, x) :: l, e => start = some a ∧ ∃ next, mem a = some ⟨x, next⟩ ∧ Segment mem next l e

/-- The pointer to the first cell. -/
def first (l : List (ℕ × α)) : Option ℕ := l.head?.map Prod.fst

namespace Segment

variable {mem mem' : ℕ → Option (Cell α)} {start mid e : Option ℕ} {l l₁ l₂ : List (ℕ × α)} {a : ℕ} {x : α}

theorem append (h₁ : Segment mem start l₁ mid) (h₂ : Segment mem mid l₂ e) : Segment mem start (l₁ ++ l₂) e := by
  induction l₁ generalizing start with
  | nil => exact (show start = mid from h₁) ▸ h₂
  | cons c l₁ ih =>
      obtain ⟨hstart, next, hcell, hrest⟩ := h₁
      exact ⟨hstart, next, hcell, ih hrest⟩

theorem of_append (h : Segment mem start (l₁ ++ l₂) e) :
    ∃ mid, Segment mem start l₁ mid ∧ Segment mem mid l₂ e := by
  induction l₁ generalizing start with
  | nil => exact ⟨start, rfl, h⟩
  | cons c l₁ ih =>
      obtain ⟨hstart, next, hcell, hrest⟩ := h
      obtain ⟨mid, h₁, h₂⟩ := ih hrest
      exact ⟨mid, ⟨hstart, next, hcell, h₁⟩, h₂⟩

/-- Only the cells of the segment matter. -/
theorem congr (h : Segment mem start l e) (hmem : ∀ a ∈ l.map Prod.fst, mem' a = mem a) :
    Segment mem' start l e := by
  induction l generalizing start with
  | nil => exact h
  | cons c l ih =>
      obtain ⟨hstart, next, hcell, hrest⟩ := h
      obtain ⟨hc, hl⟩ := List.forall_mem_cons.mp hmem
      exact ⟨hstart, next, hc.trans hcell, ih hrest hl⟩

theorem update (h : Segment mem start l e) (ha : a ∉ l.map Prod.fst) (c : Option (Cell α)) :
    Segment (Function.update mem a c) start l e := by
  refine h.congr fun b hb => Function.update_of_ne ?_ _ _
  rintro rfl
  exact ha hb

/-- A chain starts at its first cell. -/
theorem start_eq (h : Segment mem start l none) : start = first l := by
  cases l with
  | nil => exact h
  | cons c l => exact h.1

theorem load (h : Segment mem start ((a, x) :: l) none) : mem a = some ⟨x, first l⟩ := by
  obtain ⟨-, next, hcell, hrest⟩ := h
  rw [hcell, hrest.start_eq]

/-- The last cell is given another successor. -/
theorem setLast (h : Segment mem start (l ++ [(a, x)]) mid) (ha : a ∉ l.map Prod.fst) (e : Option ℕ) :
    Segment (Function.update mem a (some ⟨x, e⟩)) start (l ++ [(a, x)]) e := by
  obtain ⟨p, hl, hp, -⟩ := h.of_append
  refine (hl.update ha _).append ⟨hp, e, ?_, rfl⟩
  exact Function.update_self _ _ _

/-- A cell is put in front. -/
theorem cons (h : Segment mem start l e) (ha : a ∉ l.map Prod.fst) :
    Segment (Function.update mem a (some ⟨x, start⟩)) (some a) ((a, x) :: l) e :=
  ⟨rfl, start, Function.update_self _ _ _, h.update ha _⟩

/-- A cell is put behind the last one. -/
theorem snoc {b : ℕ} {y : α} (h : Segment mem start (l ++ [(a, x)]) none) (ha : a ∉ l.map Prod.fst)
    (hb : b ∉ (l ++ [(a, x)]).map Prod.fst) :
    Segment (Function.update (Function.update mem b (some ⟨y, none⟩)) a (some ⟨x, some b⟩)) start
      (l ++ [(a, x)] ++ [(b, y)]) none := by
  have hne : b ≠ a := by
    rintro rfl
    exact hb (by simp)
  refine ((h.update hb _).setLast ha (some b)).append ⟨rfl, none, ?_, rfl⟩
  rw [Function.update_of_ne hne, Function.update_self]

/-- The cell behind another one is taken out. -/
theorem unlink {p : ℕ} {y : α} (h : Segment mem start (l₁ ++ [(p, y)] ++ (a, x) :: l₂) none)
    (hnodup : ((l₁ ++ [(p, y)] ++ (a, x) :: l₂).map Prod.fst).Nodup) :
    Segment (Function.update (Function.update mem p (some ⟨y, first l₂⟩)) a none) start
      (l₁ ++ [(p, y)] ++ l₂) none := by
  obtain ⟨hfront, hback, hdisj⟩ : ((l₁ ++ [(p, y)]).map Prod.fst).Nodup ∧ (((a, x) :: l₂).map Prod.fst).Nodup ∧
      ((l₁ ++ [(p, y)]).map Prod.fst).Disjoint (((a, x) :: l₂).map Prod.fst) := by
    rw [List.map_append] at hnodup
    exact ⟨hnodup.of_append_left, hnodup.of_append_right, List.disjoint_of_nodup_append hnodup⟩
  have ha : a ∉ (l₁ ++ [(p, y)]).map Prod.fst := fun hmem => hdisj hmem (by simp)
  have hp : p ∉ l₁.map Prod.fst := by
    rw [List.map_append] at hfront
    intro hmem
    exact (List.disjoint_of_nodup_append hfront) hmem (by simp)
  have hp₂ : p ∉ l₂.map Prod.fst := fun hmem => hdisj (by simp) (List.mem_cons_of_mem _ hmem)
  have ha₂ : a ∉ l₂.map Prod.fst := (List.nodup_cons.mp hback).1
  obtain ⟨mid, h₁, -, next, -, h₂⟩ := h.of_append
  have hnext : next = first l₂ := h₂.start_eq
  exact ((h₁.setLast hp (first l₂)).update ha none).append (((hnext ▸ h₂).update hp₂ _).update ha₂ none)

/-- The data of a cell is replaced. -/
theorem setData (h : Segment mem start (l₁ ++ (a, x) :: l₂) none)
    (hnodup : ((l₁ ++ (a, x) :: l₂).map Prod.fst).Nodup) (y : α) :
    Segment (Function.update mem a (some ⟨y, first l₂⟩)) start (l₁ ++ (a, y) :: l₂) none := by
  rw [List.map_append] at hnodup
  have ha₁ : a ∉ l₁.map Prod.fst := by
    intro hmem
    exact (List.disjoint_of_nodup_append hnodup) hmem (by simp)
  have ha₂ : a ∉ l₂.map Prod.fst := (List.nodup_cons.mp hnodup.of_append_right).1
  obtain ⟨mid, h₁, hmid, next, -, h₂⟩ := h.of_append
  have h₂' := h₂.start_eq ▸ h₂
  exact (h₁.update ha₁ _).append ⟨hmid, first l₂, Function.update_self _ _ _, h₂'.update ha₂ _⟩

/-- The first cell is taken out. -/
theorem tail (h : Segment mem start ((a, x) :: l) none) (ha : a ∉ l.map Prod.fst) :
    Segment (Function.update mem a none) (first l) l none := by
  obtain ⟨-, next, -, hrest⟩ := h
  exact (hrest.start_eq ▸ hrest).update ha none

end Segment

end Chain
