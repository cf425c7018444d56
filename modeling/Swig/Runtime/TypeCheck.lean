import Swig.Runtime.CastList
import Swig.Runtime.TypeQuery

/-!
Sequences of `SWIG_TypeCheck` and `SWIG_TypeCheckStruct` calls on one type.

Every call reorders the cast list of the type. What it returns does not depend on
the order, since the types on the list have different names.
-/

namespace Swig.Runtime

open DoublyLinked Fuel

variable {M I : Type} [DecidableEq M]

/-- A call of `SWIG_TypeCheck` or of `SWIG_TypeCheckStruct`. -/
inductive Lookup (M : Type)
  | typeCheck (c : Name)
  | typeCheckStruct (frm : TypeRef M)

namespace State

/-- The entry is the one looked for. -/
def wants (st : State M I) : Lookup M → CastRef M → Bool
  | .typeCheck name, c => strcmp (st.types (st.castType c)).name name == .eq
  | .typeCheckStruct frm, c => st.castType c == frm

def lookup (fuel : ℕ) (ty : TypeRef M) (st : State M I) :
    Lookup M → Option (Option (CastRef M) × State M I)
  | .typeCheck c => st.typeCheck fuel c ty
  | .typeCheckStruct frm => st.typeCheckStruct fuel frm ty

/-- The calls one after the other, with what they return. -/
def lookups (fuel : ℕ) (ty : TypeRef M) :
    List (Lookup M) → State M I → Option (List (Option (CastRef M)) × State M I)
  | [], st => some ([], st)
  | l :: ls, st =>
      (st.lookup fuel ty l).bind fun (r, st) =>
        (lookups fuel ty ls st).map fun (rs, st) => (r :: rs, st)

theorem SameTables.wants {st st' : State M I} (h : SameTables st st') (l : Lookup M) :
    st'.wants l = st.wants l := by
  funext c
  cases l with
  | typeCheck name => simp only [State.wants, h.castType, h.name]
  | typeCheckStruct frm => simp only [State.wants, h.castType]

/-- One call. -/
theorem lookup_returns {st : State M I} {ty : TypeRef M} {cs : List (CastRef M)}
    (hlist : IsList st.castNext st.castPrev (st.types ty).cast cs) (l : Lookup M) :
    ∃ st', Returns (fun n => st.lookup n ty l) (cs.find? (st.wants l), st') ∧
      ListChange st ty cs st' (found cs (cs.find? (st.wants l))) := by
  cases l with
  | typeCheck name =>
      exact listChange_typeCheckLoop hlist fun st t => strcmp (st.types t).name name == .eq
  | typeCheckStruct frm => exact listChange_typeCheckLoop hlist fun _ t => t == frm

/-- Where at most one element passes a test, the order does not matter. -/
theorem find?_eq_of_perm {α : Type*} {p : α → Bool} {xs ys : List α} (h : xs.Perm ys)
    (huniq : ∀ x ∈ xs, ∀ y ∈ xs, p x = true → p y = true → x = y) : xs.find? p = ys.find? p := by
  cases hx : xs.find? p with
  | none =>
      rw [List.find?_eq_none] at hx
      exact (List.find?_eq_none.mpr fun y hy => hx y (h.mem_iff.mpr hy)).symm
  | some x =>
      have hmem := List.mem_of_find?_eq_some hx
      have hpx := List.find?_some hx
      cases hy : ys.find? p with
      | none => exact absurd hpx (List.find?_eq_none.mp hy x (h.mem_iff.mp hmem))
      | some y =>
          have hymem := h.mem_iff.mpr (List.mem_of_find?_eq_some hy)
          rw [huniq x hmem y hymem hpx (List.find?_some hy)]

/-- The types on a list have different names. -/
def NamesDistinct (st : State M I) (cs : List (CastRef M)) : Prop :=
  (cs.map fun c => (st.types (st.castType c)).name).Nodup

theorem NamesDistinct.unique {st : State M I} {cs : List (CastRef M)} (h : st.NamesDistinct cs)
    (l : Lookup M) : ∀ c ∈ cs, ∀ d ∈ cs, st.wants l c = true → st.wants l d = true → c = d := by
  intro c hc d hd hwc hwd
  refine List.inj_on_of_nodup_map h hc hd ?_
  cases l with
  | typeCheck name =>
      simp only [wants, beq_iff_eq, strcmp_eq_iff] at hwc hwd
      rw [hwc, hwd]
  | typeCheckStruct frm =>
      simp only [wants, beq_iff_eq] at hwc hwd
      rw [hwc, hwd]

/-- Every call returns the entry it looks for on the list as it was before all the
calls, and the list stays a doubly linked list of the same entries. -/
theorem lookups_return (st : State M I) (ty : TypeRef M) (cs : List (CastRef M))
    (hlist : IsList st.castNext st.castPrev (st.types ty).cast cs)
    (hnames : st.NamesDistinct cs) (ls : List (Lookup M)) :
    ∃ st' cs', Returns (fun n => lookups n ty ls st)
        (ls.map fun l => cs.find? (st.wants l), st') ∧
      IsList st'.castNext st'.castPrev (st'.types ty).cast cs' ∧ cs'.Perm cs ∧
      SameTables st st' := by
  induction ls generalizing st cs with
  | nil => exact ⟨st, cs, .const _, hlist, List.Perm.refl _, .refl st⟩
  | cons l ls ih =>
      obtain ⟨st₁, hret, hchange⟩ := lookup_returns hlist l
      have hsame := hchange.tables
      have hnames₁ : st₁.NamesDistinct (found cs (cs.find? (st.wants l))) := by
        have hname : (fun c => (st₁.types (st₁.castType c)).name) =
            fun c => (st.types (st.castType c)).name := by
          funext c
          rw [hsame.castType, hsame.name]
        unfold NamesDistinct
        rw [hname]
        exact (hchange.perm.map _).nodup_iff.mpr hnames
      obtain ⟨st', cs', hrets, hlist', hperm, hsame'⟩ := ih st₁ _ hchange.list hnames₁
      refine ⟨st', cs', ?_, hlist', hperm.trans hchange.perm, hsame.trans hsame'⟩
      have hsearch : ls.map (fun l' => (found cs (cs.find? (st.wants l))).find? (st₁.wants l')) =
          ls.map fun l' => cs.find? (st.wants l') := by
        refine List.map_congr_left fun l' _ => ?_
        rw [hsame.wants]
        exact (find?_eq_of_perm hchange.perm.symm (hnames.unique l')).symm
      rw [hsearch] at hrets
      exact Returns.bind (g := fun a n =>
        (lookups n ty ls a.2).map fun b => (a.1 :: b.1, b.2)) hret (hrets.map _)

/-- Three entries with types of three names. -/
def threeCasts : State ℕ ℕ where
  types t := { name := [UInt8.ofNat t.2], str := none, cast := some (0, 0, 0), clientdata := none }
  casts c :=
    { type := (0, c.2.2)
      converter := none
      next := if c.2.2 < 2 then some (0, 0, c.2.2 + 1) else none
      prev := if c.2.2 = 0 then none else some (0, 0, c.2.2 - 1) }
  modules _ := { types := [], next := none, castInitial := [] }
  head _ := none

/-- The last entry is found, then the second, and one that is not there. -/
theorem lookups_return_threeCasts :
    ∃ st' cs', Returns
        (fun n => lookups n (0, 0) [.typeCheck [2], .typeCheckStruct (0, 1), .typeCheck [5]] threeCasts)
        ([some (0, 0, 2), some (0, 0, 1), none], st') ∧
      IsList st'.castNext st'.castPrev (st'.types (0, 0)).cast cs' ∧
      cs'.Perm [(0, 0, 0), (0, 0, 1), (0, 0, 2)] ∧ SameTables threeCasts st' :=
  lookups_return threeCasts (0, 0) [(0, 0, 0), (0, 0, 1), (0, 0, 2)]
    ⟨⟨some (0, 0, 2), by simp [Seg, threeCasts, castNext, castPrev]⟩, by decide⟩
    (by unfold NamesDistinct; decide) _

end State

end Swig.Runtime
