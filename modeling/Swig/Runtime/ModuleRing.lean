import Swig.Runtime.TypeInfo
import Mathlib.Logic.Relation
import Mathlib.Tactic.Common

/-!
The circular module lists that `SWIG_InitializeModule` builds.

Every interpreter keeps a module head, but a module has one `next` field only.
As long as a module that is already linked with others is not linked into a
second list, the lists of all heads stay circular; linking it in takes it out
of the list it was in and breaks that one.
-/

namespace Swig.Runtime

open CircularList

variable {M I : Type} [DecidableEq M]

namespace State

/-! ### What filling in the type table leaves alone -/

/-- The module lists, the heads and the arrays of the other modules than `m`
are those of `st`, and `m` has `k` types more. -/
structure SameLists (st st' : State M I) (m : M) (k : ℕ) : Prop where
  next : st'.moduleNext = st.moduleNext
  head : st'.head = st.head
  size : ∀ m', (st'.modules m').size = (st.modules m').size
  types : ∀ m', (st'.modules m').types.length =
    (st.modules m').types.length + if m' = m then k else 0

theorem SameLists.refl (st : State M I) (m : M) : SameLists st st m 0 :=
  ⟨rfl, rfl, fun _ => rfl, by simp⟩

theorem SameLists.trans {st₁ st₂ st₃ : State M I} {m : M} {k l : ℕ}
    (h₁ : SameLists st₁ st₂ m k) (h₂ : SameLists st₂ st₃ m l) : SameLists st₁ st₃ m (k + l) where
  next := h₂.next.trans h₁.next
  head := h₂.head.trans h₁.head
  size m' := (h₂.size m').trans (h₁.size m')
  types m' := by
    rw [h₂.types, h₁.types]
    split <;> omega

/-- A step that does not touch the modules at all. -/
theorem SameLists.of_modules_eq {st st' : State M I} (m : M) (hm : st'.modules = st.modules)
    (hh : st'.head = st.head) : SameLists st st' m 0 where
  next := by funext m'; rw [moduleNext, moduleNext, hm]
  head := hh
  size m' := by rw [hm]
  types m' := by simp [hm]

theorem moveToTop_modules {st st' : State M I} {ty : TypeRef M} {iter : CastRef M}
    (h : st.moveToTop ty iter = some st') : st'.modules = st.modules ∧ st'.head = st.head := by
  unfold moveToTop at h
  split at h
  · cases h
  · cases h
    dsimp only [setTypeCast, setCastNext, setCastPrev]
    constructor <;> (repeat' split) <;> rfl

theorem typeCheckLoop_modules {test : State M I → TypeRef M → Bool} {ty : TypeRef M} {n : ℕ}
    {o r : Option (CastRef M)} {st st' : State M I}
    (h : typeCheckLoop test ty n o st = some (r, st')) :
    st'.modules = st.modules ∧ st'.head = st.head := by
  induction n generalizing o with
  | zero => cases h
  | succ n ih =>
      cases o with
      | none =>
          cases h
          exact ⟨rfl, rfl⟩
      | some iter =>
          simp only [typeCheckLoop] at h
          split at h
          · split at h
            · cases h
              exact ⟨rfl, rfl⟩
            · obtain ⟨st₁, hmove, heq⟩ := Option.map_eq_some_iff.mp h
              cases heq
              exact moveToTop_modules hmove
          · exact ih h

theorem addCast_modules (st : State M I) (ty : TypeRef M) (c : CastRef M) :
    (st.addCast ty c).modules = st.modules ∧ (st.addCast ty c).head = st.head := by
  unfold addCast setTypeCast setCastNext setCastPrev
  split <;> exact ⟨rfl, rfl⟩

theorem linkCast_modules {fuel : ℕ} {m : M} {i j : ℕ} {ty : TypeRef M} {st st' : State M I}
    (h : linkCast fuel m i ty st j = some st') :
    st'.modules = st.modules ∧ st'.head = st.head := by
  unfold linkCast at h
  obtain ⟨found, -, h⟩ := Option.bind_eq_some_iff.mp h
  cases found with
  | none =>
      cases h
      exact addCast_modules _ _ _
  | some ret =>
      dsimp only at h
      split at h
      · cases h
        exact addCast_modules _ _ _
      · obtain ⟨⟨o, st₁⟩, hcheck, heq⟩ := Option.map_eq_some_iff.mp h
        have hsame := typeCheckLoop_modules hcheck
        cases o with
        | none =>
            cases heq
            have := addCast_modules st₁ ty (m, i, j)
            exact ⟨this.1.trans hsame.1, this.2.trans hsame.2⟩
        | some c =>
            cases heq
            exact hsame

theorem foldlM_linkCast_modules {fuel : ℕ} {m : M} {i : ℕ} {ty : TypeRef M} {js : List ℕ}
    {st st' : State M I} (h : js.foldlM (linkCast fuel m i ty) st = some st') :
    st'.modules = st.modules ∧ st'.head = st.head := by
  induction js generalizing st with
  | nil =>
      cases h
      exact ⟨rfl, rfl⟩
  | cons j js ih =>
      rw [List.foldlM_cons] at h
      obtain ⟨st₁, hstep, h⟩ := Option.bind_eq_some_iff.mp h
      have h₁ := linkCast_modules hstep
      have h₂ := ih h
      exact ⟨h₂.1.trans h₁.1, h₂.2.trans h₁.2⟩

theorem sameLists_linkType {fuel : ℕ} {m : M} {i : ℕ} {st st' : State M I}
    (h : linkType fuel m st i = some st') : SameLists st st' m 1 := by
  unfold linkType at h
  obtain ⟨found, -, h⟩ := Option.bind_eq_some_iff.mp h
  obtain ⟨st₁, hcasts, rfl⟩ := Option.map_eq_some_iff.mp h
  have hsame := foldlM_linkCast_modules hcasts
  have hmod : st₁.modules = st.modules ∧ st₁.head = st.head := by
    rw [hsame.1, hsame.2]
    split <;> exact ⟨rfl, rfl⟩
  refine ⟨?_, hmod.2, ?_, ?_⟩
  · funext m'
    by_cases hm : m' = m <;> simp [moduleNext, setModule, hmod.1, hm]
  · intro m'
    by_cases hm : m' = m <;> simp [setModule, SwigModuleInfo.size, hmod.1, hm]
  · intro m'
    by_cases hm : m' = m <;> simp [setModule, hmod.1, hm]

theorem sameLists_foldlM_linkType {fuel : ℕ} {m : M} {is : List ℕ} {st st' : State M I}
    (h : is.foldlM (linkType fuel m) st = some st') : SameLists st st' m is.length := by
  induction is generalizing st with
  | nil =>
      cases h
      exact SameLists.refl _ _
  | cons i is ih =>
      rw [List.foldlM_cons] at h
      obtain ⟨st₁, hstep, h⟩ := Option.bind_eq_some_iff.mp h
      have := (sameLists_linkType hstep).trans (ih h)
      rwa [Nat.add_comm] at this

/-! ### The walk through the module list -/

omit [DecidableEq M] in
theorem searchTypes_isSome (st : State M I) (name : Name) {types : List (TypeRef M)} {n l r : ℕ}
    (hlr : l ≤ r) (hr : r < types.length) : (st.searchTypes name types n l r).isSome := by
  induction n generalizing l r with
  | zero => rfl
  | succ n ih =>
      have hi : (l + r) / 2 < types.length := by omega
      simp only [searchTypes, List.getElem?_eq_getElem hi]
      split
      · rfl
      · split
        · rfl
        · split
          · exact ih ‹_› (by omega)
          · rfl
      · split
        · exact ih ‹_› hr
        · rfl

omit [DecidableEq M] in
theorem searchModule_isSome (st : State M I) (name : Name) {m : M}
    (hm : (st.modules m).types.length = (st.modules m).size) :
    (st.searchModule name m).isSome := by
  simp only [searchModule]
  split
  · rfl
  · exact st.searchTypes_isSome name (by omega) (by omega)

/-- Over a path of modules whose arrays are filled in, the query returns. -/
theorem mangledTypeQueryModule_isSome (st : State M I) (name : Name) {start stop : M}
    {xs : List M} (hpath : Path st.moduleNext start xs stop) (hstop : stop ∉ xs)
    (hfilled : ∀ m ∈ start :: xs, (st.modules m).types.length = (st.modules m).size)
    {fuel : ℕ} (hfuel : xs.length < fuel) :
    (st.mangledTypeQueryModule fuel start stop name).isSome := by
  rw [mangledTypeQueryModule, walk_of_path hpath hstop hfuel, Option.bind_some]
  cases hfind : (start :: xs).findSome? _ with
  | none => rfl
  | some r =>
      obtain ⟨m, hm, hr⟩ := List.exists_of_findSome?_eq_some hfind
      obtain ⟨t, ht⟩ := Option.isSome_iff_exists.mp (st.searchModule_isSome name (hfilled m hm))
      rw [ht] at hr
      cases t with
      | none => simp at hr
      | some t =>
          cases hr
          rfl

end State

/-! ### The invariant of the module lists -/

/-- Every linked module lies on a circular list, every head is linked, a module
loaded in an interpreter lies on the list of its head, and only loaded modules
are linked. -/
structure RingInv (next : M → Option M) (head : I → Option M) (loads : List (I × M)) : Prop where
  ring : ∀ m, next m ≠ none → ∃ xs, IsRing next m xs
  head_linked : ∀ i h, head i = some h → next h ≠ none
  loaded : ∀ i m, (i, m) ∈ loads → ∃ h xs, head i = some h ∧ IsRing next h xs ∧ m ∈ h :: xs
  origin : ∀ m, next m ≠ none → ∃ i, (i, m) ∈ loads

omit [DecidableEq M] in
/-- A head of an interpreter without one: the list of a linked module is taken over. -/
theorem RingInv.setHead [DecidableEq I] {next : M → Option M} {head : I → Option M}
    {loads : List (I × M)} (h : RingInv next head loads) {i : I} {m : M}
    (hm : next m ≠ none) (hi : head i = none) :
    RingInv next (Function.update head i (some m)) (loads ++ [(i, m)]) where
  ring := h.ring
  head_linked j g hj := by
    by_cases hji : j = i
    · subst hji
      rw [Function.update_self] at hj
      exact Option.some.inj hj ▸ hm
    · rw [Function.update_of_ne hji] at hj
      exact h.head_linked j g hj
  loaded j x hx := by
    rcases List.mem_append.mp hx with hx | hx
    · obtain ⟨g, xs, hg, hring, hmem⟩ := h.loaded j x hx
      have hji : j ≠ i := by
        rintro rfl
        simp [hi] at hg
      exact ⟨g, xs, by rw [Function.update_of_ne hji, hg], hring, hmem⟩
    · obtain ⟨rfl, rfl⟩ : j = i ∧ x = m := by simpa using hx
      obtain ⟨xs, hring⟩ := h.ring x hm
      exact ⟨x, xs, by simp, hring, by simp⟩
  origin x hx := by
    obtain ⟨j, hj⟩ := h.origin x hx
    exact ⟨j, by simp [hj]⟩

/-- A new module becomes a list of its own. -/
theorem RingInv.linkSelf [DecidableEq I] {next : M → Option M} {head : I → Option M}
    {loads : List (I × M)} (h : RingInv next head loads) {i : I} {m : M}
    (hm : next m = none) (hi : head i = none) :
    RingInv (Function.update next m (some m)) (Function.update head i (some m))
      (loads ++ [(i, m)]) := by
  have hother {y : M} {ys : List M} (hring : IsRing next y ys) :
      IsRing (Function.update next m (some m)) y ys := by
    refine hring.congr fun z hz => Function.update_of_ne ?_ _ _
    rintro rfl
    exact hring.next_ne_none hz hm
  have hself : IsRing (Function.update next m (some m)) m [] := .single (by simp)
  have hlinked {y : M} (hy : next y ≠ none) : Function.update next m (some m) y ≠ none := by
    rwa [Function.update_of_ne]
    rintro rfl
    exact hy hm
  refine ⟨fun x hx => ?_, fun j g hj => ?_, fun j x hx => ?_, fun x hx => ?_⟩
  · by_cases hxm : x = m
    · exact ⟨[], hxm ▸ hself⟩
    · rw [Function.update_of_ne hxm] at hx
      obtain ⟨xs, hring⟩ := h.ring x hx
      exact ⟨xs, hother hring⟩
  · by_cases hji : j = i
    · subst hji
      rw [Function.update_self] at hj
      obtain rfl := Option.some.inj hj
      simp
    · rw [Function.update_of_ne hji] at hj
      exact hlinked (h.head_linked j g hj)
  · rcases List.mem_append.mp hx with hx | hx
    · obtain ⟨g, xs, hg, hring, hmem⟩ := h.loaded j x hx
      have hji : j ≠ i := by
        rintro rfl
        simp [hi] at hg
      exact ⟨g, xs, by rw [Function.update_of_ne hji, hg], hother hring, hmem⟩
    · obtain ⟨rfl, rfl⟩ : j = i ∧ x = m := by simpa using hx
      exact ⟨x, [], by simp, hself, by simp⟩
  · by_cases hxm : x = m
    · exact ⟨i, by simp [hxm]⟩
    · rw [Function.update_of_ne hxm] at hx
      obtain ⟨j, hj⟩ := h.origin x hx
      exact ⟨j, by simp [hj]⟩

/-- A module that is not linked with others is linked in after a head. -/
theorem RingInv.splice {next : M → Option M} {head : I → Option M} {loads : List (I × M)}
    (h : RingInv next head loads) {i : I} {m hd : M} {xs : List M}
    (hm : next m = none ∨ next m = some m) (hi : head i = some hd)
    (hhd : IsRing next hd xs) (hmem : m ∉ hd :: xs) :
    RingInv (Function.update (Function.update next m (next hd)) hd (some m)) head
      (loads ++ [(i, m)]) := by
  have hnew := hhd.splice hmem
  have hnewmem {y : M} (hy : y ∈ hd :: m :: xs) :
      ∃ ys, IsRing (Function.update (Function.update next m (next hd)) hd (some m)) y ys ∧
        ∀ z, z ∈ y :: ys ↔ z ∈ hd :: m :: xs := by
    obtain ⟨ys, hring, hperm⟩ := hnew.rotate hy
    exact ⟨ys, hring, fun z => hperm.mem_iff⟩
  -- a list that meets neither the list of the head nor `m` keeps its pointers
  have hother {y : M} {ys : List M} (hring : IsRing next y ys) (hy : y ∉ hd :: m :: xs) :
      IsRing (Function.update (Function.update next m (next hd)) hd (some m)) y ys := by
    refine hring.congr fun z hz => ?_
    have hzhd : z ≠ hd := by
      rintro rfl
      have := (hring.mem_iff_of_mem hhd hz (by simp) y).mp (by simp)
      exact hy (by simp only [List.mem_cons] at this ⊢; tauto)
    have hzm : z ≠ m := by
      rintro rfl
      rcases hm with hm | hm
      · exact hring.next_ne_none hz hm
      · have := (hring.mem_iff_of_mem (IsRing.single hm) hz (by simp) y).mp (by simp)
        exact hy (by simp only [List.mem_cons, List.not_mem_nil, or_false] at this ⊢; tauto)
    rw [Function.update_of_ne hzhd, Function.update_of_ne hzm]
  have hlinked {y : M} (hy : next y ≠ none) :
      Function.update (Function.update next m (next hd)) hd (some m) y ≠ none := by
    by_cases hyhd : y = hd
    · simp [hyhd]
    · rw [Function.update_of_ne hyhd]
      by_cases hym : y = m
      · rw [hym, Function.update_self]
        exact hhd.next_ne_none (by simp)
      · rwa [Function.update_of_ne hym]
  refine ⟨fun x hx => ?_, fun j g hj => hlinked (h.head_linked j g hj), fun j x hx => ?_,
    fun x hx => ?_⟩
  · by_cases hmemx : x ∈ hd :: m :: xs
    · obtain ⟨ys, hring, -⟩ := hnewmem hmemx
      exact ⟨ys, hring⟩
    · have hx' : next x ≠ none := by
        simp only [List.mem_cons, not_or] at hmemx
        rwa [Function.update_of_ne hmemx.1, Function.update_of_ne hmemx.2.1] at hx
      obtain ⟨ys, hring⟩ := h.ring x hx'
      exact ⟨ys, hother hring hmemx⟩
  · rcases List.mem_append.mp hx with hx | hx
    · obtain ⟨g, ys, hg, hring, hxmem⟩ := h.loaded j x hx
      by_cases hgmem : g ∈ hd :: m :: xs
      · obtain ⟨zs, hring', hzs⟩ := hnewmem hgmem
        refine ⟨g, zs, hg, hring', (hzs x).mpr ?_⟩
        by_cases hgm : g = m
        · subst hgm
          rcases hm with hm | hm
          · exact absurd hm (hring.next_ne_none (by simp))
          · have := (hring.mem_iff_of_mem (IsRing.single hm) (z := g) (by simp) (by simp) x).mp hxmem
            simp only [List.mem_cons, List.not_mem_nil, or_false] at this ⊢
            tauto
        · have hgxs : g ∈ hd :: xs := by
            simp only [List.mem_cons] at hgmem ⊢
            tauto
          have := (hring.mem_iff_of_mem hhd (by simp) hgxs x).mp hxmem
          simp only [List.mem_cons] at this ⊢
          tauto
      · exact ⟨g, ys, hg, hother hring hgmem, hxmem⟩
    · obtain ⟨rfl, rfl⟩ : j = i ∧ x = m := by simpa using hx
      exact ⟨hd, x :: xs, hi, hnew, by simp⟩
  · by_cases hxm : x = m
    · exact ⟨i, by simp [hxm]⟩
    · have hx' : next x ≠ none := by
        by_cases hxhd : x = hd
        · exact hxhd ▸ hhd.next_ne_none (by simp)
        · rwa [Function.update_of_ne hxhd, Function.update_of_ne hxm] at hx
      obtain ⟨j, hj⟩ := h.origin x hx'
      exact ⟨j, by simp [hj]⟩

omit [DecidableEq M] in
/-- A module already on the list of the head is found there and nothing changes. -/
theorem RingInv.reload {next : M → Option M} {head : I → Option M} {loads : List (I × M)}
    (h : RingInv next head loads) {i : I} {m hd : M} {xs : List M} (hi : head i = some hd)
    (hhd : IsRing next hd xs) (hmem : m ∈ hd :: xs) :
    RingInv next head (loads ++ [(i, m)]) where
  ring := h.ring
  head_linked := h.head_linked
  loaded j x hx := by
    rcases List.mem_append.mp hx with hx | hx
    · exact h.loaded j x hx
    · obtain ⟨rfl, rfl⟩ : j = i ∧ x = m := by simpa using hx
      exact ⟨hd, xs, hi, hhd, hmem⟩
  origin x hx := by
    obtain ⟨j, hj⟩ := h.origin x hx
    exact ⟨j, by simp [hj]⟩

/-! ### One load -/

theorem moduleNext_setModuleNext (st : State M I) (m : M) (v : Option M) :
    (st.setModuleNext m v).moduleNext = Function.update st.moduleNext m v := by
  funext x
  by_cases hx : x = m <;> simp [State.moduleNext, State.setModuleNext, State.setModule, hx]

/-- The lists as they are when `SWIG_InitializeModule` looks for the module: a
module not linked before points to itself. -/
def selfLinked (next : M → Option M) (m : M) : M → Option M :=
  if (next m).isNone then Function.update next m (some m) else next

/-- What linking a module can do to the lists and the heads. -/
theorem linkModule_cases [DecidableEq I] {st st' : State M I} {fuel : ℕ} {i : I} {m : M} {init : Bool}
    (h : st.linkModule fuel i m = some (st', init)) :
    (st.head i = none ∧ st'.moduleNext = selfLinked st.moduleNext m ∧
        st'.head = Function.update st.head i (some m) ∧ init = (st.moduleNext m).isNone) ∨
      ∃ hd r, st.head i = some hd ∧ st'.head = st.head ∧
        walk (selfLinked st.moduleNext m) (fun x => if x = m then some () else none) hd fuel hd =
          some r ∧
        ((r = some () ∧ st'.moduleNext = selfLinked st.moduleNext m ∧ init = false) ∨
          (r = none ∧ st'.moduleNext = Function.update (Function.update
              (selfLinked st.moduleNext m) m (selfLinked st.moduleNext m hd)) hd (some m) ∧
            init = (st.moduleNext m).isNone)) := by
  have hself : (if (st.moduleNext m).isNone = true then st.setModuleNext m (some m)
      else st).moduleNext = selfLinked st.moduleNext m := by
    unfold selfLinked
    split
    · exact moduleNext_setModuleNext st m (some m)
    · rfl
  have hhead : (if (st.moduleNext m).isNone = true then st.setModuleNext m (some m)
      else st).head = st.head := by
    split <;> rfl
  simp only [State.linkModule, hhead] at h
  cases hi : st.head i with
  | none =>
      left
      rw [hi] at h
      cases h
      exact ⟨rfl, hself, by rw [State.setHead, hhead], rfl⟩
  | some hd =>
      right
      rw [hi] at h
      simp only [hself] at h
      obtain ⟨r, hwalk, h⟩ := Option.map_eq_some_iff.mp h
      refine ⟨hd, r, rfl, ?_, hwalk, ?_⟩
      · cases r <;> cases h <;> exact hhead
      · cases r with
        | some u =>
            cases h
            exact Or.inl ⟨rfl, hself, rfl⟩
        | none =>
            cases h
            exact Or.inr ⟨rfl, by simp only [moduleNext_setModuleNext, hself], rfl⟩

/-- The arrays are not touched while a module is linked in. -/
theorem linkModule_arrays [DecidableEq I] {st st' : State M I} {fuel : ℕ} {i : I} {m : M} {init : Bool}
    (h : st.linkModule fuel i m = some (st', init)) (x : M) :
    (st'.modules x).types = (st.modules x).types ∧
      (st'.modules x).size = (st.modules x).size := by
  have hset (s : State M I) (y : M) (v : Option M) :
      ((s.setModuleNext y v).modules x).types = (s.modules x).types ∧
        ((s.setModuleNext y v).modules x).size = (s.modules x).size := by
    by_cases hx : x = y <;>
      simp [State.setModuleNext, State.setModule, SwigModuleInfo.size, hx]
  have hself : ((if (st.moduleNext m).isNone = true then st.setModuleNext m (some m)
      else st).modules x).types = (st.modules x).types ∧
      ((if (st.moduleNext m).isNone = true then st.setModuleNext m (some m)
      else st).modules x).size = (st.modules x).size := by
    split
    · exact hset _ _ _
    · exact ⟨rfl, rfl⟩
  unfold State.linkModule at h
  dsimp only at h
  split at h
  · cases h
    exact hself
  · obtain ⟨r, -, h⟩ := Option.map_eq_some_iff.mp h
    cases r with
    | some u =>
        cases h
        exact hself
    | none =>
        cases h
        simpa only [hset] using hself

/-- `m` comes up when the list of the head of `i` is followed. -/
def OnList (st : State M I) (i : I) (m : M) : Prop :=
  ∃ hd, st.head i = some hd ∧ Relation.ReflTransGen (fun a b => st.moduleNext a = some b) hd m

/-- The loads that keep the lists circular: a module not linked yet or linked
with itself only, a first module of an interpreter, or one already on its list. -/
def SafeLoad (st : State M I) (i : I) (m : M) : Prop :=
  st.moduleNext m = none ∨ st.moduleNext m = some m ∨ st.head i = none ∨ OnList st i m

/-- The lists after the calls `loads`: every head is on a circular list, every
module loaded in an interpreter is on the list of its head, and every query all
the way round from a loaded module returns. -/
structure RingsOK (loads : List (I × M)) (st : State M I) : Prop where
  closes : ∀ i h, st.head i = some h → ∃ xs, IsRing st.moduleNext h xs
  visits : ∀ i m, (i, m) ∈ loads →
    ∃ h xs, st.head i = some h ∧ IsRing st.moduleNext h xs ∧ m ∈ h :: xs
  queries : ∀ i m, (i, m) ∈ loads →
    ∀ name, ∃ fuel r, st.mangledTypeQueryModule fuel m m name = some r

/-- The lists together with the arrays of the modules: those of linked modules
are filled in, the others still empty. -/
structure Linked (loads : List (I × M)) (st : State M I) : Prop where
  rings : RingInv st.moduleNext st.head loads
  filled : ∀ m, st.moduleNext m ≠ none → (st.modules m).types.length = (st.modules m).size
  fresh : ∀ m, st.moduleNext m = none → (st.modules m).types = []

omit [DecidableEq M] in
theorem linked_initial (tab : M → StaticModule) : Linked [] (.initial tab : State M I) where
  rings :=
    { ring := fun m hm => absurd rfl hm
      head_linked := fun i h hi => by cases hi
      loaded := fun i m hm => by cases hm
      origin := fun m hm => absurd rfl hm }
  filled m hm := absurd rfl hm
  fresh m _ := rfl

theorem Linked.ringsOK {loads : List (I × M)} {st : State M I} (h : Linked loads st) :
    RingsOK loads st where
  closes i hd hi := h.rings.ring hd (h.rings.head_linked i hd hi)
  visits := h.rings.loaded
  queries i m hm name := by
    obtain ⟨hd, xs, -, hring, hmem⟩ := h.rings.loaded i m hm
    obtain ⟨ys, hring', -⟩ := hring.rotate hmem
    refine ⟨ys.length + 1, Option.isSome_iff_exists.mp ?_⟩
    exact st.mangledTypeQueryModule_isSome name hring'.path (List.nodup_cons.mp hring'.nodup).1
      (fun x hx => h.filled x (hring'.next_ne_none hx)) (Nat.lt_succ_self _)

omit [DecidableEq M] in
/-- A module on the list of the head lies on the ring of the head. -/
theorem mem_ring_of_onList {st : State M I} {i : I} {m hd : M} {xs : List M}
    (h : OnList st i m) (hi : st.head i = some hd) (hring : IsRing st.moduleNext hd xs) :
    m ∈ hd :: xs := by
  obtain ⟨hd', hi', hreach⟩ := h
  obtain rfl : hd' = hd := Option.some.inj (hi'.symm.trans hi)
  induction hreach with
  | refl => simp
  | tail _ hnext ih =>
      obtain ⟨z, hz, hyz⟩ := hring.next_mem ih
      exact Option.some.inj (hnext.symm.trans hyz) ▸ hz

omit [DecidableEq M] in
theorem onList_of_mem_ring {st : State M I} {i : I} {m hd : M} {xs : List M}
    (hi : st.head i = some hd) (hring : IsRing st.moduleNext hd xs) (hm : m ∈ hd :: xs) :
    OnList st i m := by
  refine ⟨hd, hi, hring.subset_of_closed (S := fun x => Relation.ReflTransGen
    (fun a b => st.moduleNext a = some b) hd x) .refl (fun y z hy hyz => hy.tail hyz) m hm⟩

/-- The search for `m` in the list of a head. -/
theorem search_ring {next : M → Option M} {hd m : M} {xs : List M} {fuel : ℕ}
    {r : Option Unit} (hring : IsRing next hd xs)
    (hwalk : walk next (fun x => if x = m then some () else none) hd fuel hd = some r) :
    r = if m ∈ hd :: xs then some () else none := by
  have hlong := walk_mono hwalk (Nat.le_max_left fuel (xs.length + 1))
  rw [walk_of_ring hring (by omega)] at hlong
  obtain rfl := Option.some.inj hlong
  split
  · rename_i hmem
    obtain ⟨as, bs, heq⟩ := List.append_of_mem hmem
    have hsome : ((hd :: xs).findSome? fun x => if x = m then some () else none).isSome := by
      rw [List.findSome?_isSome_iff]
      exact ⟨m, hmem, by simp⟩
    exact Option.isSome_iff_exists.mp hsome |>.elim fun u hu => hu
  · rename_i hmem
    rw [List.findSome?_eq_none_iff]
    intro x hx
    rw [if_neg]
    rintro rfl
    exact hmem hx

/-- What a safe load does to the lists: they stay in order, the module gets
linked, and its table is filled in when it was not linked before. -/
theorem Linked.linkModule [DecidableEq I] {loads : List (I × M)} {st st₁ : State M I}
    (h : Linked loads st) {i : I} {m : M} {fuel : ℕ} {init : Bool} (hsafe : SafeLoad st i m)
    (hlink : st.linkModule fuel i m = some (st₁, init)) :
    RingInv st₁.moduleNext st₁.head (loads ++ [(i, m)]) ∧ init = (st.moduleNext m).isNone ∧
      st₁.moduleNext m ≠ none ∧
      ∀ x, x ≠ m → (st₁.moduleNext x = none ↔ st.moduleNext x = none) := by
  rcases linkModule_cases hlink with ⟨hi, hnext, hhead, hinit⟩ | ⟨hd, r, hi, hhead, hwalk, hcase⟩
  · cases hm : st.moduleNext m with
    | none =>
        rw [selfLinked, hm, Option.isNone_none, if_pos rfl] at hnext
        rw [hnext, hhead]
        refine ⟨h.rings.linkSelf hm hi, by rw [hinit, hm], by simp, fun x hx => ?_⟩
        rw [Function.update_of_ne hx]
    | some n =>
        rw [selfLinked, hm, Option.isNone_some, if_neg (by simp)] at hnext
        rw [hnext, hhead]
        exact ⟨h.rings.setHead (by simp [hm]) hi, by rw [hinit, hm], by simp [hm], fun x _ => Iff.rfl⟩
  · obtain ⟨xs, hring⟩ := h.rings.ring hd (h.rings.head_linked i hd hi)
    -- the list as spliced does not depend on whether `m` was first linked with itself
    have hsplice (hmem : m ∉ hd :: xs) (hfree : st.moduleNext m = none ∨ st.moduleNext m = some m)
        (hnext : st₁.moduleNext =
          Function.update (Function.update st.moduleNext m (st.moduleNext hd)) hd (some m)) :
        RingInv st₁.moduleNext st₁.head (loads ++ [(i, m)]) ∧ st₁.moduleNext m ≠ none ∧
          ∀ x, x ≠ m → (st₁.moduleNext x = none ↔ st.moduleNext x = none) := by
      have hmhd : m ≠ hd := fun e => hmem (by simp [e])
      rw [hnext, hhead]
      have hhd := hring.next_ne_none (y := hd) (by simp)
      refine ⟨h.rings.splice hfree hi hring hmem, ?_, fun x hx => ?_⟩
      · rwa [Function.update_of_ne hmhd, Function.update_self]
      · by_cases hxhd : x = hd
        · simp [hxhd, hhd]
        · rw [Function.update_of_ne hxhd, Function.update_of_ne hx]
    cases hm : st.moduleNext m with
    | none =>
        have hmem : m ∉ hd :: xs := fun hmem => hring.next_ne_none hmem hm
        have hself : selfLinked st.moduleNext m = Function.update st.moduleNext m (some m) := by
          rw [selfLinked, hm, Option.isNone_none, if_pos rfl]
        have hring' : IsRing (selfLinked st.moduleNext m) hd xs := by
          rw [hself]
          refine hring.congr fun x hx => Function.update_of_ne ?_ _ _
          rintro rfl
          exact hmem hx
        have hr := search_ring hring' hwalk
        rw [if_neg hmem] at hr
        rcases hcase with ⟨hr', -, -⟩ | ⟨-, hnext, hinit⟩
        · simp [hr] at hr'
        · have hmhd : hd ≠ m := fun e => hmem (by simp [e])
          rw [hself, Function.update_of_ne hmhd, Function.update_idem] at hnext
          have := hsplice hmem (Or.inl hm) hnext
          exact ⟨this.1, by rw [hinit, hm], this.2⟩
    | some n =>
        have hself : selfLinked st.moduleNext m = st.moduleNext := by
          rw [selfLinked, hm, Option.isNone_some, if_neg (by simp)]
        rw [hself] at hwalk hcase
        have hr := search_ring hring hwalk
        rcases hcase with ⟨hr', hnext, hinit⟩ | ⟨hr', hnext, hinit⟩
        · have hmem : m ∈ hd :: xs := by
            by_contra hmem
            rw [if_neg hmem] at hr
            simp [hr] at hr'
          rw [hnext, hhead]
          exact ⟨h.rings.reload hi hring hmem, by rw [hinit]; rfl, by simp [hm], fun x _ => Iff.rfl⟩
        · have hmem : m ∉ hd :: xs := by
            intro hmem
            rw [if_pos hmem] at hr
            simp [hr] at hr'
          have hfree : st.moduleNext m = none ∨ st.moduleNext m = some m := by
            rcases hsafe with hfree | hfree | hnone | hlist
            · exact Or.inl hfree
            · exact Or.inr hfree
            · simp [hi] at hnone
            · exact absurd (mem_ring_of_onList hlist hi hring) hmem
          have := hsplice hmem hfree hnext
          exact ⟨this.1, by rw [hinit, hm], this.2⟩

/-- A safe load keeps the lists in order and the arrays filled in. -/
theorem Linked.step [DecidableEq I] {loads : List (I × M)} {st st' : State M I}
    (h : Linked loads st) {i : I} {m : M} {fuel : ℕ} (hsafe : SafeLoad st i m)
    (hcall : st.initializeModule fuel i m = some st') : Linked (loads ++ [(i, m)]) st' := by
  obtain ⟨⟨st₁, init⟩, hlink, hfill⟩ := Option.bind_eq_some_iff.mp hcall
  obtain ⟨hrings, hinit, hm, hothers⟩ := h.linkModule hsafe hlink
  have harrays := linkModule_arrays hlink
  obtain ⟨k, hsame, hk⟩ : ∃ k, State.SameLists st₁ st' m k ∧
      k = if st.moduleNext m = none then (st.modules m).size else 0 := by
    cases hn : st.moduleNext m with
    | none =>
        rw [hinit, hn] at hfill
        refine ⟨_, State.sameLists_foldlM_linkType hfill, ?_⟩
        rw [List.length_range, (harrays m).2, if_pos rfl]
    | some n =>
        rw [hinit, hn] at hfill
        cases hfill
        exact ⟨0, .refl _ _, by simp⟩
  have hlen (x : M) : (st'.modules x).types.length =
      (st.modules x).types.length + if x = m then k else 0 := by
    rw [hsame.types, (harrays x).1]
  refine ⟨by rw [hsame.next, hsame.head]; exact hrings, fun x hx => ?_, fun x hx => ?_⟩
  · rw [hsame.next] at hx
    rw [hlen, hsame.size, (harrays x).2]
    by_cases hxm : x = m
    · subst hxm
      rw [if_pos rfl, hk]
      split
      · simp [h.fresh x ‹_›]
      · simpa using h.filled x ‹_›
    · rw [if_neg hxm]
      exact h.filled x fun hnone => hx ((hothers x hxm).mpr hnone)
  · rw [hsame.next] at hx
    have hxm : x ≠ m := by
      rintro rfl
      exact hm hx
    have := hlen x
    rw [h.fresh x ((hothers x hxm).mp hx), if_neg hxm] at this
    simpa using this

/-- A load that is not safe returns, and takes the module out of the list it
was in: its former predecessor no longer finds its way back. -/
theorem Linked.not_ringsOK [DecidableEq I] {loads : List (I × M)} {st : State M I}
    (h : Linked loads st) {i : I} {m : M} (hbad : ¬ SafeLoad st i m) :
    ∃ fuel st', st.initializeModule fuel i m = some st' ∧
      ¬ RingsOK (loads ++ [(i, m)]) st' := by
  simp only [SafeLoad, not_or] at hbad
  obtain ⟨hlinked, hself, hhead, hlist⟩ := hbad
  obtain ⟨hd, hi⟩ := Option.ne_none_iff_exists'.mp hhead
  obtain ⟨xs, hring⟩ := h.rings.ring hd (h.rings.head_linked i hd hi)
  have hmem : m ∉ hd :: xs := fun hmem => hlist (onList_of_mem_ring hi hring hmem)
  have hmhd : m ≠ hd := fun e => hmem (by simp [e])
  obtain ⟨n, hn⟩ := Option.ne_none_iff_exists'.mp hlinked
  -- the search passes all modules of the list without finding `m`
  have hwalk : walk st.moduleNext (fun x => if x = m then some () else none) hd (xs.length + 1)
      hd = some none := by
    rw [walk_of_ring hring (Nat.lt_succ_self _), List.findSome?_eq_none_iff.mpr]
    intro x hx
    rw [if_neg]
    rintro rfl
    exact hmem hx
  let st' := (st.setModuleNext m (st.moduleNext hd)).setModuleNext hd (some m)
  have hcall : st.initializeModule (xs.length + 1) i m = some st' := by
    have hlink : st.linkModule (xs.length + 1) i m = some (st', false) := by
      simp [State.linkModule, hn, hi, hwalk, st']
    rw [State.initializeModule, hlink]
    rfl
  have hnext : st'.moduleNext =
      Function.update (Function.update st.moduleNext m (st.moduleNext hd)) hd (some m) := by
    simp only [st', moduleNext_setModuleNext]
  refine ⟨_, st', hcall, fun hok => ?_⟩
  obtain ⟨ms, hmring⟩ := h.rings.ring m hlinked
  obtain ⟨y, hy, hym⟩ := hmring.exists_pred
  have hyne : y ≠ m := by
    rintro rfl
    exact hself hym
  have hyhd : y ≠ hd := by
    rintro rfl
    obtain ⟨z, hz, hyz⟩ := hring.next_mem (y := y) (by simp)
    exact hmem (Option.some.inj (hym.symm.trans hyz) ▸ hz)
  obtain ⟨j, hj⟩ := h.rings.origin y (by simp [hym])
  obtain ⟨g, ys, -, hgring, hymem⟩ := hok.visits j y (by simp [hj])
  have hnew := hring.splice hmem
  rw [← hnext] at hnew
  have hym' : st'.moduleNext y = some m := by
    rw [hnext, Function.update_of_ne hyhd, Function.update_of_ne hyne, hym]
  have hmmem : m ∈ g :: ys := by
    obtain ⟨z, hz, hyz⟩ := hgring.next_mem hymem
    exact Option.some.inj (hym'.symm.trans hyz) ▸ hz
  have hhdmem : hd ∈ g :: ys :=
    (hgring.mem_iff_of_mem hnew hmmem (by simp) hd).mpr (by simp)
  have hhdm : st'.moduleNext hd = some m := by rw [hnext, Function.update_self]
  exact hyhd (hgring.pred_unique hymem hhdmem hym' hhdm)

/-! ### Whole runs -/

/-- While all loads so far are safe, the lists are in order. -/
theorem Run.linked [DecidableEq I] {tab : M → StaticModule} {loads : List (I × M)}
    {st : State M I} (hrun : Run (.initial tab) loads st)
    (hsafe : ∀ ls i m, ls ++ [(i, m)] <+: loads → ∀ st', Run (.initial tab) ls st' →
      SafeLoad st' i m) : Linked loads st := by
  induction hrun with
  | nil => exact linked_initial tab
  | snoc fuel hrun hcall ih =>
      refine (ih fun ls i m hpre => hsafe ls i m (hpre.trans (List.prefix_append _ _))).step ?_ hcall
      exact hsafe _ _ _ (List.prefix_refl _) _ hrun

/-- In every sequence of loads, over any interpreters, the module lists are in
order after every call if and only if every call is a safe load. -/
theorem runs_ringsOK_iff_safe [DecidableEq I] (tab : M → StaticModule) (loads : List (I × M)) :
    (∀ ls, ls <+: loads → ∀ st : State M I, Run (.initial tab) ls st → RingsOK ls st) ↔
      ∀ ls i m, ls ++ [(i, m)] <+: loads → ∀ st : State M I, Run (.initial tab) ls st →
        SafeLoad st i m := by
  constructor
  · intro hok ls
    -- earlier loads are safe by induction, so that the invariant holds before this one
    induction hn : ls.length using Nat.strongRecOn generalizing ls with
    | _ n ih =>
        intro i m hpre st hrun
        by_contra hbad
        have hlinked : Linked ls st := by
          refine hrun.linked fun ls' i' m' hpre' st' hrun' => ?_
          have hlt : ls'.length < n := by
            have := hpre'.length_le
            simp only [List.length_append, List.length_singleton] at this
            omega
          exact ih _ hlt ls' rfl i' m'
            (hpre'.trans ((List.prefix_append _ _).trans hpre)) st' hrun'
        obtain ⟨fuel, st', hcall, hbroken⟩ := hlinked.not_ringsOK hbad
        exact hbroken (hok _ hpre st' (.snoc fuel hrun hcall))
  · intro hsafe ls hpre st hrun
    exact (hrun.linked fun ls' i m hpre' => hsafe ls' i m (hpre'.trans hpre)).ringsOK

/-- Modules 0 and 1 in interpreter 0, then 2 and 1 in interpreter 1: from the
head 0 the list leads to 1 and 2 and does not come back. -/
theorem rings_broken_by_second_interpreter :
    ∃ st : State ℕ ℕ, Run (.initial fun _ => []) [(0, 0), (0, 1), (1, 2), (1, 1)] st ∧
      st.head 0 = some 0 ∧ ¬ ∃ xs, IsRing st.moduleNext 0 xs := by
  have hrun : Run (State.initial fun _ : ℕ => []) (((([] ++ [(0, 0)]) ++ [(0, 1)]) ++ [(1, 2)]) ++
      [(1, 1)]) _ := .snoc 3 (.snoc 3 (.snoc 3 (.snoc 3 .nil rfl) rfl) rfl) rfl
  refine ⟨_, hrun, rfl, ?_⟩
  rintro ⟨xs, hring⟩
  obtain ⟨y, -, hy⟩ := hring.exists_pred
  match y with
  | 0 => cases hy
  | 1 => cases hy
  | 2 => cases hy
  | y + 3 => cases hy

end Swig.Runtime
