import Swig.Runtime.TypeInfo
import Swig.Lib.Fuel
import Mathlib.Tactic.Common

/-!
`SWIG_MangledTypeQueryModule` over filled arrays: the binary search in a
strictly sorted array finds the name when it is there, and the walk through the
module list finds it when it is in one of the modules passed.
-/

namespace Swig.Runtime

open CircularList Fuel

theorem ne_of_strcmp_lt {a b : Name} (h : strcmp a b = .lt) : a ≠ b := by
  rintro rfl
  rw [strcmp_eq_iff.mpr rfl] at h
  cases h

variable {M I : Type} [DecidableEq M]

namespace State

/-- The names of the types of an array strictly increase. -/
def Sorted (st : State M I) (types : List (TypeRef M)) : Prop :=
  types.Pairwise fun t u => strcmp (st.types t).name (st.types u).name = .lt

omit [DecidableEq M] in
/-- The search between `l` and `r` returns a type of the name, if one is there. -/
theorem searchTypes_spec (st : State M I) (name : Name) {types : List (TypeRef M)}
    (hsorted : st.Sorted types) {n l r : ℕ} (hlr : l ≤ r) (hr : r < types.length)
    (hn : r - l < n) :
    ∃ o, st.searchTypes name types n l r = some o ∧
      (∀ t, o = some t → t ∈ types ∧ (st.types t).name = name) ∧
      (o = none → ∀ k t, l ≤ k → k ≤ r → types[k]? = some t → (st.types t).name ≠ name) := by
  induction n generalizing l r with
  | zero => omega
  | succ n ih =>
      have hi : (l + r) / 2 < types.length := by omega
      obtain ⟨i, hidef⟩ : ∃ i, i = (l + r) / 2 := ⟨_, rfl⟩
      rw [← hidef] at hi
      have hbefore (k : ℕ) (t : TypeRef M) (hk : k < i) (ht : types[k]? = some t) :
          strcmp (st.types t).name (st.types types[i]).name = .lt := by
        obtain ⟨hk', rfl⟩ := List.getElem?_eq_some_iff.mp ht
        exact List.pairwise_iff_getElem.mp hsorted k i hk' hi hk
      have hafter (k : ℕ) (t : TypeRef M) (hk : i < k) (ht : types[k]? = some t) :
          strcmp (st.types types[i]).name (st.types t).name = .lt := by
        obtain ⟨hk', rfl⟩ := List.getElem?_eq_some_iff.mp ht
        exact List.pairwise_iff_getElem.mp hsorted i k hi hk' hk
      simp only [searchTypes, ← hidef, List.getElem?_eq_getElem hi]
      cases hcmp : strcmp name (st.types types[i]).name with
      | eq =>
          refine ⟨some types[i], rfl, ?_, fun h => by cases h⟩
          rintro t ⟨⟩
          exact ⟨List.getElem_mem hi, (strcmp_eq_iff.mp hcmp).symm⟩
      | lt =>
          -- the name comes before entry `i`, so it is none of those from `i` on
          have hge (k : ℕ) (t : TypeRef M) (hk : i ≤ k) (ht : types[k]? = some t) :
              (st.types t).name ≠ name := by
            refine (ne_of_strcmp_lt ?_).symm
            rcases Nat.lt_or_eq_of_le hk with hk | rfl
            · exact Std.TransCmp.lt_trans hcmp (hafter k t hk ht)
            · obtain ⟨-, rfl⟩ := List.getElem?_eq_some_iff.mp ht
              exact hcmp
          by_cases hi0 : i = 0
          · refine ⟨none, by simp [hi0], by simp, fun _ k t _ _ ht => hge k t (by omega) ht⟩
          · by_cases hl : l ≤ i - 1
            · obtain ⟨o, ho, hfound, hnone⟩ := ih hl (by omega) (by omega)
              refine ⟨o, by simp [hi0, hl, ho], hfound, fun h k t hlk hkr ht => ?_⟩
              rcases Nat.lt_or_ge k i with hk | hk
              · exact hnone h k t hlk (by omega) ht
              · exact hge k t hk ht
            · refine ⟨none, by simp [hi0, hl], by simp, fun _ k t hlk _ ht => ?_⟩
              exact hge k t (by omega) ht
      | gt =>
          have hle (k : ℕ) (t : TypeRef M) (hk : k ≤ i) (ht : types[k]? = some t) :
              (st.types t).name ≠ name := by
            have hlt : strcmp (st.types types[i]).name name = .lt :=
              Std.OrientedCmp.lt_of_gt hcmp
            refine ne_of_strcmp_lt ?_
            rcases Nat.lt_or_eq_of_le hk with hk | rfl
            · exact Std.TransCmp.lt_trans (hbefore k t hk ht) hlt
            · obtain ⟨-, rfl⟩ := List.getElem?_eq_some_iff.mp ht
              exact hlt
          by_cases hi1 : i + 1 ≤ r
          · obtain ⟨o, ho, hfound, hnone⟩ := ih hi1 hr (by omega)
            refine ⟨o, by simp [hi1, ho], hfound, fun h k t hlk hkr ht => ?_⟩
            rcases Nat.lt_or_ge i k with hk | hk
            · exact hnone h k t hk hkr ht
            · exact hle k t hk ht
          · refine ⟨none, by simp [hi1], by simp, fun _ k t _ hkr ht => ?_⟩
            exact hle k t (by omega) ht

/-- The first type of the list with a name. -/
def findName (st : State M I) (name : Name) (types : List (TypeRef M)) : Option (TypeRef M) :=
  types.find? fun t => (st.types t).name == name

omit [DecidableEq M] in
theorem findName_eq_of_sorted {st : State M I} {types : List (TypeRef M)}
    (hsorted : st.Sorted types) {t : TypeRef M} (ht : t ∈ types) :
    st.findName (st.types t).name types = some t := by
  induction types with
  | nil => cases ht
  | cons u us ih =>
      obtain ⟨hu, hus⟩ := List.pairwise_cons.mp hsorted
      rw [findName, List.find?_cons]
      rcases List.mem_cons.mp ht with rfl | ht
      · simp
      · rw [show ((st.types u).name == (st.types t).name) = false by
          simpa using ne_of_strcmp_lt (hu t ht)]
        exact ih hus ht

omit [DecidableEq M] in
/-- A filled module answers with its type of the name. -/
theorem searchModule_eq {st : State M I} {m : M} (name : Name)
    (hfilled : (st.modules m).types.length = (st.modules m).size)
    (hsorted : st.Sorted (st.modules m).types) :
    st.searchModule name m = some (st.findName name (st.modules m).types) := by
  unfold searchModule
  by_cases hsize : (st.modules m).size = 0
  · rw [hsize] at hfilled
    rw [List.length_eq_zero_iff.mp hfilled]
    simp [hsize, findName]
  · obtain ⟨o, ho, hfound, hnone⟩ := st.searchTypes_spec name hsorted (n := (st.modules m).size)
      (Nat.zero_le _) (r := (st.modules m).size - 1) (by omega) (by omega)
    simp only [hsize, if_false, ho]
    cases o with
    | some t =>
        obtain ⟨hmem, rfl⟩ := hfound t rfl
        rw [findName_eq_of_sorted hsorted hmem]
    | none =>
        refine congrArg some (List.find?_eq_none.mpr ?_).symm
        intro t ht
        obtain ⟨k, hk, rfl⟩ := List.getElem_of_mem ht
        have := hnone rfl k _ (Nat.zero_le _) (by omega) (List.getElem?_eq_getElem hk)
        simpa using this

omit [DecidableEq M] in
/-- Searching one array after the other is one search through all the types. -/
theorem findSome_findName (st : State M I) (name : Name) {β : Type} (g : TypeRef M → β)
    {f : M → Option β} {ms : List M}
    (hf : ∀ m ∈ ms, f m = (st.findName name (st.modules m).types).map g) :
    ms.findSome? f = (st.findName name (ms.flatMap fun m => (st.modules m).types)).map g := by
  induction ms with
  | nil => rfl
  | cons m ms ih =>
      have ih := ih fun x hx => hf x (by simp [hx])
      rw [List.findSome?_cons, hf m (by simp)]
      rw [findName] at ih ⊢
      rw [List.flatMap_cons, findName, List.find?_append]
      cases List.find? (fun t => (st.types t).name == name) (st.modules m).types with
      | some t => rfl
      | none => simpa using ih

theorem mono_mangledTypeQueryModule (st : State M I) (start stop : M) (name : Name) :
    Mono fun n => st.mangledTypeQueryModule n start stop name :=
  Mono.bind (fun _ _ _ hnm h => walk_mono h hnm) fun _ => .const _

theorem mangledTypeQueryModule_returns (st : State M I) (name : Name) {start stop : M}
    {xs : List M} (hpath : Path st.moduleNext start xs stop) (hstop : stop ∉ xs)
    (hfilled : ∀ m ∈ start :: xs, (st.modules m).types.length = (st.modules m).size)
    (hsorted : ∀ m ∈ start :: xs, st.Sorted (st.modules m).types) :
    Returns (fun n => st.mangledTypeQueryModule n start stop name)
      (st.findName name ((start :: xs).flatMap fun m => (st.modules m).types)) := by
  refine ⟨xs.length + 1, fun n hn => ?_⟩
  show st.mangledTypeQueryModule n start stop name = _
  rw [mangledTypeQueryModule, walk_of_path hpath hstop (by omega), Option.bind_some,
    st.findSome_findName name fun t => some (some t)]
  · cases st.findName name _ <;> rfl
  · intro m hm
    rw [searchModule_eq name (hfilled m hm) (hsorted m hm)]
    cases st.findName name (st.modules m).types <;> rfl

theorem mono_queryOthers (st : State M I) (m : M) (name : Name) :
    Mono fun n => st.queryOthers n m name := by
  unfold queryOthers
  cases st.moduleNext m with
  | none => exact .const _
  | some n =>
      dsimp only
      split
      · exact .const _
      · exact st.mono_mangledTypeQueryModule n m name

/-- The other modules on the list of `m` answer as one search through all their
types would. -/
theorem queryOthers_returns (st : State M I) (name : Name) {m : M} {xs : List M}
    (hring : IsRing st.moduleNext m xs)
    (hfilled : ∀ x ∈ xs, (st.modules x).types.length = (st.modules x).size)
    (hsorted : ∀ x ∈ xs, st.Sorted (st.modules x).types) :
    Returns (fun n => st.queryOthers n m name)
      (st.findName name (xs.flatMap fun x => (st.modules x).types)) := by
  have hmxs : m ∉ xs := (List.nodup_cons.mp hring.nodup).1
  cases xs with
  | nil =>
      have hnext : st.moduleNext m = some m := hring.path
      exact (Returns.const none).congr fun n => by simp [queryOthers, hnext]
  | cons y ys =>
      obtain ⟨hnext, hpath⟩ := hring.path
      simp only [List.mem_cons, not_or] at hmxs
      refine (st.mangledTypeQueryModule_returns name hpath hmxs.2 hfilled hsorted).congr
        fun n => ?_
      simp [queryOthers, hnext, Ne.symm hmxs.1]

/-- Only what the other modules hold matters to the query. -/
theorem queryOthers_congr {st st' : State M I} {m : M} (n : ℕ) (name : Name)
    (hnext : st'.moduleNext = st.moduleNext)
    (hmods : ∀ x, x ≠ m → (st'.modules x) = st.modules x)
    (hnames : ∀ t, (st'.types t).name = (st.types t).name) :
    st'.queryOthers n m name = st.queryOthers n m name := by
  have hsearch (types : List (TypeRef M)) (k l r : ℕ) :
      st'.searchTypes name types k l r = st.searchTypes name types k l r := by
    induction k generalizing l r with
    | zero => rfl
    | succ k ih => simp only [searchTypes, hnames, ih]
  have hmodule (x : M) (hx : x ≠ m) : st'.searchModule name x = st.searchModule name x := by
    simp only [searchModule, hmods x hx, hsearch]
  unfold queryOthers
  rw [hnext]
  cases st.moduleNext m with
  | none => rfl
  | some y =>
      dsimp only
      split
      · rfl
      · simp only [mangledTypeQueryModule, hnext]
        rw [walk_congr fun x hx => by rw [hmodule x hx]]
        assumption

end State

end Swig.Runtime
