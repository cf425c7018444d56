import Swig.Runtime.TypeEquiv

/-!
`SWIG_TypeQueryModule`: the search for a mangled name, and then for an equivalent
human readable one, with the conditions under which it answers as documented.
-/

namespace Swig.Runtime

open CircularList Fuel Watched

variable {M I : Type} [DecidableEq M]

namespace State

variable (st : State M I)

/-- The loop over the first `n` types of an array. -/
def searchStr (name : Name) : ℕ → List (TypeRef M) → Watched (Option (TypeRef M))
  | 0, _ => return none
  | _ + 1, [] => fault
  | n + 1, t :: types =>
      match (st.types t).str with
      | none => searchStr name n types
      | some str => do
          if ← typeEquiv (str ++ [0]) (name ++ [0]) then return some t else searchStr name n types

/-- The walk through the module list with at most `n` modules visited. -/
def searchStrModules (stop : M) (name : Name) : ℕ → M → Watched (Option (TypeRef M))
  | 0, _ => fault
  | n + 1, iter => do
      match ← st.searchStr name (st.modules iter).size (st.modules iter).types with
      | some t => return some t
      | none =>
          match st.moduleNext iter with
          | none => fault
          | some next => if next = stop then return none else searchStrModules stop name n next

/-- `SWIG_TypeQueryModule`. -/
def typeQueryModule (fuel : ℕ) (start stop : M) (name : Name) : Watched (Option (TypeRef M)) := do
  match ← lift (st.mangledTypeQueryModule fuel start stop name) with
  | some ret => return some ret
  | none => st.searchStrModules stop name fuel start

/-- The type has a human readable name, and `SWIG_TypeEquiv` accepts it. -/
def Accepted (name : Name) (t : TypeRef M) : Prop :=
  ∃ str ∈ (st.types t).str, ∃ a ∈ visited str, Meets a name

/-- No comparison with the human readable name of the type overruns. -/
def Comparable (name : Name) (t : TypeRef M) : Prop :=
  ∀ str ∈ (st.types t).str, ∀ a ∈ upTo (Meets · name) (visited str), ¬ Overruns a name

instance (name : Name) : DecidablePred (st.Accepted name) := fun t =>
  inferInstanceAs (Decidable (∃ str ∈ (st.types t).str, _))

/-- The strings of the types are C strings. -/
def StrTerminated (types : List (TypeRef M)) : Prop :=
  ∀ t ∈ types, ∀ str ∈ (st.types t).str, ∀ c ∈ str, c ≠ 0

omit [DecidableEq M] in
theorem searchStr_clean_iff {name : Name} (hname : ∀ c ∈ name, c ≠ 0) {types : List (TypeRef M)}
    (hstr : st.StrTerminated types) (r : Option (TypeRef M)) :
    Clean (st.searchStr name types.length types) r ↔
      (∀ t ∈ upTo (st.Accepted name) types, st.Comparable name t) ∧ r = types.find? (st.Accepted name ·) := by
  induction types with
  | nil =>
      rw [List.length_nil, searchStr, clean_pure]
      simp [upTo, eq_comm]
  | cons t types ih =>
      obtain ⟨ht, htypes⟩ := List.forall_mem_cons.mp hstr
      have ih := ih htypes
      rw [List.length_cons, searchStr, forall_upTo_cons]
      cases hstr : (st.types t).str with
      | none =>
          have haccepted : ¬ st.Accepted name t := by
            rintro ⟨str, hmem, -⟩
            rw [hstr] at hmem
            cases hmem
          have hcomparable : st.Comparable name t := by
            intro str hmem
            rw [hstr] at hmem
            cases hmem
          dsimp only
          rw [ih, List.find?_cons_of_neg (by simpa using haccepted)]
          simp [haccepted, hcomparable]
      | some str =>
          have hsome {p : List Byte → Prop} : (∃ s ∈ (some str : Option Name), p s) ↔ p str := by simp
          have haccepted : st.Accepted name t ↔ ∃ a ∈ visited str, Meets a name := by
            rw [Accepted, hstr, hsome]
          have hcomparable : st.Comparable name t ↔ ∀ a ∈ upTo (Meets · name) (visited str), ¬ Overruns a name := by
            rw [Comparable, hstr]
            simp
          have hequiv (b : Bool) : Clean (typeEquiv (str ++ [0]) (name ++ [0])) b ↔
              st.Comparable name t ∧ b = decide (st.Accepted name t) := by
            rw [typeEquiv_clean_iff (ht str hstr) hname, hcomparable, decide_eq_decide.mpr haccepted]
          dsimp only
          rw [clean_bind]
          simp only [hequiv]
          by_cases hmem : st.Accepted name t
          · rw [List.find?_cons_of_pos (by simpa using hmem)]
            simp [hmem, clean_pure, eq_comm]
          · rw [List.find?_cons_of_neg (by simpa using hmem)]
            simp [hmem, ih, and_assoc]

theorem forall_upTo_append {α : Type*} {p q : α → Prop} [DecidablePred p] {xs ys : List α} :
    (∀ y ∈ upTo p (xs ++ ys), q y) ↔
      (∀ x ∈ upTo p xs, q x) ∧ ((∀ x ∈ xs, ¬ p x) → ∀ y ∈ upTo p ys, q y) := by
  induction xs with
  | nil => simp [upTo]
  | cons x xs ih =>
      rw [List.cons_append, forall_upTo_cons, forall_upTo_cons, ih, List.forall_mem_cons]
      by_cases hx : p x
      · simp [hx]
      · simp [hx, and_assoc]

/-- The types of the modules visited from `start` on. -/
def typesOf (ms : List M) : List (TypeRef M) := ms.flatMap fun m => (st.modules m).types

omit [DecidableEq M] in
/-- One module, when what comes behind it is known. -/
theorem searchStr_bind_clean_iff {name : Name} (hname : ∀ c ∈ name, c ≠ 0) {types others : List (TypeRef M)}
    (hstr : st.StrTerminated types) {rest : Watched (Option (TypeRef M))} {r : Option (TypeRef M)}
    (hrest : Clean rest r ↔
      (∀ t ∈ upTo (st.Accepted name) others, st.Comparable name t) ∧ r = others.find? (st.Accepted name ·)) :
    (∃ o, Clean (st.searchStr name types.length types) o ∧
        Clean (match o with | some t => pure (some t) | none => rest) r) ↔
      (∀ t ∈ upTo (st.Accepted name) (types ++ others), st.Comparable name t) ∧
        r = (types ++ others).find? (st.Accepted name ·) := by
  simp only [st.searchStr_clean_iff hname hstr, forall_upTo_append, List.find?_append]
  cases hfind : types.find? (st.Accepted name ·) with
  | some t =>
      have ht : ¬ ∀ x ∈ types, ¬ st.Accepted name x := fun h =>
        h t (List.mem_of_find?_eq_some hfind) (by simpa using List.find?_some hfind)
      simp only [ht, false_implies, and_true, Option.some_or]
      constructor
      · rintro ⟨o, ⟨h, rfl⟩, hr⟩
        exact ⟨h, (clean_pure.mp hr).symm⟩
      · rintro ⟨h, rfl⟩
        exact ⟨some t, ⟨h, rfl⟩, clean_pure.mpr rfl⟩
  | none =>
      have hnone : ∀ x ∈ types, ¬ st.Accepted name x := by simpa using List.find?_eq_none.mp hfind
      simp only [Option.none_or, and_assoc]
      constructor
      · rintro ⟨o, h, rfl, hr⟩
        obtain ⟨hothers, hr⟩ := hrest.mp hr
        exact ⟨h, fun _ => hothers, hr⟩
      · rintro ⟨h, hothers, hr⟩
        exact ⟨none, h, rfl, hrest.mpr ⟨hothers hnone, hr⟩⟩

/-- The walk looks at all the types of the modules as one search would. -/
theorem searchStrModules_clean_iff {name : Name} (hname : ∀ c ∈ name, c ≠ 0) {start stop : M} {xs : List M}
    (hpath : Path st.moduleNext start xs stop) (hstop : stop ∉ xs)
    (hfilled : ∀ m ∈ start :: xs, (st.modules m).types.length = (st.modules m).size)
    (hstr : st.StrTerminated (st.typesOf (start :: xs))) {n : ℕ} (hn : xs.length < n) (r : Option (TypeRef M)) :
    Clean (st.searchStrModules stop name n start) r ↔
      (∀ t ∈ upTo (st.Accepted name) (st.typesOf (start :: xs)), st.Comparable name t) ∧
        r = (st.typesOf (start :: xs)).find? (st.Accepted name ·) := by
  induction xs generalizing start n with
  | nil =>
      obtain ⟨n, rfl⟩ : ∃ k, n = k + 1 := ⟨n - 1, by omega⟩
      have hnext : st.moduleNext start = some stop := hpath
      have hround := @searchStr_bind_clean_iff M I st name hname (st.modules start).types []
        (fun t ht => hstr t (by simpa [typesOf] using ht)) (pure none) r (by simp [clean_pure, upTo, eq_comm])
      rw [searchStrModules, ← hfilled start List.mem_cons_self, clean_bind, hnext]
      dsimp only
      rw [if_pos rfl, hround]
      simp [typesOf]
  | cons y ys ih =>
      obtain ⟨n, rfl⟩ : ∃ k, n = k + 1 := ⟨n - 1, by omega⟩
      obtain ⟨hnext, hpath⟩ := hpath
      obtain ⟨hy, hys⟩ := not_or.mp (mt List.mem_cons.mpr hstop)
      have htypes : st.typesOf (start :: y :: ys) = (st.modules start).types ++ st.typesOf (y :: ys) := by
        rw [typesOf, List.flatMap_cons, ← typesOf]
      rw [htypes] at hstr ⊢
      have ih := ih hpath hys (fun m hm => hfilled m (List.mem_cons_of_mem _ hm))
        (fun t ht => hstr t (List.mem_append_right _ ht)) (n := n) (by simpa using hn)
      rw [searchStrModules, ← hfilled start List.mem_cons_self, clean_bind, hnext]
      dsimp only
      rw [if_neg (Ne.symm hy)]
      exact st.searchStr_bind_clean_iff hname (fun t ht => hstr t (List.mem_append_left _ ht)) ih

/-- The names that `SWIG_TypeQueryModule` has to find. -/
def Known (name : Name) (t : TypeRef M) : Prop :=
  (st.types t).name = name ∨ ∃ str ∈ (st.types t).str, Equivalent str name

/-- A type has the mangled name; or all comparisons read inside, and some type is
accepted where one is equivalent. -/
def QueryAnswers (name : Name) (types : List (TypeRef M)) : Prop :=
  (∃ t ∈ types, (st.types t).name = name) ∨
    (∀ t ∈ upTo (st.Accepted name) types, st.Comparable name t) ∧
      ((∃ t ∈ types, st.Accepted name t) ↔ ∃ t ∈ types, ∃ str ∈ (st.types t).str, Equivalent str name)

theorem typeQueryModule_iff {name : Name} (hname : ∀ c ∈ name, c ≠ 0) {start stop : M} {xs : List M}
    (hpath : Path st.moduleNext start xs stop) (hstop : stop ∉ xs)
    (hfilled : ∀ m ∈ start :: xs, (st.modules m).types.length = (st.modules m).size)
    (hsorted : ∀ m ∈ start :: xs, st.Sorted (st.modules m).types)
    (hstr : st.StrTerminated (st.typesOf (start :: xs))) :
    (∃ r N, (∀ n, N ≤ n → Clean (st.typeQueryModule n start stop name) r) ∧
      (r.isSome ↔ ∃ t ∈ st.typesOf (start :: xs), st.Known name t)) ↔
    st.QueryAnswers name (st.typesOf (start :: xs)) := by
  obtain ⟨N, hN⟩ := st.mangledTypeQueryModule_returns name hpath hstop hfilled hsorted
  rw [← typesOf] at hN
  have hquery (n : ℕ) (hn : N + xs.length < n) (r : Option (TypeRef M)) :
      Clean (st.typeQueryModule n start stop name) r ↔
        match st.findName name (st.typesOf (start :: xs)) with
        | some t => r = some t
        | none => (∀ t ∈ upTo (st.Accepted name) (st.typesOf (start :: xs)), st.Comparable name t) ∧
            r = (st.typesOf (start :: xs)).find? (st.Accepted name ·) := by
    rw [typeQueryModule, (clean_lift.mpr (hN n (by omega))).bind_iff]
    cases st.findName name (st.typesOf (start :: xs)) with
    | some t => exact clean_pure.trans eq_comm
    | none => exact st.searchStrModules_clean_iff hname hpath hstop hfilled hstr (by omega) r
  cases hfind : st.findName name (st.typesOf (start :: xs)) with
  | some t =>
      have ht : t ∈ st.typesOf (start :: xs) := List.mem_of_find?_eq_some hfind
      have htname : (st.types t).name = name := by simpa using List.find?_some hfind
      simp only [hfind] at hquery
      refine iff_of_true ⟨some t, N + xs.length + 1, fun n hn => (hquery n (by omega) _).mpr rfl, ?_⟩ (.inl ⟨t, ht, htname⟩)
      exact iff_of_true rfl ⟨t, ht, .inl htname⟩
  | none =>
      have hnone : ∀ t ∈ st.typesOf (start :: xs), (st.types t).name ≠ name := by
        simpa using List.find?_eq_none.mp hfind
      have hsome : ((st.typesOf (start :: xs)).find? (st.Accepted name ·)).isSome ↔
          ∃ t ∈ st.typesOf (start :: xs), st.Accepted name t := by simp
      have hknown : (∃ t ∈ st.typesOf (start :: xs), st.Known name t) ↔
          ∃ t ∈ st.typesOf (start :: xs), ∃ str ∈ (st.types t).str, Equivalent str name :=
        exists_congr fun t => and_congr_right fun ht => or_iff_right (hnone t ht)
      simp only [hfind] at hquery
      rw [hknown]
      constructor
      · rintro ⟨r, K, hclean, hr⟩
        obtain ⟨hinside, rfl⟩ := (hquery (K + (N + xs.length + 1)) (by omega) r).mp (hclean _ (by omega))
        exact .inr ⟨hinside, hsome.symm.trans hr⟩
      · rintro (⟨t, ht, htname⟩ | ⟨hinside, hr⟩)
        · exact absurd htname (hnone t ht)
        · exact ⟨_, N + xs.length + 1, fun n hn => (hquery n (by omega) _).mpr ⟨hinside, rfl⟩, hsome.trans hr⟩

end State

/-- When the comparison of type names, and the search that uses it, do what they say. -/
theorem typeNames_iff :
    (∀ a t m₁ m₂ : List Byte,
      (∃ v, Clean (typeNameComp { mem := a ++ m₁, left := a.length } { mem := t ++ m₂, left := t.length }) v) ↔
        ¬ Overruns a t) ∧
    (∀ nb tb m₁ m₂ : List Byte, (∀ c ∈ nb, c ≠ 0) → (∀ c ∈ tb, c ≠ 0) →
      (Clean (typeEquiv (nb ++ 0 :: m₁) (tb ++ 0 :: m₂)) (decide (Equivalent nb tb)) ↔ Answers nb tb)) ∧
    ∀ (st : State M I) (name : Name) (start stop : M) (xs : List M), (∀ c ∈ name, c ≠ 0) →
      Path st.moduleNext start xs stop → stop ∉ xs →
      (∀ m ∈ start :: xs, (st.modules m).types.length = (st.modules m).size ∧ st.Sorted (st.modules m).types) →
      st.StrTerminated (st.typesOf (start :: xs)) →
      ((∃ r N, (∀ n, N ≤ n → Clean (st.typeQueryModule n start stop name) r) ∧
        (r.isSome ↔ ∃ t ∈ st.typesOf (start :: xs), st.Known name t)) ↔
      st.QueryAnswers name (st.typesOf (start :: xs))) := by
  refine ⟨fun a t m₁ m₂ => ⟨fun ⟨v, hv⟩ h => typeNameComp_overruns m₁ m₂ h v hv, fun h => ?_⟩,
    fun nb tb m₁ m₂ hnb htb => typeEquiv_iff hnb htb m₁ m₂, ?_⟩
  · obtain ⟨v, hv, -⟩ := typeNameComp_clean m₁ m₂ h
    exact ⟨v, hv⟩
  · intro st name start stop xs hname hpath hstop hmodules hstr
    exact st.typeQueryModule_iff hname hpath hstop (fun m hm => (hmodules m hm).1) (fun m hm => (hmodules m hm).2) hstr

/-- A module on its own whose only type has the human readable name `str`. -/
def oneType (str : Name) : State Unit Unit where
  types _ := { name := lit "_p_a", str := some str, cast := none, clientdata := none }
  casts _ := { type := ((), 0), converter := none, next := none, prev := none }
  modules _ := { types := [((), 0)], next := some (), castInitial := [0] }
  head _ := some ()

/-- `a*` is found among `int|a *`. -/
theorem typeNames_oneType :
    ∃ r N, (∀ n, N ≤ n → Clean ((oneType (lit "int|a *")).typeQueryModule n () () (lit "a*")) r) ∧
      (r.isSome ↔ ∃ t ∈ (oneType (lit "int|a *")).typesOf [()], (oneType (lit "int|a *")).Known (lit "a*") t) := by
  obtain ⟨-, -, hquery⟩ := @typeNames_iff Unit Unit _
  apply (hquery (oneType (lit "int|a *")) (lit "a*") () () []
    (fun _ hc => ne_of_mem_of_not_mem hc (by decide)) rfl nofun ?_ ?_).mpr
  · refine .inr ⟨?_, ?_⟩
    · simp only [State.Comparable]
      decide
    · decide
  · intro m _
    exact ⟨rfl, List.pairwise_singleton ..⟩
  · intro t _ str hstr
    cases hstr
    exact fun _ hc => ne_of_mem_of_not_mem hc (by decide)

/-- A blank at the end: `a ` is not found equivalent to `a`, a comparison of `a ` with
itself leaves the names, and a type is not found. -/
theorem typeNames_blank_at_end :
    (¬ ∀ nb tb : List Byte, (∀ c ∈ nb, c ≠ 0) → (∀ c ∈ tb, c ≠ 0) →
      Clean (typeEquiv (nb ++ [0]) (tb ++ [0])) (decide (Equivalent nb tb))) ∧
    (¬ ∀ a t : List Byte,
      ∃ v, Clean (typeNameComp { mem := a ++ [0], left := a.length } { mem := t ++ [0], left := t.length }) v) ∧
    ¬ ∀ str name : List Byte, (∀ c ∈ str, c ≠ 0) → (∀ c ∈ name, c ≠ 0) →
      ∃ r, Clean ((oneType str).typeQueryModule 1 () () name) r ∧
        (r.isSome ↔ ∃ t ∈ (oneType str).typesOf [()], (oneType str).Known name t) := by
  have hblank : ∀ c ∈ lit "a ", c ≠ 0 := fun _ hc => ne_of_mem_of_not_mem hc (by decide)
  have hplain : ∀ c ∈ lit "a", c ≠ 0 := fun _ hc => ne_of_mem_of_not_mem hc (by decide)
  refine ⟨fun h => ?_, fun h => ?_, fun h => ?_⟩
  · have heq := h (lit "a ") (lit "a") hblank hplain
    have hfalse : Clean (typeEquiv (lit "a " ++ [0]) (lit "a" ++ [0])) false := rfl
    cases hfalse.unique heq
  · obtain ⟨v, hv⟩ := h (lit "a ") (lit "a ")
    exact absurd hv nofun
  · obtain ⟨r, hr, hknown⟩ := h (lit "a ") (lit "a") hblank hplain
    have hnone : Clean ((oneType (lit "a ")).typeQueryModule 1 () () (lit "a")) none := rfl
    obtain rfl := hnone.unique hr
    have hsome := hknown.mpr ⟨((), 0), List.mem_singleton_self _, .inr ⟨lit "a ", rfl, by decide⟩⟩
    cases hsome

end Swig.Runtime
