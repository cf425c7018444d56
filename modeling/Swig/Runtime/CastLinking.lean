import Swig.Runtime.CastList
import Swig.Runtime.ModuleRing
import Swig.Runtime.TypeQuery

/-!
The cast lists after a sequence of loads in one interpreter.

While a module is loaded, a type of its table stands for the type of the same
name in the other modules, if they have one, and for itself otherwise. The
casts of a row are added to the list of the type the row stands for, each
pointing to the type its own name stands for. One case goes wrong: when both
types are known already but the pair is not, the cast keeps the pointer to the
type of its own table. The lists are in order as long as no load does that.
-/

namespace Swig.Runtime

open CircularList DoublyLinked Fuel

variable {M I : Type}

/-- The name of a type in the generated tables. -/
def nameOf (tab : M → StaticModule) (t : TypeRef M) : Name :=
  ((tab t.1)[t.2]?.map StaticType.name).getD []

/-- The entry of the type table that cast `j` of row `i` refers to. -/
def rowEntry (tab : M → StaticModule) (m : M) (i j : ℕ) : Option ℕ :=
  (tab m)[i]?.bind fun t => t.row[j]?.map Prod.fst

/-- What the generator writes: the types sorted by name, and for each a row of
types of the same table, the type itself first and none twice. -/
structure StaticModule.WellFormed (tab : StaticModule) : Prop where
  sorted : tab.Pairwise fun s t => strcmp s.name t.name = .lt
  starts : ∀ (i : ℕ) (s : StaticType), tab[i]? = some s → (s.row.map Prod.fst).head? = some i
  bound : ∀ s ∈ tab, ∀ e ∈ s.row, e.1 < tab.length
  nodup : ∀ s ∈ tab, (s.row.map Prod.fst).Nodup

namespace StaticModule.WellFormed

variable {tab : M → StaticModule} {m : M}

theorem nameOf_inj (h : (tab m).WellFormed) {k l : ℕ} (hk : k < (tab m).length)
    (hl : l < (tab m).length) (heq : nameOf tab (m, k) = nameOf tab (m, l)) : k = l := by
  simp only [nameOf, List.getElem?_eq_getElem hk, List.getElem?_eq_getElem hl,
    Option.map_some, Option.getD_some] at heq
  rcases Nat.lt_trichotomy k l with hkl | hkl | hkl
  · exact absurd heq (ne_of_strcmp_lt (List.pairwise_iff_getElem.mp h.sorted k l hk hl hkl))
  · exact hkl
  · exact absurd heq.symm (ne_of_strcmp_lt (List.pairwise_iff_getElem.mp h.sorted l k hl hk hkl))

theorem rowEntry_lt (h : (tab m).WellFormed) {i j e : ℕ} (he : rowEntry tab m i j = some e) :
    i < (tab m).length ∧ e < (tab m).length := by
  obtain ⟨s, hs, he⟩ := Option.bind_eq_some_iff.mp he
  obtain ⟨x, hx, rfl⟩ := Option.map_eq_some_iff.mp he
  exact ⟨(List.getElem?_eq_some_iff.mp hs).1,
    h.bound s (List.mem_of_getElem? hs) x (List.mem_of_getElem? hx)⟩

theorem rowEntry_inj (h : (tab m).WellFormed) {i j j' e : ℕ} (he : rowEntry tab m i j = some e)
    (he' : rowEntry tab m i j' = some e) : j = j' := by
  obtain ⟨s, hs, he⟩ := Option.bind_eq_some_iff.mp he
  obtain ⟨s', hs', he'⟩ := Option.bind_eq_some_iff.mp he'
  obtain rfl := Option.some.inj (hs.symm.trans hs')
  rw [← List.getElem?_map] at he he'
  obtain ⟨hj, -⟩ := List.getElem?_eq_some_iff.mp he
  exact (List.getElem?_inj hj (h.nodup s (List.mem_of_getElem? hs))).mp (he.trans he'.symm)

end StaticModule.WellFormed

theorem rowEntry_isSome_iff {tab : M → StaticModule} {m : M} {i j : ℕ} :
    (∃ e, rowEntry tab m i j = some e) ↔
      j < ((tab m).map fun t => t.row.length).getD i 0 := by
  rw [List.getD_eq_getElem?_getD, List.getElem?_map, rowEntry]
  cases (tab m)[i]? with
  | none => simp
  | some s =>
      simp only [Option.bind_some, Option.map_some, Option.getD_some, Option.map_eq_some_iff]
      constructor
      · rintro ⟨e, x, hx, -⟩
        exact (List.getElem?_eq_some_iff.mp hx).1
      · intro hj
        exact ⟨_, _, List.getElem?_eq_getElem hj, rfl⟩

/-! ### The lists in order -/

/-- The canonical types, those reachable through the arrays of the modules. -/
def Canonical (st : State M I) (t : TypeRef M) : Prop := ∃ m, t ∈ (st.modules m).types

/-- The cast list of `t` has an entry for the type `u`. -/
def HasEntry (st : State M I) (t u : TypeRef M) : Prop :=
  ∃ cs, IsList st.castNext st.castPrev (st.types t).cast cs ∧ ∃ c ∈ cs, st.castType c = u

/-- When `m` is loaded, no row of a type known already has a cast to a type
known already that the cast list of the former does not have. -/
def CastsListed (st : State M I) (m : M) : Prop :=
  st.moduleNext m = none → ∀ i j t u, i < (st.modules m).size →
    j < (st.modules m).castInitial.getD i 0 → Canonical st t → Canonical st u →
    (st.types t).name = (st.types (m, i)).name →
    (st.types u).name = (st.types (st.castType (m, i, j))).name → HasEntry st t u

/-- The canonical type of a name is unique, every entry of a cast list points
to the canonical type of its name, no two to types of one name, and the two
checks agree. -/
structure CastsOK [DecidableEq M] (st : State M I) : Prop where
  unique : ∀ t u, Canonical st t → Canonical st u → (st.types t).name = (st.types u).name → t = u
  list : ∀ t, Canonical st t → ∃ cs, IsList st.castNext st.castPrev (st.types t).cast cs ∧
    (∀ c ∈ cs, Canonical st (st.castType c)) ∧
    (cs.map fun c => (st.types (st.castType c)).name).Nodup
  check : ∀ t, Canonical st t → ∀ name, ∃ r s,
    Returns (fun n => st.typeCheck n name t) (r, s) ∧
    (r.isSome ↔ ∃ u, Canonical st u ∧ (st.types u).name = name ∧
      ∃ c s', Returns (fun n => st.typeCheckStruct n u t) (some c, s'))

variable [DecidableEq M]

/-! ### What one load leaves alone -/

/-- Filling in the table of `m` changes nothing of the other modules but the
cast lists of their types. -/
structure SameOthers (m : M) (st st' : State M I) : Prop where
  next : st'.moduleNext = st.moduleNext
  head : st'.head = st.head
  modules : ∀ x, x ≠ m → st'.modules x = st.modules x
  castInitial : (st'.modules m).castInitial = (st.modules m).castInitial
  name : ∀ t, (st'.types t).name = (st.types t).name
  castType : ∀ c : CastRef M, c.1 ≠ m → st'.castType c = st.castType c

omit [DecidableEq M] in
theorem SameOthers.refl (m : M) (st : State M I) : SameOthers m st st :=
  ⟨rfl, rfl, fun _ _ => rfl, rfl, fun _ => rfl, fun _ _ => rfl⟩

omit [DecidableEq M] in
theorem SameOthers.trans {m : M} {st₁ st₂ st₃ : State M I} (h₁ : SameOthers m st₁ st₂)
    (h₂ : SameOthers m st₂ st₃) : SameOthers m st₁ st₃ where
  next := h₂.next.trans h₁.next
  head := h₂.head.trans h₁.head
  modules x hx := (h₂.modules x hx).trans (h₁.modules x hx)
  castInitial := h₂.castInitial.trans h₁.castInitial
  name t := (h₂.name t).trans (h₁.name t)
  castType c hc := (h₂.castType c hc).trans (h₁.castType c hc)

omit [DecidableEq M] in
theorem State.SameTables.sameOthers {st st' : State M I} (h : State.SameTables st st') (m : M) :
    SameOthers m st st' where
  next := by funext x; rw [State.moduleNext, State.moduleNext, h.modules]
  head := h.head
  modules x _ := by rw [h.modules]
  castInitial := by rw [h.modules]
  name := h.name
  castType c _ := by rw [h.castType]

/-! ### Loading one module -/

/-- What the load of `m` starts from. `known` is the type the other modules
have for a name. -/
structure Loading (tab : M → StaticModule) (m : M) (st₁ : State M I)
    (known : Name → Option (TypeRef M)) : Prop where
  wf : (tab m).WellFormed
  name : ∀ t, (st₁.types t).name = nameOf tab t
  rows : (st₁.modules m).castInitial = (tab m).map fun t => t.row.length
  query : ∀ name, Returns (fun n => st₁.queryOthers n m name) (known name)
  known_name : ∀ name t, known name = some t → nameOf tab t = name ∧ t.1 ≠ m

/-- The type that entry `k` of the table of `m` stands for. -/
def target (tab : M → StaticModule) (m : M) (known : Name → Option (TypeRef M)) (k : ℕ) :
    TypeRef M :=
  (known (nameOf tab (m, k))).getD (m, k)

/-- Cast `j'` of row `i'` comes before cast `j` of row `i`. -/
def Before (i' j' i j : ℕ) : Prop := i' < i ∨ i' = i ∧ j' < j

/-- The state after the rows before `i` and the casts before `j` of row `i`.
`listed` are the entries the lists had before the load. -/
structure Progress (tab : M → StaticModule) (m : M) (st₁ : State M I)
    (known : Name → Option (TypeRef M)) (listed : TypeRef M → TypeRef M → Prop) (i j : ℕ)
    (st : State M I) (L : TypeRef M → List (CastRef M)) : Prop where
  others : SameOthers m st₁ st
  array : (st.modules m).types = (List.range i).map (target tab m known)
  pending : ∀ i' j' e, rowEntry tab m i' j' = some e → ¬ Before i' j' i j →
    st.castType (m, i', j') = (m, e)
  lists : State.CastLists st L
  entry : ∀ t c, c ∈ L t →
    (st₁.moduleNext c.1 ≠ none ∧ c.1 ≠ m ∧ known (nameOf tab t) = some t ∧
      known (nameOf tab (st.castType c)) = some (st.castType c)) ∨
    ∃ i' j' e, c = (m, i', j') ∧ Before i' j' i j ∧ rowEntry tab m i' j' = some e ∧
      t = target tab m known i' ∧ st.castType c = target tab m known e
  nodup : ∀ t, ((L t).map st.castType).Nodup
  kept : ∀ t u, listed t u → ∃ c ∈ L t, st.castType c = u

section Load

variable {tab : M → StaticModule} {m : M} {st₁ : State M I}
  {known : Name → Option (TypeRef M)} {listed : TypeRef M → TypeRef M → Prop}

theorem Loading.nameOf_target (h : Loading tab m st₁ known) (k : ℕ) :
    nameOf tab (target tab m known k) = nameOf tab (m, k) := by
  unfold target
  cases hk : known (nameOf tab (m, k)) with
  | none => rfl
  | some t => exact (h.known_name _ t hk).1

theorem Loading.target_inj (h : Loading tab m st₁ known) {k l : ℕ} (hk : k < (tab m).length)
    (hl : l < (tab m).length) (heq : target tab m known k = target tab m known l) : k = l := by
  refine h.wf.nameOf_inj hk hl ?_
  rw [← h.nameOf_target, heq, h.nameOf_target]

/-- An entry stands for itself exactly when its name is not known. -/
theorem Loading.target_eq_self_iff (h : Loading tab m st₁ known) (k : ℕ) :
    target tab m known k = (m, k) ↔ known (nameOf tab (m, k)) = none := by
  unfold target
  cases hk : known (nameOf tab (m, k)) with
  | none => simp
  | some t =>
      have := (h.known_name _ t hk).2
      refine ⟨fun e => ?_, fun e => by cases e⟩
      exact absurd (congrArg Prod.fst e) this

/-- The type of the row and the type of the cast are not both known, or the
pair is not listed: the list has no entry for that type yet. -/
theorem Progress.fresh (h : Loading tab m st₁ known) {i j : ℕ} {st : State M I}
    {L : TypeRef M → List (CastRef M)} (hp : Progress tab m st₁ known listed i j st L) {e : ℕ}
    (he : rowEntry tab m i j = some e)
    (hnew : known (nameOf tab (m, i)) = none ∨ known (nameOf tab (m, e)) = none) :
    target tab m known e ∉ (L (target tab m known i)).map st.castType := by
  obtain ⟨hi, hlen⟩ := h.wf.rowEntry_lt he
  intro hmem
  obtain ⟨c, hc, hce⟩ := List.mem_map.mp hmem
  rcases hp.entry _ c hc with ⟨-, -, ht, hu⟩ | ⟨i', j', e', -, hbefore, he', ht, hu⟩
  · -- an entry from before the load: both types are known
    rw [hce, h.nameOf_target] at hu
    rw [h.nameOf_target] at ht
    rcases hnew with hnew | hnew
    · rw [hnew] at ht
      cases ht
    · rw [hnew] at hu
      cases hu
  · obtain ⟨hi', hlen'⟩ := h.wf.rowEntry_lt he'
    obtain rfl := h.target_inj hi hi' ht
    obtain rfl := h.target_inj hlen hlen' (hce.symm.trans hu)
    obtain rfl := h.wf.rowEntry_inj he he'
    rcases hbefore with hlt | ⟨-, hlt⟩ <;> omega

/-- Adding a cast that points to the type it stands for. -/
theorem Progress.addCast {i j : ℕ} {st : State M I}
    {L : TypeRef M → List (CastRef M)} (hp : Progress tab m st₁ known listed i j st L) {e : ℕ}
    (he : rowEntry tab m i j = some e) {s : State M I} (hs : SameOthers m st₁ s)
    (harray : (s.modules m).types = (st.modules m).types)
    (hlists : State.CastLists s L)
    (htype : s.castType = Function.update st.castType (m, i, j) (target tab m known e))
    (hfresh : target tab m known e ∉ (L (target tab m known i)).map st.castType) :
    Progress tab m st₁ known listed i (j + 1) (s.addCast (target tab m known i) (m, i, j))
      (Function.update L (target tab m known i) ((m, i, j) :: L (target tab m known i))) := by
  -- the cast is on no list yet, so that the entries keep their types
  have hnot (t : TypeRef M) : (m, i, j) ∉ L t := by
    intro hc
    rcases hp.entry t _ hc with ⟨-, hne, -⟩ | ⟨i', j', e', heq, hbefore, -⟩
    · exact hne rfl
    · simp only [Prod.mk.injEq, true_and] at heq
      obtain ⟨rfl, rfl⟩ := heq
      rcases hbefore with hlt | ⟨-, hlt⟩ <;> omega
  have htypeof {t : TypeRef M} {c : CastRef M} (hc : c ∈ L t) : s.castType c = st.castType c := by
    rw [htype, Function.update_of_ne]
    rintro rfl
    exact hnot t hc
  have hmap (t : TypeRef M) : (L t).map s.castType = (L t).map st.castType :=
    List.map_congr_left fun c hc => htypeof hc
  obtain ⟨hsame, hadd⟩ := hlists.addCast (target tab m known i) hnot
  have hself : s.castType (m, i, j) = target tab m known e := by rw [htype, Function.update_self]
  refine ⟨hs.trans (hsame.sameOthers m), by rw [hsame.modules, harray, hp.array], ?_, hadd, ?_, ?_, ?_⟩
  · intro i' j' e' he' hbefore
    have hne : (m, i', j') ≠ (m, i, j) := by
      intro heq
      simp only [Prod.mk.injEq, true_and] at heq
      exact hbefore (Or.inr ⟨heq.1, by omega⟩)
    rw [hsame.castType, htype, Function.update_of_ne hne]
    refine hp.pending i' j' e' he' fun hb => hbefore ?_
    rcases hb with hb | ⟨rfl, hb⟩
    · exact Or.inl hb
    · exact Or.inr ⟨rfl, by omega⟩
  · intro t c hc
    rw [hsame.castType]
    have hold (hc : c ∈ L t) :
        (st₁.moduleNext c.1 ≠ none ∧ c.1 ≠ m ∧ known (nameOf tab t) = some t ∧
          known (nameOf tab (s.castType c)) = some (s.castType c)) ∨
        ∃ i' j' e', c = (m, i', j') ∧ Before i' j' i (j + 1) ∧ rowEntry tab m i' j' = some e' ∧
          t = target tab m known i' ∧ s.castType c = target tab m known e' := by
      rw [htypeof hc]
      rcases hp.entry t c hc with hknown | ⟨i', j', e', heq, hbefore, hrest⟩
      · exact Or.inl hknown
      · refine Or.inr ⟨i', j', e', heq, ?_, hrest⟩
        rcases hbefore with hb | ⟨rfl, hb⟩
        · exact Or.inl hb
        · exact Or.inr ⟨rfl, by omega⟩
    by_cases ht : t = target tab m known i
    · subst ht
      rw [Function.update_self] at hc
      rcases List.mem_cons.mp hc with rfl | hc
      · exact Or.inr ⟨i, j, e, rfl, Or.inr ⟨rfl, by omega⟩, he, rfl, hself⟩
      · exact hold hc
    · rw [Function.update_of_ne ht] at hc
      exact hold hc
  · intro t
    rw [hsame.castType]
    by_cases ht : t = target tab m known i
    · subst ht
      rw [Function.update_self, List.map_cons, hmap, hself]
      exact List.nodup_cons.mpr ⟨hfresh, hp.nodup _⟩
    · rw [Function.update_of_ne ht, hmap]
      exact hp.nodup t
  · intro t u hl
    obtain ⟨c, hc, hcu⟩ := hp.kept t u hl
    rw [hsame.castType]
    refine ⟨c, ?_, (htypeof hc).trans hcu⟩
    by_cases ht : t = target tab m known i
    · subst ht
      rw [Function.update_self]
      exact List.mem_cons_of_mem _ hc
    · rwa [Function.update_of_ne ht]

omit [DecidableEq M] in
/-- A cast that is found in the list already is left out; only the order of the
entries changes. -/
theorem Progress.reorder {i j : ℕ} {st st' : State M I}
    {L L' : TypeRef M → List (CastRef M)} (hp : Progress tab m st₁ known listed i j st L)
    (hsame : State.SameTables st st') (hlists : State.CastLists st' L')
    (hperm : ∀ t, (L' t).Perm (L t)) :
    Progress tab m st₁ known listed i (j + 1) st' L' := by
  refine ⟨hp.others.trans (hsame.sameOthers m), by rw [hsame.modules, hp.array], ?_, hlists, ?_, ?_, ?_⟩
  · intro i' j' e he hbefore
    rw [hsame.castType]
    refine hp.pending i' j' e he fun hb => hbefore ?_
    rcases hb with hb | ⟨rfl, hb⟩
    · exact Or.inl hb
    · exact Or.inr ⟨rfl, by omega⟩
  · intro t c hc
    rw [hsame.castType]
    rcases hp.entry t c ((hperm t).mem_iff.mp hc) with hknown | ⟨i', j', e, heq, hbefore, hrest⟩
    · exact Or.inl hknown
    · refine Or.inr ⟨i', j', e, heq, ?_, hrest⟩
      rcases hbefore with hb | ⟨rfl, hb⟩
      · exact Or.inl hb
      · exact Or.inr ⟨rfl, by omega⟩
  · intro t
    rw [hsame.castType]
    exact ((hperm t).map _).nodup_iff.mpr (hp.nodup t)
  · intro t u hl
    obtain ⟨c, hc, hcu⟩ := hp.kept t u hl
    exact ⟨c, (hperm t).mem_iff.mpr hc, by rwa [hsame.castType]⟩

theorem castLists_setCastType {st : State M I} {L : TypeRef M → List (CastRef M)}
    (h : State.CastLists st L) (c : CastRef M) (v : TypeRef M) :
    State.CastLists (st.setCastType c v) L := by
  have hnext : (st.setCastType c v).castNext = st.castNext := by
    ext1 d
    by_cases hd : d = c
    · subst hd
      simp [State.castNext, State.setCastType, State.setCast]
    · simp [State.castNext, State.setCastType, State.setCast, hd]
  have hprev : (st.setCastType c v).castPrev = st.castPrev := by
    ext1 d
    by_cases hd : d = c
    · subst hd
      simp [State.castPrev, State.setCastType, State.setCast]
    · simp [State.castPrev, State.setCastType, State.setCast, hd]
  exact ⟨fun t => by rw [hnext, hprev]; exact h.list t, h.disjoint,
    fun d hd => by rw [hnext, hprev]; exact h.free d hd⟩

theorem castType_setCastType (st : State M I) (c : CastRef M) (v : TypeRef M) :
    (st.setCastType c v).castType = Function.update st.castType c v := by
  ext1 d
  by_cases hd : d = c
  · subst hd
    simp [State.castType, State.setCastType, State.setCast]
  · simp [State.castType, State.setCastType, State.setCast, hd]

/-- The query while the table of `m` is being filled in. -/
theorem Loading.query_returns (h : Loading tab m st₁ known) {st : State M I}
    (hs : SameOthers m st₁ st) (name : Name) :
    Returns (fun n => st.queryOthers n m name) (known name) :=
  (h.query name).congr fun n => State.queryOthers_congr n name hs.next hs.modules hs.name

/-- One cast: it is added with the type it stands for, or it is there already. -/
theorem Progress.linkCast (h : Loading tab m st₁ known) {i j : ℕ} {st : State M I}
    {L : TypeRef M → List (CastRef M)} (hp : Progress tab m st₁ known listed i j st L) {e : ℕ}
    (he : rowEntry tab m i j = some e)
    (hlisted : ∀ t u, known (nameOf tab (m, i)) = some t → known (nameOf tab (m, e)) = some u →
      listed t u) :
    ∃ st' L', Returns (fun n => State.linkCast n m i (target tab m known i) st j) st' ∧
      Progress tab m st₁ known listed i (j + 1) st' L' := by
  have htype : st.castType (m, i, j) = (m, e) :=
    hp.pending i j e he (by rintro (hlt | ⟨-, hlt⟩) <;> omega)
  have hname : (st.types (st.casts (m, i, j)).type).name = nameOf tab (m, e) := by
    rw [show (st.casts (m, i, j)).type = (m, e) from htype, hp.others.name, h.name]
  have hquery := h.query_returns hp.others (nameOf tab (m, e))
  unfold State.linkCast
  dsimp only
  rw [hname]
  cases hu : known (nameOf tab (m, e)) with
  | none =>
      -- a new type, to which the cast points already
      have hself : target tab m known e = (m, e) := (h.target_eq_self_iff e).mpr hu
      rw [hu] at hquery
      refine ⟨_, _, hquery.bind (.const _), hp.addCast he hp.others rfl hp.lists ?_
        (hp.fresh h he (Or.inr hu))⟩
      rw [hself, ← htype, Function.update_eq_self]
  | some u =>
      have htarget : target tab m known e = u := by simp [target, hu]
      rw [hu] at hquery
      by_cases hi : target tab m known i = (m, i)
      · -- a new type with a cast to a known one
        refine ⟨_, _, hquery.bind (g := fun o n => _) ?_, hp.addCast he
          (s := st.setCastType (m, i, j) u) ?_ rfl (castLists_setCastType hp.lists _ _) ?_
          (hp.fresh h he (Or.inl ((h.target_eq_self_iff i).mp hi)))⟩
        · simp only [hi, if_true]
          exact .const _
        · refine hp.others.trans ⟨rfl, rfl, fun _ _ => rfl, rfl, fun _ => rfl, fun c hc => ?_⟩
          rw [castType_setCastType, Function.update_of_ne]
          rintro rfl
          exact hc rfl
        · rw [castType_setCastType, htarget]
      · -- both are known: the entry is found by name
        obtain ⟨t, ht⟩ : ∃ t, known (nameOf tab (m, i)) = some t :=
          Option.ne_none_iff_exists'.mp fun hnone => hi ((h.target_eq_self_iff i).mpr hnone)
        have hti : target tab m known i = t := by simp [target, ht]
        rw [hti] at hi ⊢
        obtain ⟨st', L', hcheck, hsame, hlists, hperm⟩ := hp.lists.typeCheckLoop
          (fun s t => strcmp (s.types t).name (st.types u).name == .eq) t
        obtain ⟨c, hc, hcu⟩ := hp.kept t u (hlisted t u ht hu)
        obtain ⟨d, hd⟩ : ∃ d, (L t).find? (fun c =>
            strcmp (st.types (st.castType c)).name (st.types u).name == .eq) = some d := by
          rw [← Option.isSome_iff_exists, List.find?_isSome]
          exact ⟨c, hc, by simp [hcu]⟩
        rw [hd] at hcheck
        refine ⟨st', L', hquery.bind (g := fun o n => _) ?_, hp.reorder hsame hlists hperm⟩
        simp only [hi, if_false]
        have hcheck' : Returns (fun n => st.typeCheck n (st.types u).name t) (some d, st') := hcheck
        exact hcheck'.map _

/-- All casts of a row. -/
theorem Progress.row (h : Loading tab m st₁ known) {i : ℕ} {st : State M I}
    {L : TypeRef M → List (CastRef M)} (hp : Progress tab m st₁ known listed i 0 st L)
    (hlisted : ∀ j e t u, rowEntry tab m i j = some e → known (nameOf tab (m, i)) = some t →
      known (nameOf tab (m, e)) = some u → listed t u) :
    ∃ st' L', Returns (fun n => (List.range ((st.modules m).castInitial.getD i 0)).foldlM
        (State.linkCast n m i (target tab m known i)) st) st' ∧
      Progress tab m st₁ known listed i ((st.modules m).castInitial.getD i 0) st' L' := by
  have hlen : (st.modules m).castInitial.getD i 0 =
      ((tab m).map fun t => t.row.length).getD i 0 := by rw [hp.others.castInitial, h.rows]
  rw [hlen]
  obtain ⟨st', hret, L', hp'⟩ : ∃ st', Returns (fun n => (List.range
        (((tab m).map fun t => t.row.length).getD i 0)).foldlM
        (State.linkCast n m i (target tab m known i)) st) st' ∧
      ∃ L, Progress tab m st₁ known listed i (0 + (List.range
        (((tab m).map fun t => t.row.length).getD i 0)).length) st' L := by
    refine foldlM_returns (fun j s => ∃ L, Progress tab m st₁ known listed i j s L) _ 0 ⟨L, hp⟩ ?_
    rintro l j s hj ⟨L, hp⟩
    obtain ⟨hlt, rfl⟩ := List.getElem?_eq_some_iff.mp hj
    rw [List.length_range] at hlt
    rw [Nat.zero_add] at hp ⊢
    rw [List.getElem_range]
    obtain ⟨e, he⟩ := rowEntry_isSome_iff.mpr hlt
    obtain ⟨s', L', hret, hp'⟩ := hp.linkCast h he fun t u => hlisted l e t u he
    exact ⟨s', hret, L', hp'⟩
  rw [Nat.zero_add, List.length_range] at hp'
  exact ⟨st', L', hret, hp'⟩

omit [DecidableEq M] in
/-- Setting `clientdata` changes neither names nor lists. -/
theorem Progress.setClientdata [DecidableEq M] {i j : ℕ} {st : State M I}
    {L : TypeRef M → List (CastRef M)} (hp : Progress tab m st₁ known listed i j st L)
    (t : TypeRef M) (d : Option ℕ) :
    Progress tab m st₁ known listed i j (st.setType t { st.types t with clientdata := d }) L := by
  have hread (u : TypeRef M) :
      ((st.setType t { st.types t with clientdata := d }).types u).name = (st.types u).name ∧
      ((st.setType t { st.types t with clientdata := d }).types u).cast = (st.types u).cast := by
    by_cases hu : u = t
    · subst hu
      simp [State.setType]
    · simp [State.setType, hu]
  refine ⟨hp.others.trans ⟨rfl, rfl, fun _ _ => rfl, rfl, fun u => (hread u).1, fun _ _ => rfl⟩,
    hp.array, hp.pending, ?_, hp.entry, hp.nodup, hp.kept⟩
  exact ⟨fun u => by rw [(hread u).2]; exact hp.lists.list u, hp.lists.disjoint, hp.lists.free⟩

/-- The client data of the module go to the type that is already known. -/
theorem Progress.linkClientdata {i : ℕ} {st : State M I} {L : TypeRef M → List (CastRef M)}
    (hp : Progress tab m st₁ known listed i 0 st L) :
    Progress tab m st₁ known listed i 0 (match known (nameOf tab (m, i)), (st.types (m, i)).clientdata with
      | some t, some d => st.setType t { st.types t with clientdata := some d }
      | _, _ => st) L := by
  split
  · exact hp.setClientdata _ _
  · exact hp

/-- One entry of the type table with its row. -/
theorem Progress.linkType (h : Loading tab m st₁ known) {i : ℕ} {st : State M I}
    {L : TypeRef M → List (CastRef M)} (hp : Progress tab m st₁ known listed i 0 st L)
    (hlisted : ∀ j e t u, rowEntry tab m i j = some e → known (nameOf tab (m, i)) = some t →
      known (nameOf tab (m, e)) = some u → listed t u) :
    ∃ st' L', Returns (fun n => State.linkType n m st i) st' ∧
      Progress tab m st₁ known listed (i + 1) 0 st' L' := by
  have hquery := h.query_returns hp.others (nameOf tab (m, i))
  have hname : (st.types (m, i)).name = nameOf tab (m, i) := by rw [hp.others.name, h.name]
  obtain ⟨s, hs, hps⟩ : ∃ s, s = _ ∧ Progress tab m st₁ known listed i 0 s L := ⟨_, rfl, hp.linkClientdata⟩
  obtain ⟨st₂, L', hret, hp'⟩ := hps.row h hlisted
  refine ⟨st₂.setModule m
    { st₂.modules m with types := (st₂.modules m).types ++ [target tab m known i] }, L', ?_, ?_⟩
  · unfold State.linkType
    rw [hname]
    refine hquery.bind (g := fun found n => _) ?_
    have := hret.map fun st => st.setModule m
      { st.modules m with types := (st.modules m).types ++ [target tab m known i] }
    rw [hs] at this
    exact this
  · have hother (x : M) (hx : x ≠ m) : ((st₂.setModule m { st₂.modules m with types :=
        (st₂.modules m).types ++ [target tab m known i] }).modules x) = st₂.modules x := by
      simp [State.setModule, hx]
    have hself : ((st₂.setModule m { st₂.modules m with types :=
        (st₂.modules m).types ++ [target tab m known i] }).modules m) =
        { st₂.modules m with types := (st₂.modules m).types ++ [target tab m known i] } := by
      simp [State.setModule]
    have hbefore {i' j' e : ℕ} (he : rowEntry tab m i' j' = some e) :
        Before i' j' (i + 1) 0 ↔ Before i' j' i ((s.modules m).castInitial.getD i 0) := by
      rw [hps.others.castInitial, h.rows]
      constructor
      · rintro (hlt | ⟨-, hlt⟩)
        · rcases Nat.lt_or_eq_of_le (Nat.le_of_lt_succ hlt) with hlt | rfl
          · exact Or.inl hlt
          · exact Or.inr ⟨rfl, rowEntry_isSome_iff.mp ⟨e, he⟩⟩
        · omega
      · rintro (hlt | ⟨rfl, -⟩)
        · exact Or.inl (by omega)
        · exact Or.inl (by omega)
    refine ⟨hp'.others.trans ⟨?_, rfl, hother, by rw [hself], fun _ => rfl, fun _ _ => rfl⟩, ?_, ?_,
      ⟨hp'.lists.list, hp'.lists.disjoint, hp'.lists.free⟩, ?_, hp'.nodup, hp'.kept⟩
    · ext1 x
      by_cases hx : x = m
      · subst hx
        rw [State.moduleNext, hself, State.moduleNext]
      · rw [State.moduleNext, hother x hx, State.moduleNext]
    · rw [hself, hp'.array, List.range_succ, List.map_append]
      rfl
    · exact fun i' j' e he hb => hp'.pending i' j' e he fun hb' => hb ((hbefore he).mpr hb')
    · intro t c hc
      rcases hp'.entry t c hc with hknown | ⟨i', j', e, heq, hb, he, hrest⟩
      · exact Or.inl hknown
      · exact Or.inr ⟨i', j', e, heq, (hbefore he).mpr hb, he, hrest⟩

/-- The whole table. -/
theorem Progress.table (h : Loading tab m st₁ known) {L : TypeRef M → List (CastRef M)}
    (hp : Progress tab m st₁ known listed 0 0 st₁ L)
    (hlisted : ∀ i j e t u, rowEntry tab m i j = some e → known (nameOf tab (m, i)) = some t →
      known (nameOf tab (m, e)) = some u → listed t u) :
    ∃ st' L', Returns (fun n => (List.range (tab m).length).foldlM (State.linkType n m) st₁) st' ∧
      Progress tab m st₁ known listed (tab m).length 0 st' L' := by
  obtain ⟨st', hret, L', hp'⟩ : ∃ st', Returns (fun n =>
        (List.range (tab m).length).foldlM (State.linkType n m) st₁) st' ∧
      ∃ L, Progress tab m st₁ known listed (0 + (List.range (tab m).length).length) 0 st' L := by
    refine foldlM_returns (fun i s => ∃ L, Progress tab m st₁ known listed i 0 s L) _ 0 ⟨L, hp⟩ ?_
    rintro l i s hi ⟨L, hp⟩
    obtain ⟨hlt, rfl⟩ := List.getElem?_eq_some_iff.mp hi
    rw [Nat.zero_add] at hp ⊢
    rw [List.getElem_range]
    obtain ⟨s', L', hret, hp'⟩ := hp.linkType h (hlisted l)
    exact ⟨s', hret, L', hp'⟩
  rw [Nat.zero_add, List.length_range] at hp'
  exact ⟨st', L', hret, hp'⟩

end Load

end Swig.Runtime
