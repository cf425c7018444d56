import Swig.Runtime.CastLinking
import Mathlib.Data.List.Induction

/-!
The cast lists over whole runs of one interpreter.
-/

namespace Swig.Runtime

open CircularList DoublyLinked Fuel

variable {M I : Type} [DecidableEq M]

/-! ### Allowing more rounds -/

theorem mono_linkCast (m : M) (i : ℕ) (type : TypeRef M) (st : State M I) (j : ℕ) :
    Mono fun n => State.linkCast n m i type st j := by
  unfold State.linkCast
  refine (st.mono_queryOthers m _).bind fun o => ?_
  cases o with
  | none => exact .const _
  | some ret =>
      dsimp only
      split
      · exact .const _
      · exact Mono.map (State.mono_typeCheckLoop _ _ _ _) _

theorem mono_linkType (m : M) (st : State M I) (i : ℕ) :
    Mono fun n => State.linkType n m st i :=
  (st.mono_queryOthers m _).bind fun _ =>
    (Mono.foldlM (fun s j => mono_linkCast m i _ s j) _ _).map _

theorem mono_linkModule [DecidableEq I] (st : State M I) (i : I) (m : M) :
    Mono fun n => st.linkModule n i m := by
  unfold State.linkModule
  dsimp only
  split
  · exact .const _
  · exact Mono.map (fun _ _ _ hnm h => walk_mono h hnm) _

theorem mono_initializeModule [DecidableEq I] (st : State M I) (i : I) (m : M) :
    Mono fun n => st.initializeModule n i m := by
  unfold State.initializeModule
  refine (mono_linkModule st i m).bind fun p => ?_
  dsimp only
  split
  · exact Mono.foldlM (fun s k => mono_linkType m s k) _ _
  · exact .const _

/-! ### Linking the module in -/

/-- Neither types nor casts are touched while a module is linked in. -/
theorem linkModule_tables [DecidableEq I] {st st' : State M I} {fuel : ℕ} {i : I} {m : M}
    {init : Bool} (h : st.linkModule fuel i m = some (st', init)) :
    st'.types = st.types ∧ st'.casts = st.casts ∧
      ∀ x, (st'.modules x).castInitial = (st.modules x).castInitial := by
  have hset (s : State M I) (y x : M) (v : Option M) :
      ((s.setModuleNext y v).modules x).castInitial = (s.modules x).castInitial := by
    by_cases hx : x = y
    · subst hx
      simp [State.setModuleNext, State.setModule]
    · simp [State.setModuleNext, State.setModule, hx]
  have hself : ∀ s : State M I, s = (if (st.moduleNext m).isNone = true then
      st.setModuleNext m (some m) else st) → s.types = st.types ∧ s.casts = st.casts ∧
        ∀ x, (s.modules x).castInitial = (st.modules x).castInitial := by
    rintro s rfl
    split
    · exact ⟨rfl, rfl, fun x => hset _ _ _ _⟩
    · exact ⟨rfl, rfl, fun _ => rfl⟩
  have hself := hself _ rfl
  unfold State.linkModule at h
  dsimp only at h
  split at h
  · cases h
    exact hself
  · obtain ⟨r, -, h⟩ := Option.map_eq_some_iff.mp h
    cases r with
    | some u =>
        cases h
        exact hself
    | none =>
        cases h
        exact ⟨hself.1, hself.2.1, fun x => by rw [hset, hset, hself.2.2]⟩

omit [DecidableEq M] in
/-- With one interpreter, all linked modules are on one list. -/
theorem RingInv.mem_ring {next : M → Option M} {head : I → Option M} {i : I} {ms : List M}
    (h : RingInv next head (ms.map fun m => (i, m))) {m x : M} {xs : List M}
    (hring : IsRing next m xs) (hm : next m ≠ none) (hx : next x ≠ none) : x ∈ m :: xs := by
  have hloaded {y : M} (hy : next y ≠ none) :
      ∃ hd ys, head i = some hd ∧ IsRing next hd ys ∧ y ∈ hd :: ys := by
    obtain ⟨j, hj⟩ := h.origin y hy
    obtain ⟨z, -, heq⟩ := List.mem_map.mp hj
    obtain rfl : i = j := congrArg Prod.fst heq
    exact h.loaded i y hj
  obtain ⟨hd, ys, hhd, hrhd, hmhd⟩ := hloaded hm
  obtain ⟨hd', ys', hhd', hrhd', hxhd⟩ := hloaded hx
  obtain rfl : hd = hd' := Option.some.inj (hhd.symm.trans hhd')
  have hmx := (hrhd.mem_iff_of_mem hrhd' (z := hd) (by simp) (by simp) x).mpr hxhd
  exact (hrhd.mem_iff_of_mem hring hmhd (by simp) x).mp hmx

omit [DecidableEq M] in
theorem safeLoad_of_single {st : State M I} {i : I} {ms : List M}
    (h : Linked (ms.map fun m => (i, m)) st) (m : M) : SafeLoad st i m := by
  by_cases hm : st.moduleNext m = none
  · exact Or.inl hm
  · obtain ⟨j, hj⟩ := h.rings.origin m hm
    obtain ⟨z, -, heq⟩ := List.mem_map.mp hj
    obtain rfl : i = j := congrArg Prod.fst heq
    obtain ⟨hd, xs, hhd, hring, hmem⟩ := h.rings.loaded i m hj
    exact Or.inr (Or.inr (Or.inr (onList_of_mem_ring hhd hring hmem)))

/-! ### The invariant between loads -/

/-- The state after the loads `ms`: names and rows are those of the tables, the
arrays hold the canonical type of every name of the table, and every cast list
holds distinct canonical types. -/
structure CastsInv (tab : M → StaticModule) (i : I) (ms : List M) (st : State M I) : Prop where
  linked : Linked (ms.map fun m => (i, m)) st
  name : ∀ t, (st.types t).name = nameOf tab t
  rows : ∀ m, (st.modules m).castInitial = (tab m).map fun t => t.row.length
  arrays : ∀ m, st.moduleNext m ≠ none →
    (st.modules m).types.map (nameOf tab) = (tab m).map StaticType.name
  owner : ∀ t, Canonical st t → st.moduleNext t.1 ≠ none
  unique : ∀ t u, Canonical st t → Canonical st u → nameOf tab t = nameOf tab u → t = u
  pending : ∀ m i j e, st.moduleNext m = none → rowEntry tab m i j = some e →
    st.castType (m, i, j) = (m, e)
  lists : ∃ L, State.CastLists st L ∧
    (∀ t c, c ∈ L t → st.moduleNext c.1 ≠ none ∧ Canonical st t ∧ Canonical st (st.castType c)) ∧
    ∀ t, ((L t).map st.castType).Nodup

omit [DecidableEq M] in
theorem castsInv_initial (tab : M → StaticModule) (i : I) :
    CastsInv tab i [] (.initial tab : State M I) where
  linked := linked_initial tab
  name _ := rfl
  rows _ := rfl
  arrays _ hm := absurd rfl hm
  owner t := by
    rintro ⟨m, hm⟩
    cases hm
  unique t u := by
    rintro ⟨m, hm⟩
    cases hm
  pending m i j e _ he := by
    obtain ⟨s, hs, he⟩ := Option.bind_eq_some_iff.mp he
    obtain ⟨x, hx, rfl⟩ := Option.map_eq_some_iff.mp he
    simp [State.castType, State.initial, hs, hx]
  lists := ⟨fun _ => [], ⟨fun _ => .nil, fun _ _ _ hc => (List.not_mem_nil hc).elim,
    fun _ _ => ⟨rfl, rfl⟩⟩, fun _ _ hc => (List.not_mem_nil hc).elim, fun _ => List.nodup_nil⟩

/-- The type the modules other than `m` have for a name. -/
def knownIn (tab : M → StaticModule) (st : State M I) (xs : List M) (name : Name) :
    Option (TypeRef M) :=
  (xs.flatMap fun x => (st.modules x).types).find? fun t => nameOf tab t == name

section Step

variable [DecidableEq I] {tab : M → StaticModule} {i : I} {ms : List M} {st st₁ : State M I}
  {m : M}

/-- The start of the load of a module not linked before: the types known are
the canonical types so far. -/
theorem CastsInv.loading (h : CastsInv tab i ms st) (hwf : ∀ m, (tab m).WellFormed)
    (hnew : st.moduleNext m = none) {fuel : ℕ}
    (hlink : st.linkModule fuel i m = some (st₁, true)) :
    ∃ known, Loading tab m st₁ known ∧
      ∀ t, Canonical st t ↔ known (nameOf tab t) = some t := by
  obtain ⟨hrings, -, hm, hothers⟩ := h.linked.linkModule (Or.inl hnew) hlink
  have harrays := linkModule_arrays hlink
  obtain ⟨htypes, hcasts, hrows⟩ := linkModule_tables hlink
  rw [show ms.map (fun m => (i, m)) ++ [(i, m)] = (ms ++ [m]).map fun m => (i, m) by simp] at hrings
  obtain ⟨xs, hring⟩ := hrings.ring m hm
  have hname (t : TypeRef M) : (st₁.types t).name = nameOf tab t := by rw [htypes, h.name]
  have hxs {x : M} (hx : x ∈ xs) : st.moduleNext x ≠ none := by
    have hxm : x ≠ m := by
      rintro rfl
      exact (List.nodup_cons.mp hring.nodup).1 hx
    exact fun e => hring.next_ne_none (List.mem_cons_of_mem _ hx) ((hothers x hxm).mpr e)
  have hcanon (t : TypeRef M) :
      Canonical st t ↔ t ∈ xs.flatMap fun x => (st₁.modules x).types := by
    rw [List.mem_flatMap]
    constructor
    · rintro ⟨x, hx⟩
      have hxm : x ≠ m := by
        rintro rfl
        rw [h.linked.fresh x hnew] at hx
        cases hx
      have hxlinked : st.moduleNext x ≠ none := by
        intro e
        rw [h.linked.fresh x e] at hx
        cases hx
      refine ⟨x, ?_, by rwa [(harrays x).1]⟩
      have := hrings.mem_ring hring hm fun e => hxlinked ((hothers x hxm).mp e)
      exact (List.mem_cons.mp this).resolve_left hxm
    · rintro ⟨x, -, ht⟩
      exact ⟨x, by rwa [(harrays x).1] at ht⟩
  refine ⟨knownIn tab st₁ xs, ⟨hwf m, hname, by rw [hrows, h.rows], fun name => ?_,
    fun name t ht => ?_⟩, fun t => ⟨fun ht => ?_, fun ht => ?_⟩⟩
  · have hret := st₁.queryOthers_returns name hring
      (fun x hx => by rw [(harrays x).1, (harrays x).2, h.linked.filled x (hxs hx)])
      (fun x hx => by
        have hsorted := (hwf x).sorted
        rw [State.Sorted, (harrays x).1]
        have : ((st.modules x).types.map (nameOf tab)).Pairwise fun a b => strcmp a b = .lt := by
          rw [h.arrays x (hxs hx), List.pairwise_map]
          exact hsorted
        rw [List.pairwise_map] at this
        exact this.imp fun {t u} htu => by rw [hname, hname]; exact htu)
    unfold knownIn
    rw [State.findName] at hret
    simp only [hname] at hret
    exact hret
  · have hfind := List.find?_some ht
    have hmem := (hcanon t).mpr (List.mem_of_find?_eq_some ht)
    refine ⟨by simpa using hfind, ?_⟩
    intro e
    exact h.owner t hmem (e ▸ hnew)
  · obtain ⟨u, hu⟩ : ∃ u, knownIn tab st₁ xs (nameOf tab t) = some u := by
      rw [← Option.isSome_iff_exists, knownIn, List.find?_isSome]
      exact ⟨t, (hcanon t).mp ht, by simp⟩
    have hfind := List.find?_some hu
    have hmem := (hcanon u).mpr (List.mem_of_find?_eq_some hu)
    rw [hu, h.unique u t hmem ht (by simpa using hfind)]
  · exact (hcanon t).mpr (List.mem_of_find?_eq_some ht)

/-- The state after the whole table has been filled in. -/
theorem CastsInv.of_progress {st' : State M I} {known : Name → Option (TypeRef M)}
    {listed : TypeRef M → TypeRef M → Prop} {L : TypeRef M → List (CastRef M)}
    (h : CastsInv tab i ms st) (hnew : st.moduleNext m = none) {fuel : ℕ}
    (hlink : st.linkModule fuel i m = some (st₁, true)) (hload : Loading tab m st₁ known)
    (hknown : ∀ t, Canonical st t ↔ known (nameOf tab t) = some t)
    (hp : Progress tab m st₁ known listed (tab m).length 0 st' L)
    (hlinked : Linked ((ms ++ [m]).map fun m => (i, m)) st') : CastsInv tab i (ms ++ [m]) st' := by
  obtain ⟨-, -, hm, hothers⟩ := h.linked.linkModule (Or.inl hnew) hlink
  have harrays := linkModule_arrays hlink
  obtain ⟨htypes, hcasts, hrows⟩ := linkModule_tables hlink
  have hnext : st'.moduleNext = st₁.moduleNext := hp.others.next
  have htypes' (x : M) (hx : x ≠ m) : (st'.modules x).types = (st.modules x).types := by
    rw [hp.others.modules x hx, (harrays x).1]
  have hcanon (t : TypeRef M) : Canonical st' t ↔
      Canonical st t ∨ ∃ k < (tab m).length, t = target tab m known k := by
    constructor
    · rintro ⟨x, hx⟩
      by_cases hxm : x = m
      · subst hxm
        rw [hp.array] at hx
        obtain ⟨k, hk, rfl⟩ := List.mem_map.mp hx
        exact Or.inr ⟨k, List.mem_range.mp hk, rfl⟩
      · exact Or.inl ⟨x, by rwa [htypes' x hxm] at hx⟩
    · rintro (⟨x, hx⟩ | ⟨k, hk, rfl⟩)
      · have hxm : x ≠ m := by
          rintro rfl
          rw [h.linked.fresh x hnew] at hx
          cases hx
        exact ⟨x, by rwa [htypes' x hxm]⟩
      · refine ⟨m, ?_⟩
        rw [hp.array]
        exact List.mem_map.mpr ⟨k, List.mem_range.mpr hk, rfl⟩
  have hlinked' {x : M} (hx : st.moduleNext x ≠ none) : st'.moduleNext x ≠ none := by
    rw [hnext]
    by_cases hxm : x = m
    · rwa [hxm]
    · exact fun e => hx ((hothers x hxm).mp e)
  -- a known type and an entry of the table with its name are the same
  have hsame {t : TypeRef M} {k : ℕ} (ht : Canonical st t)
      (heq : nameOf tab t = nameOf tab (target tab m known k)) : t = target tab m known k := by
    have := (hknown t).mp ht
    rw [heq, hload.nameOf_target] at this
    simp [target, this]
  refine ⟨hlinked, fun t => ?_, fun x => ?_, fun x hx => ?_, fun t ht => ?_, fun t u ht hu heq => ?_,
    fun x a b e hx he => ?_, L, hp.lists, fun t c hc => ?_, hp.nodup⟩
  · rw [hp.others.name, htypes, h.name]
  · by_cases hxm : x = m
    · rw [hxm, hp.others.castInitial, hrows, h.rows]
    · rw [hp.others.modules x hxm, hrows, h.rows]
  · by_cases hxm : x = m
    · subst hxm
      rw [hp.array, List.map_map]
      refine List.ext_getElem (by simp) fun k hk hk' => ?_
      simp only [List.length_map, List.length_range] at hk hk'
      rw [List.getElem_map, List.getElem_range, List.getElem_map, Function.comp_apply,
        hload.nameOf_target]
      simp [nameOf, hk']
    · rw [htypes' x hxm]
      rw [hnext] at hx
      exact h.arrays x fun e => hx ((hothers x hxm).mpr e)
  · rcases (hcanon t).mp ht with ht | ⟨k, hk, rfl⟩
    · exact hlinked' (h.owner t ht)
    · cases hk' : known (nameOf tab (m, k)) with
      | none =>
          rw [(hload.target_eq_self_iff k).mpr hk', hnext]
          exact hm
      | some t =>
          have htk : target tab m known k = t := by simp [target, hk']
          rw [htk]
          refine hlinked' (h.owner t ((hknown t).mpr ?_))
          rw [(hload.known_name _ t hk').1, hk']
  · rcases (hcanon t).mp ht with ht | ⟨k, hk, rfl⟩ <;> rcases (hcanon u).mp hu with hu | ⟨l, hl, rfl⟩
    · exact h.unique t u ht hu heq
    · exact hsame ht heq
    · exact (hsame hu heq.symm).symm
    · rw [hload.nameOf_target, hload.nameOf_target] at heq
      rw [hload.wf.nameOf_inj hk hl heq]
  · rw [hnext] at hx
    have hxm : x ≠ m := by
      rintro rfl
      exact hm hx
    rw [hp.others.castType _ hxm, State.castType, hcasts]
    exact h.pending x a b e ((hothers x hxm).mp hx) he
  · rcases hp.entry t c hc with ⟨hc, -, ht, hu⟩ | ⟨i', j', e, rfl, -, he, rfl, hu⟩
    · rw [hnext]
      exact ⟨hc, (hcanon t).mpr (Or.inl ((hknown t).mpr ht)),
        (hcanon _).mpr (Or.inl ((hknown _).mpr hu))⟩
    · obtain ⟨hi, hlen⟩ := hload.wf.rowEntry_lt he
      rw [hnext, hu]
      exact ⟨hm, (hcanon _).mpr (Or.inr ⟨i', hi, rfl⟩), (hcanon _).mpr (Or.inr ⟨e, hlen, rfl⟩)⟩

/-- The start of the table: the lists are those of the loads before. -/
theorem CastsInv.progress {known : Name → Option (TypeRef M)}
    (h : CastsInv tab i ms st) (hnew : st.moduleNext m = none) {fuel : ℕ}
    (hlink : st.linkModule fuel i m = some (st₁, true))
    (hknown : ∀ t, Canonical st t ↔ known (nameOf tab t) = some t) :
    ∃ L, State.CastLists st L ∧
      Progress tab m st₁ known (fun t u => ∃ c ∈ L t, st.castType c = u) 0 0 st₁ L := by
  obtain ⟨-, -, -, hothers⟩ := h.linked.linkModule (Or.inl hnew) hlink
  have harrays := linkModule_arrays hlink
  obtain ⟨htypes, hcasts, -⟩ := linkModule_tables hlink
  obtain ⟨L, hL, hentry, hnodup⟩ := h.lists
  have hnext : st₁.castNext = st.castNext := by
    ext1 c
    rw [State.castNext, State.castNext, hcasts]
  have hprev : st₁.castPrev = st.castPrev := by
    ext1 c
    rw [State.castPrev, State.castPrev, hcasts]
  have htype : st₁.castType = st.castType := by
    ext1 c
    rw [State.castType, State.castType, hcasts]
  refine ⟨L, hL, .refl m st₁, by rw [(harrays m).1, h.linked.fresh m hnew]; rfl, ?_, ?_, ?_, ?_, ?_⟩
  · intro i' j' e he _
    rw [htype]
    exact h.pending m i' j' e hnew he
  · exact ⟨fun t => by rw [hnext, hprev, htypes]; exact hL.list t, hL.disjoint,
      fun c hc => by rw [hnext, hprev]; exact hL.free c hc⟩
  · intro t c hc
    obtain ⟨hc, ht, hu⟩ := hentry t c hc
    have hcm : c.1 ≠ m := by
      rintro rfl
      exact hc hnew
    rw [htype]
    exact Or.inl ⟨fun e => hc ((hothers _ hcm).mp e), hcm, (hknown t).mp ht, (hknown _).mp hu⟩
  · rw [htype]
    exact hnodup
  · rintro t u ⟨c, hc, rfl⟩
    exact ⟨c, hc, by rw [htype]⟩

/-- Linking in a module not linked before. -/
theorem CastsInv.linkModule_returns (h : CastsInv tab i ms st) (hnew : st.moduleNext m = none) :
    ∃ st₁, Returns (fun n => st.linkModule n i m) (st₁, true) := by
  cases hi : st.head i with
  | none =>
      have hhead : (st.setModuleNext m (some m)).head i = none := hi
      exact ⟨(st.setModuleNext m (some m)).setHead i m, (Returns.const _).congr fun n => by
        simp only [State.linkModule, hnew, Option.isNone_none, if_true, hhead]⟩
  | some hd =>
      obtain ⟨xs, hring⟩ := h.linked.rings.ring hd (h.linked.rings.head_linked i hd hi)
      have hmem : m ∉ hd :: xs := fun hmem => hring.next_ne_none hmem hnew
      have hring' : IsRing (st.setModuleNext m (some m)).moduleNext hd xs := by
        rw [moduleNext_setModuleNext]
        refine hring.congr fun x hx => Function.update_of_ne ?_ _ _
        rintro rfl
        exact hmem hx
      have hfind : ((hd :: xs).findSome? fun x => if x = m then some () else none) = none := by
        rw [List.findSome?_eq_none_iff]
        intro x hx
        rw [if_neg]
        rintro rfl
        exact hmem hx
      let s := st.setModuleNext m (some m)
      refine ⟨(s.setModuleNext m (s.moduleNext hd)).setModuleNext hd (some m), xs.length + 1,
        fun n hn => ?_⟩
      have hwalk := walk_of_ring (f := fun x => if x = m then some () else none) hring'
        (show xs.length < n by omega)
      rw [hfind] at hwalk
      have hhead : (st.setModuleNext m (some m)).head i = some hd := hi
      simp only [State.linkModule, hnew, Option.isNone_none, if_true, hhead, hwalk,
        Option.map_some, s]

/-- A load of a module not linked before returns and keeps the invariant. -/
theorem CastsInv.load (h : CastsInv tab i ms st) (hwf : ∀ m, (tab m).WellFormed)
    (hnew : st.moduleNext m = none) (hcond : CastsListed st m) :
    ∃ st', Returns (fun n => st.initializeModule n i m) st' ∧ CastsInv tab i (ms ++ [m]) st' := by
  obtain ⟨st₁, hlink⟩ := h.linkModule_returns hnew
  obtain ⟨N, hN⟩ := hlink
  have hlinkN := hN N (Nat.le_refl N)
  obtain ⟨known, hload, hknown⟩ := h.loading hwf hnew hlinkN
  obtain ⟨L, hL, hp⟩ := h.progress hnew hlinkN hknown
  obtain ⟨st', L', htable, hp'⟩ := hp.table hload fun a b e t u he ht hu => by
    -- the pair is in the list of `t` by the condition on the load
    obtain ⟨hnt, -⟩ := hload.known_name _ t ht
    obtain ⟨hnu, -⟩ := hload.known_name _ u hu
    have hrow : b < (st.modules m).castInitial.getD a 0 := by
      rw [h.rows]
      exact rowEntry_isSome_iff.mp ⟨e, he⟩
    have hsize : a < (st.modules m).size := by
      rw [SwigModuleInfo.size, h.rows, List.length_map]
      exact (hload.wf.rowEntry_lt he).1
    obtain ⟨cs, hcs, c, hc, hcu⟩ := hcond hnew a b t u hsize hrow
      ((hknown t).mpr (by rw [hnt, ht])) ((hknown u).mpr (by rw [hnu, hu]))
      (by rw [h.name, h.name, hnt]) (by rw [h.pending m a b e hnew he, h.name, h.name, hnu])
    exact ⟨c, (hL.list t).unique hcs ▸ hc, hcu⟩
  have hsize : (st₁.modules m).size = (tab m).length := by
    rw [SwigModuleInfo.size, hload.rows, List.length_map]
  have hcall : Returns (fun n => st.initializeModule n i m) st' := by
    refine Returns.bind (g := fun p n => _) ⟨N, hN⟩ ?_
    simp only [if_true, hsize]
    exact htable
  refine ⟨st', hcall, h.of_progress hnew hlinkN hload hknown hp' ?_⟩
  obtain ⟨K, hK⟩ := hcall
  have := h.linked.step (Or.inl hnew) (hK K (Nat.le_refl K))
  rwa [show ms.map (fun m => (i, m)) ++ [(i, m)] = (ms ++ [m]).map fun m => (i, m) by simp] at this

/-- Loading a module again changes nothing. -/
theorem CastsInv.reload (h : CastsInv tab i ms st) (hm : st.moduleNext m ≠ none) :
    Returns (fun n => st.initializeModule n i m) st := by
  obtain ⟨j, hj⟩ := h.linked.rings.origin m hm
  obtain ⟨z, -, heq⟩ := List.mem_map.mp hj
  obtain rfl : i = j := congrArg Prod.fst heq
  obtain ⟨hd, xs, hhd, hring, hmem⟩ := h.linked.rings.loaded i m hj
  refine ⟨xs.length + 1, fun n hn => ?_⟩
  have hwalk := walk_of_ring (f := fun x => if x = m then some () else none) hring
    (show xs.length < n by omega)
  obtain ⟨r, hr⟩ : ∃ r, walk st.moduleNext (fun x => if x = m then some () else none) hd n hd =
      some r := ⟨_, hwalk⟩
  have hfound := search_ring hring hr
  rw [if_pos hmem] at hfound
  rw [hfound] at hr
  have hnone : (st.moduleNext m).isNone = false := by
    cases hn : st.moduleNext m with
    | none => exact absurd hn hm
    | some y => rfl
  simp [State.initializeModule, State.linkModule, hnone, hhd, hr]

/-- Every load that meets the condition returns and keeps the invariant. -/
theorem CastsInv.step (h : CastsInv tab i ms st) (hwf : ∀ m, (tab m).WellFormed)
    (hcond : CastsListed st m) :
    ∃ st', Returns (fun n => st.initializeModule n i m) st' ∧ CastsInv tab i (ms ++ [m]) st' := by
  cases hm : st.moduleNext m with
  | none => exact h.load hwf hm hcond
  | some y =>
      have hne : st.moduleNext m ≠ none := by simp [hm]
      have hcall := h.reload hne
      refine ⟨st, hcall, { h with linked := ?_ }⟩
      obtain ⟨K, hK⟩ := hcall
      have := h.linked.step (safeLoad_of_single h.linked m) (hK K (Nat.le_refl K))
      rwa [show ms.map (fun m => (i, m)) ++ [(i, m)] = (ms ++ [m]).map fun m => (i, m) by simp]
        at this

end Step

/-- What the invariant says about the lists and the two checks. -/
theorem CastsInv.castsOK {tab : M → StaticModule} {i : I} {ms : List M} {st : State M I}
    (h : CastsInv tab i ms st) : CastsOK st := by
  obtain ⟨L, hL, hentry, hnodup⟩ := h.lists
  refine ⟨fun t u ht hu heq => h.unique t u ht hu (by rwa [h.name, h.name] at heq),
    fun t ht => ⟨L t, hL.list t, fun c hc => (hentry t c hc).2.2, ?_⟩, fun t ht name => ?_⟩
  · rw [show (fun c => (st.types (st.castType c)).name) =
      (fun u => (st.types u).name) ∘ st.castType from rfl, ← List.map_map]
    refine List.Nodup.map_on ?_ (hnodup t)
    intro u hu v hv heq
    obtain ⟨c, hc, rfl⟩ := List.mem_map.mp hu
    obtain ⟨d, hd, rfl⟩ := List.mem_map.mp hv
    exact h.unique _ _ (hentry t c hc).2.2 (hentry t d hd).2.2 (by rwa [h.name, h.name] at heq)
  · obtain ⟨s, L', hcheck, -⟩ := hL.typeCheckLoop (fun s u => strcmp (s.types u).name name == .eq) t
    refine ⟨_, s, hcheck, ?_⟩
    rw [List.find?_isSome]
    constructor
    · rintro ⟨c, hc, htest⟩
      refine ⟨st.castType c, (hentry t c hc).2.2, strcmp_eq_iff.mp (by simpa using htest), ?_⟩
      obtain ⟨s', L'', hstruct, -⟩ := hL.typeCheckLoop (fun _ u => u == st.castType c) t
      obtain ⟨d, hd⟩ : ∃ d, (L t).find? (fun d => st.castType d == st.castType c) = some d := by
        rw [← Option.isSome_iff_exists, List.find?_isSome]
        exact ⟨c, hc, by simp⟩
      rw [hd] at hstruct
      exact ⟨d, s', hstruct⟩
    · rintro ⟨u, hu, rfl, c, s', K, hK⟩
      obtain ⟨s'', L'', ⟨K', hK'⟩, -⟩ := hL.typeCheckLoop (fun _ v => v == u) t
      have h₁ := hK (K + K') (by omega)
      have h₂ := hK' (K + K') (by omega)
      have hfind := congrArg Prod.fst (Option.some.inj (h₁.symm.trans h₂))
      have hfind := hfind.symm
      refine ⟨c, List.mem_of_find?_eq_some hfind, ?_⟩
      have hcu : st.castType c = u := by simpa using List.find?_some hfind
      simp [hcu]

/-- The invariant holds after every run whose loads meet the condition. -/
theorem Run.castsInv [DecidableEq I] {tab : M → StaticModule} (hwf : ∀ m, (tab m).WellFormed)
    {i : I} {ms : List M} {st : State M I} (hrun : Run (.initial tab) (ms.map fun m => (i, m)) st)
    (hcond : ∀ ms' m, ms' ++ [m] <+: ms → ∀ st' : State M I,
      Run (.initial tab) (ms'.map fun m => (i, m)) st' → CastsListed st' m) :
    CastsInv tab i ms st := by
  induction ms using List.reverseRecOn generalizing st with
  | nil =>
      generalize hloads : [].map (fun m : M => (i, m)) = loads at hrun
      cases hrun with
      | nil => exact castsInv_initial tab i
      | snoc => simp at hloads
  | append_singleton ms m ih =>
      rw [List.map_append, List.map_singleton] at hrun
      generalize hloads : ms.map (fun m => (i, m)) ++ [(i, m)] = loads at hrun
      cases hrun with
      | nil => simp at hloads
      | snoc fuel hrun hcall =>
          obtain ⟨rfl, heq⟩ := List.append_inj' hloads rfl
          obtain ⟨rfl, rfl⟩ : i = _ ∧ m = _ := by simpa using heq
          have hinv := ih hrun fun ms' m' hpre => hcond ms' m' (hpre.trans (List.prefix_append _ _))
          obtain ⟨st'', hret, hinv'⟩ := hinv.step hwf (hcond ms m (List.prefix_refl _) _ hrun)
          rwa [(mono_initializeModule _ i m).eq_of_returns hcall hret]

/-- In every sequence of loads in one interpreter none of which brings a pair
of known types that is not listed, the cast lists are in order after every
load, and every further such load returns. -/
theorem run_castsOK_of_listed [DecidableEq I] (tab : M → StaticModule)
    (hwf : ∀ m, (tab m).WellFormed) (i : I) (ms : List M) (st : State M I)
    (hrun : Run (.initial tab) (ms.map fun m => (i, m)) st)
    (hcond : ∀ ms' m, ms' ++ [m] <+: ms → ∀ st' : State M I,
      Run (.initial tab) (ms'.map fun m => (i, m)) st' → CastsListed st' m) :
    CastsOK st ∧ ∀ m, CastsListed st m →
      ∃ st', Returns (fun n => st.initializeModule n i m) st' := by
  have hinv := hrun.castsInv hwf hcond
  refine ⟨hinv.castsOK, fun m hm => ?_⟩
  obtain ⟨st', hret, -⟩ := hinv.step hwf hm
  exact ⟨st', hret⟩

theorem StaticModule.WellFormed.nil : StaticModule.WellFormed [] :=
  ⟨.nil, fun _ _ hs => by simp at hs, by simp, by simp⟩

/-- A table of two types. -/
theorem StaticModule.WellFormed.pair {s t : StaticType} (hname : strcmp s.name t.name = .lt)
    (hs : (s.row.map Prod.fst).head? = some 0) (ht : (t.row.map Prod.fst).head? = some 1)
    (hbound : ∀ e ∈ s.row ++ t.row, e.1 < 2) (hnodup : (s.row.map Prod.fst).Nodup)
    (hnodup' : (t.row.map Prod.fst).Nodup) : StaticModule.WellFormed [s, t] := by
  refine ⟨by simpa using hname, fun i u hu => ?_, ?_, ?_⟩
  · match i with
    | 0 | 1 => cases hu; assumption
    | i + 2 => simp at hu
  · intro u hu e he
    refine hbound e (List.mem_append.mpr ?_)
    rcases List.mem_pair.mp hu with rfl | rfl
    · exact Or.inl he
    · exact Or.inr he
  · intro u hu
    rcases List.mem_pair.mp hu with rfl | rfl
    · exact hnodup
    · exact hnodup'

/-- Module 0 has a type 2 that 1 can be cast to, module 1 a type 3 that 1 can
be cast to. -/
def sharedBase : ℕ → StaticModule
  | 0 => [⟨[1], none, none, [(0, none)]⟩, ⟨[2], none, none, [(1, none), (0, some 0)]⟩]
  | 1 => [⟨[1], none, none, [(0, none)]⟩, ⟨[3], none, none, [(1, none), (0, some 1)]⟩]
  | _ => []

theorem wellFormed_sharedBase (m : ℕ) : (sharedBase m).WellFormed := by
  match m with
  | 0 | 1 => exact .pair (by decide) rfl rfl (by decide) (by decide) (by decide)
  | m + 2 => exact .nil

/-- After module 0, the only pair of known types that module 1 brings is the
type 1 with itself. -/
theorem castsListed_sharedBase {st : State ℕ ℕ} (hinv : CastsInv sharedBase 0 [0] st) {fuel : ℕ}
    (hcall : (State.initial sharedBase).initializeModule fuel 0 0 = some st) :
    CastsListed st 1 := by
  have hread {α : Type} (f : State ℕ ℕ → α) (v : α)
      (hv : ((State.initial sharedBase).initializeModule 3 0 0).map f = some v) : f st = v := by
    obtain ⟨s, hs, rfl⟩ := Option.map_eq_some_iff.mp hv
    have hmono := mono_initializeModule (State.initial sharedBase : State ℕ ℕ) 0 0
    rw [hmono.eq_of_returns hcall ⟨3, fun n hn => hmono 3 n s hn hs⟩]
  have hfirst := hread (fun s => (s.modules 0).types) [(0, 0), (0, 1)] rfl
  have hother (m : ℕ) : (st.modules (m + 1)).types = [] :=
    hread (fun s => (s.modules (m + 1)).types) [] rfl
  have hcast := hread (fun s => (s.types (0, 0)).cast) (some (0, 0, 0)) rfl
  have hentry := hread (fun s => (s.castNext (0, 0, 0), s.castPrev (0, 0, 0), s.castType (0, 0, 0)))
    (none, none, (0, 0)) rfl
  simp only [Prod.mk.injEq] at hentry
  have hcanon (t : TypeRef ℕ) (ht : Canonical st t) : t = (0, 0) ∨ t = (0, 1) := by
    obtain ⟨m, hm⟩ := ht
    cases m with
    | zero =>
        rw [hfirst] at hm
        exact List.mem_pair.mp hm
    | succ m =>
        rw [hother] at hm
        cases hm
  rintro hnew i j t u hi hj ht hu hti huj
  rw [SwigModuleInfo.size, hinv.rows] at hi
  rw [hinv.rows] at hj
  have hi : i < 2 := hi
  rw [hinv.name, hinv.name] at hti huj
  rcases hcanon t ht with rfl | rfl
  · obtain rfl | rfl : i = 0 ∨ i = 1 := by omega
    rotate_left
    · exact absurd hti (by decide)
    have hj : j < 1 := hj
    obtain rfl : j = 0 := by omega
    rw [hinv.pending 1 0 0 0 hnew rfl] at huj
    rcases hcanon u hu with rfl | rfl
    · refine ⟨[(0, 0, 0)], ⟨⟨some (0, 0, 0), hcast, hentry.2.1, rfl, hentry.1⟩, by simp⟩, ?_⟩
      exact ⟨(0, 0, 0), by simp, hentry.2.2⟩
    · exact absurd huj (by decide)
  · obtain rfl | rfl : i = 0 ∨ i = 1 := by omega
    · exact absurd hti (by decide)
    · exact absurd hti (by decide)

theorem castsListed_initial (tab : ℕ → StaticModule) (m : ℕ) {st : State ℕ ℕ}
    (hrun : Run (.initial tab) [] st) : CastsListed st m := by
  generalize hloads : ([] : List (ℕ × ℕ)) = loads at hrun
  cases hrun with
  | nil =>
      rintro - i j t u - - ⟨x, hx⟩
      cases hx
  | snoc => simp at hloads

theorem sharedBase_loads_listed (ms : List ℕ) (m : ℕ) (hpre : ms ++ [m] <+: [0, 1])
    (st : State ℕ ℕ) (hrun : Run (.initial sharedBase) (ms.map fun m => (0, m)) st) :
    CastsListed st m := by
  have hlen := hpre.length_le
  rw [List.prefix_iff_eq_take] at hpre
  match ms with
  | [] => exact castsListed_initial sharedBase m hrun
  | [x] =>
      obtain ⟨rfl, rfl⟩ : x = 0 ∧ m = 1 := by simpa using hpre
      have hinv := hrun.castsInv wellFormed_sharedBase fun ms' m' hpre' st' hrun' => by
        have hlen := hpre'.length_le
        match ms' with
        | [] => exact castsListed_initial sharedBase m' hrun'
        | _ :: _ => simp at hlen
      generalize hloads : [0].map (fun m : ℕ => ((0 : ℕ), m)) = loads at hrun
      cases hrun with
      | nil => simp at hloads
      | snoc fuel hrun hcall =>
          rw [List.map_singleton, ← List.nil_append [((0 : ℕ), 0)]] at hloads
          obtain ⟨rfl, heq⟩ := List.append_inj' hloads rfl
          obtain ⟨rfl, rfl⟩ : 0 = _ ∧ 0 = _ := by simpa using heq
          generalize hnil : ([] : List (ℕ × ℕ)) = loads at hrun
          cases hrun with
          | nil => exact castsListed_sharedBase hinv hcall
          | snoc => simp at hnil
  | _ :: _ :: _ => simp at hlen

/-- Two modules with a type in common. -/
theorem run_castsOK_of_listed_sharedBase :
    ∃ st : State ℕ ℕ, Run (.initial sharedBase) [(0, 0), (0, 1)] st ∧ CastsOK st := by
  have hrun : Run (State.initial sharedBase) (([] ++ [(0, 0)]) ++ [(0, 1)]) _ :=
    .snoc 3 (.snoc 3 .nil rfl) rfl
  refine ⟨_, hrun, (run_castsOK_of_listed sharedBase wellFormed_sharedBase 0 [0, 1] _ hrun
    sharedBase_loads_listed).1⟩

/-- Both modules have the types 1 and 2; module 1 also knows that 1 can be cast
to 2. -/
def unlistedPair : ℕ → StaticModule
  | 0 => [⟨[1], none, none, [(0, none)]⟩, ⟨[2], none, none, [(1, none)]⟩]
  | 1 => [⟨[1], none, none, [(0, none)]⟩, ⟨[2], none, none, [(1, none), (0, some 0)]⟩]
  | _ => []

theorem wellFormed_unlistedPair (m : ℕ) : (unlistedPair m).WellFormed := by
  match m with
  | 0 | 1 => exact .pair (by decide) rfl rfl (by decide) (by decide) (by decide)
  | m + 2 => exact .nil

/-- Loading both modules leaves, on the list of the type 2 of module 0, an
entry for the type 1 of module 1, which is not the canonical one. -/
theorem casts_broken_by_unlisted_pair :
    (∀ m, (unlistedPair m).WellFormed) ∧
      ∃ st : State ℕ ℕ, Run (.initial unlistedPair) [(0, 0), (0, 1)] st ∧ ¬ CastsOK st := by
  have hrun : Run (State.initial unlistedPair) (([] ++ [(0, 0)]) ++ [(0, 1)]) _ :=
    .snoc 3 (.snoc 3 .nil rfl) rfl
  refine ⟨wellFormed_unlistedPair, _, hrun, fun hok => ?_⟩
  obtain ⟨cs, hcs, hcanon, -⟩ := hok.list (0, 1) ⟨0, by decide⟩
  have hhead : some (1, 1, 1) = cs.head? := hcs.head_eq
  obtain ⟨m, hm⟩ := hcanon (1, 1, 1) (List.mem_of_head? hhead.symm)
  match m with
  | 0 => exact absurd hm (by decide)
  | 1 => exact absurd hm (by decide)
  | m + 2 => cases hm

end Swig.Runtime
