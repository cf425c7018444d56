import Swig.Typesys.TypeTable
import Swig.Runtime.TypeQuery
import Mathlib.Data.List.TakeWhile

/-!
The type table is sorted, has one entry for every mangled name and every type of
a cast, and the search at run time finds its names.
-/

namespace Swig.Typesys

open Swig.DOH Swig.Runtime

/-! ### Sorting -/

theorem sortMangled_perm (l : List Name) : (sortMangled l).Perm l := List.mergeSort_perm l _

/-- Names that are all different come out strictly increasing. -/
theorem sortMangled_increasing {l : List Name} (h : l.Nodup) :
    (sortMangled l).Pairwise fun a b => strcmp a b = .lt := by
  have hle : (sortMangled l).Pairwise fun a b => (strcmp a b).isLE = true := by
    refine List.pairwise_mergeSort (fun a b c => Std.TransCmp.isLE_trans) (fun a b => ?_) l
    cases hab : strcmp a b with
    | lt => rfl
    | eq => rfl
    | gt => rw [Std.OrientedCmp.lt_of_gt hab, Ordering.isLE_lt, Bool.or_true]
  refine (hle.and ((sortMangled_perm l).nodup_iff.mpr h)).imp fun {a b} hab => ?_
  cases hcmp : strcmp a b with
  | lt => rfl
  | eq => exact absurd (strcmp_eq_iff.mp hcmp) hab.2
  | gt => simp [hcmp] at hab

/-! ### Equivalent names -/

variable {T : Tables}

/-- The number of names not checked yet. -/
def unchecked (T : Tables) (ch : StringTable Name) : ℕ :=
  (T.resolvedNames.filter fun k => (ch.get k).isNone).length

theorem unchecked_le {ch ch' : StringTable Name} (h : ∀ k ∈ ch.keys, k ∈ ch'.keys) :
    unchecked T ch' ≤ unchecked T ch := by
  refine (List.monotone_filter_right _ fun k hk => ?_).length_le
  have := h k
  rw [StringTable.mem_keys_iff, StringTable.mem_keys_iff] at this
  cases hget : ch.get k <;> simp_all

theorem unchecked_set_lt {ch : StringTable Name} {ms v : Name} (hmem : ms ∈ T.resolvedNames)
    (hms : ch.get ms = none) : unchecked T (ch.set ms v) < unchecked T ch := by
  have hfilter : T.resolvedNames.filter (fun k => ((ch.set ms v).get k).isNone) =
      (T.resolvedNames.filter fun k => (ch.get k).isNone).filter fun k => k ≠ ms := by
    rw [List.filter_filter]
    refine List.filter_congr fun k _ => ?_
    rw [StringTable.get_set]
    split <;> simp [*]
  rw [unchecked, hfilter]
  refine List.length_filter_lt_length_iff_exists.mpr ⟨ms, ?_, by simp⟩
  exact List.mem_filter.mpr ⟨hmem, by rw [hms]; rfl⟩

theorem mem_resolvedNames {ki rk : Name} {rh : StringTable Name} (h : T.r_resolved.get ki = some rh)
    (hrk : rk ∈ rh.keys) : rk ∈ T.resolvedNames :=
  List.mem_flatMap.mpr ⟨(ki, rh), StringTable.mem_items_iff.mpr h, hrk⟩

/-- What a call does when the calls inside it return. -/
theorem equivalentMangle_succ (fuel : ℕ) (ms : Name) (ch h : StringTable Name)
    (hcalls : ∀ rk ch' h', rk ∈ T.resolvedNames →
      (∀ k ∈ (ch.set ms (lit "1")).keys, k ∈ ch'.keys) →
      ∃ r, equivalentMangle T fuel rk (ch', h') = some r ∧ ∀ k ∈ ch'.keys, k ∈ r.1.keys) :
    ∃ r, equivalentMangle T (fuel + 1) ms (ch, h) = some r ∧ ∀ k ∈ ch.keys, k ∈ r.1.keys := by
  rw [equivalentMangle]
  by_cases hms : (ch.get ms).isSome
  · exact ⟨(ch, h), by rw [if_pos hms], fun _ => id⟩
  · have hset : ∀ k ∈ ch.keys, k ∈ (ch.set ms (lit "1")).keys := fun k hk =>
      StringTable.mem_keys_set.mpr (.inr hk)
    rw [if_neg hms]
    cases T.r_mangled.get ms with
    | none => exact ⟨_, rfl, hset⟩
    | some mh =>
        -- the names checked stay checked in both loops
        refine Exists.imp (fun r (hr : _ ∧ ∀ k ∈ (ch.set ms (lit "1")).keys, k ∈ r.1.keys) =>
          ⟨hr.1, fun k hk => hr.2 k (hset k hk)⟩) ?_
        apply Fuel.foldlM_of_invariant
          fun s : StringTable Name × StringTable Name => ∀ k ∈ (ch.set ms (lit "1")).keys, k ∈ s.1.keys
        · exact fun _ => id
        · rintro ki ⟨ch₁, h₁⟩ hki hch₁
          dsimp only
          split
          · exact ⟨_, rfl, hch₁⟩
          · have hch₂ : ∀ k ∈ (ch.set ms (lit "1")).keys, k ∈ (ch₁.set ki (lit "1")).keys :=
              fun k hk => StringTable.mem_keys_set.mpr (.inr (hch₁ k hk))
            cases hrh : T.r_resolved.get ki with
            | none => exact ⟨_, rfl, hch₂⟩
            | some rh =>
                apply Fuel.foldlM_of_invariant fun s : StringTable Name × StringTable Name =>
                  ∀ k ∈ (ch.set ms (lit "1")).keys, k ∈ s.1.keys
                · exact hch₂
                · rintro rk ⟨ch₃, h₃⟩ hrk hch₃
                  obtain ⟨r, hr, hkeep⟩ := hcalls rk ch₃ (h₃.set rk (lit "1"))
                    (mem_resolvedNames hrh hrk) hch₃
                  exact ⟨r, hr, fun k hk => hkeep k (hch₃ k hk)⟩

/-- A call that goes on checks one more name, so as many nested calls as there are
unchecked names are enough. -/
theorem equivalentMangle_returns {fuel : ℕ} {ms : Name} {ch h : StringTable Name}
    (hms : ms ∈ T.resolvedNames) (hfuel : unchecked T ch < fuel) :
    ∃ r, equivalentMangle T fuel ms (ch, h) = some r ∧ ∀ k ∈ ch.keys, k ∈ r.1.keys := by
  induction fuel generalizing ms ch h with
  | zero => omega
  | succ fuel ih =>
      cases hget : ch.get ms with
      | some v => exact ⟨(ch, h), by simp [equivalentMangle, hget], fun _ => id⟩
      | none =>
          refine equivalentMangle_succ fuel ms ch h fun rk ch' h' hrk hch' => ih hrk ?_
          have := unchecked_set_lt (v := lit "1") hms hget
          have := unchecked_le (T := T) hch'
          omega

theorem exists_equivalents (T : Tables) (ms : Name) : ∃ el, equivalents T ms = some el := by
  obtain ⟨r, hr, -⟩ := equivalentMangle_succ (T := T) (T.resolvedNames.length + 1) ms .new .new
    fun rk ch' h' hrk _ => equivalentMangle_returns hrk (Nat.lt_succ_of_le (List.length_filter_le _ _))
  exact ⟨r.2.keys, by simp [equivalents, hr]⟩

/-! ### Emitting -/

/-- The output so far. The rows of the names in `pending` are still to come, all
names of the list in `done` have their entry. -/
structure Emitting (T : Tables) (pending done : List Name) (s : EmitState) : Prop where
  types_eq : s.types.map TypeDecl.name = s.table_list
  cast_perm : (pending ++ s.cast.map CastRow.name).Perm s.table_list
  list_perm : s.table_list.Perm (done ++ s.imported_types.keys)
  imported : ∀ k ∈ s.imported_types.keys, T.r_mangled.get k = none
  rows : ∀ row ∈ s.cast, ∀ c ∈ row.casts, c.1 ∈ s.table_list ∨ c.1 ∈ T.r_mangled.keys

variable {pending done : List Name} {s : EmitState}

theorem keys_set_perm {t : StringTable Name} {k v : Name} (hk : t.get k = none) :
    (t.set k v).keys.Perm (k :: t.keys) := by
  have hnot : k ∉ t.keys := by
    rw [StringTable.mem_keys_iff, hk]
    exact Bool.false_ne_true
  refine (List.perm_ext_iff_of_nodup (t.set k v).nodup_keys
    (List.nodup_cons.mpr ⟨hnot, t.nodup_keys⟩)).mpr fun k' => ?_
  rw [StringTable.mem_keys_set, List.mem_cons]

theorem Emitting.imported_step (h : Emitting T pending done s) (ei : Name) :
    Emitting T pending done (emitImported T s ei) ∧
      (∀ x ∈ s.table_list, x ∈ (emitImported T s ei).table_list) ∧
      (ei ∈ (emitImported T s ei).table_list ∨ ei ∈ T.r_mangled.keys) := by
  rw [emitImported]
  by_cases hnew : (T.r_mangled.get ei).isNone ∧ (s.imported_types.get ei).isNone
  · rw [if_pos hnew]
    have himported := Option.isNone_iff_eq_none.mp hnew.2
    refine ⟨⟨?_, ?_, ?_, fun k hk => ?_, fun row hrow c hc => ?_⟩,
      fun x hx => List.mem_append_left _ hx, .inl (List.mem_append_right _ List.mem_cons_self)⟩
    · dsimp only
      rw [List.map_append, h.types_eq]
      rfl
    · dsimp only
      rw [List.map_append, ← List.append_assoc]
      exact h.cast_perm.append_right _
    · refine (h.list_perm.append_right [ei]).trans ?_
      rw [List.append_assoc]
      exact ((List.perm_append_singleton ei _).trans (keys_set_perm himported).symm).append_left done
    · rcases StringTable.mem_keys_set.mp hk with rfl | hk
      · exact Option.isNone_iff_eq_none.mp hnew.1
      · exact h.imported k hk
    · rcases List.mem_append.mp hrow with hrow | hrow
      · exact (h.rows row hrow c hc).imp_left (List.mem_append_left _)
      · rw [List.mem_singleton.mp hrow, List.mem_singleton] at hc
        rw [hc]
        exact .inl (List.mem_append_right _ List.mem_cons_self)
  · rw [if_neg hnew]
    refine ⟨h, fun _ => id, ?_⟩
    rw [StringTable.mem_keys_iff]
    rcases not_and_or.mp hnew with hm | hi
    · exact .inr (Option.isSome_iff_ne_none.mpr (by simpa using hm))
    · refine .inl (h.list_perm.mem_iff.mpr (List.mem_append_right _ ?_))
      exact StringTable.mem_keys_iff.mpr (Option.isSome_iff_ne_none.mpr (by simpa using hi))

theorem Emitting.imported_run (h : Emitting T pending done s) (el : List Name) :
    Emitting T pending done (el.foldl (emitImported T) s) ∧
      (∀ x ∈ s.table_list, x ∈ (el.foldl (emitImported T) s).table_list) ∧
      ∀ ei ∈ el, ei ∈ (el.foldl (emitImported T) s).table_list ∨ ei ∈ T.r_mangled.keys := by
  induction el generalizing s with
  | nil => exact ⟨h, fun _ => id, fun _ hei => by cases hei⟩
  | cons e el ih =>
      obtain ⟨h₁, hkeep₁, he⟩ := h.imported_step e
      obtain ⟨h₂, hkeep₂, hel⟩ := ih h₁
      refine ⟨h₂, fun x hx => hkeep₂ x (hkeep₁ x hx), fun ei hei => ?_⟩
      rcases List.mem_cons.mp hei with rfl | hei
      · exact he.imp_left (hkeep₂ ei)
      · exact hel ei hei

theorem Emitting.step (h : Emitting T [] done s) (f : TypeFns) (ki : Name) :
    ∃ s', emitType f T s ki = some s' ∧ Emitting T [] (done ++ [ki]) s' := by
  obtain ⟨el, hel⟩ := exists_equivalents T ki
  have hstart : Emitting T [ki] (done ++ [ki])
      { s with
        table_list := s.table_list ++ [ki]
        types := s.types ++ [⟨ki, typeNames f ((T.r_ltype.get ki).getD .new),
          (clientdataCollect T ki).getD (lit "0")⟩] } := by
    refine ⟨?_, ?_, ?_, h.imported, fun row hrow c hc => ?_⟩
    · dsimp only
      rw [List.map_append, h.types_eq]
      rfl
    · exact (List.perm_append_singleton ki _).symm.trans (h.cast_perm.append_right [ki])
    · refine (h.list_perm.append_right [ki]).trans ?_
      rw [List.append_assoc, List.append_assoc]
      exact List.perm_append_comm.append_left done
    · exact (h.rows row hrow c hc).imp_left (List.mem_append_left _)
  obtain ⟨h₁, -, hall⟩ := hstart.imported_run el
  refine ⟨{ el.foldl (emitImported T) _ with cast := (el.foldl (emitImported T) _).cast ++
    [⟨ki, el.map fun ei => (ei, T.conversions.get (ei ++ lit "+" ++ ki))⟩] },
    by rw [emitType, hel]; rfl, ⟨h₁.types_eq, ?_, h₁.list_perm, h₁.imported,
    fun row hrow c hc => ?_⟩⟩
  · dsimp only
    rw [List.map_append]
    exact (List.perm_append_singleton ki _).trans h₁.cast_perm
  · rcases List.mem_append.mp hrow with hrow | hrow
    · exact h₁.rows row hrow c hc
    · rw [List.mem_singleton.mp hrow] at hc
      obtain ⟨ei, hei, rfl⟩ := List.mem_map.mp hc
      exact hall ei hei

/-! ### The tables written -/

/-- The entries strictly increase; entry, cast row and macro of an index are of
the same type; every entry is declared once with its name and its row; and the
types in the rows have entries. -/
structure TypeTable.Correct (out : TypeTable) : Prop where
  increasing : out.table.Pairwise fun a b => strcmp a b = .lt
  castInit_eq : out.castInit = out.table
  macros_eq : out.macros = out.table.zipIdx
  size_eq : out.size = out.table.length
  types_perm : (out.types.map TypeDecl.name).Perm out.table
  cast_perm : (out.cast.map CastRow.name).Perm out.table
  casts_mem : ∀ row ∈ out.cast, ∀ c ∈ row.casts, c.1 ∈ out.table

theorem foldl_emitEntry (l : List Name) (e : Entries) : l.foldl emitEntry e =
    ⟨e.macros ++ l.zipIdx e.i, e.table ++ l, e.castInit ++ l, e.i + l.length⟩ := by
  induction l generalizing e with
  | nil => simp
  | cons k l ih =>
      rw [List.foldl_cons, ih]
      simp [emitEntry, Nat.add_comm, Nat.add_left_comm]

theorem linkTypedef_r_mangled (rkey mkey convname typePrefix : Name) (rlist : List Name)
    (T : Tables) (rrk : Name × Name) :
    (linkTypedef rkey mkey convname typePrefix rlist T rrk).r_mangled = T.r_mangled := by
  unfold linkTypedef
  split <;> rfl

theorem linkSubclass_r_mangled (f : TypeFns) (rkey : Name) (rlist : List Name)
    (s : Tables × List ConvFn) (bk : Name × Subclass) :
    (linkSubclass f rkey rlist s bk).1.r_mangled = s.1.r_mangled := by
  obtain ⟨T, out⟩ := s
  unfold linkSubclass
  dsimp only
  split
  · rfl
  · split
    · rfl
    · exact List.foldlRecOn (motive := fun t : Tables => t.r_mangled = T.r_mangled) _ _ rfl
        fun t ht e _ => (linkTypedef_r_mangled ..).trans ht

/-- Inheritance adds equivalent names, but no entry of its own. -/
theorem inheritEquiv_r_mangled (f : TypeFns) (T : Tables) :
    (inheritEquiv f T).1.r_mangled = T.r_mangled := by
  refine List.foldlRecOn (motive := fun s : Tables × List ConvFn => s.1.r_mangled = T.r_mangled)
    _ _ rfl fun s hs rkey _ => ?_
  split
  · exact hs
  · exact List.foldlRecOn (motive := fun s : Tables × List ConvFn => s.1.r_mangled = T.r_mangled)
      _ _ hs fun t ht e _ => (linkSubclass_r_mangled ..).trans ht

theorem emitTypeTable_correct (f : TypeFns) (T : Tables) :
    ∃ out, emitTypeTable f T = some out ∧ out.Correct ∧ ∀ ms ∈ T.r_mangled.keys, ms ∈ out.table := by
  obtain ⟨T', hT'⟩ : ∃ T', (inheritEquiv f T).1 = T' := ⟨_, rfl⟩
  have hmangled : T'.r_mangled = T.r_mangled := hT' ▸ inheritEquiv_r_mangled f T
  have hlist := sortMangled_perm T'.r_mangled.keys
  have hstart : Emitting T' [] [] ⟨[], [], [], .new⟩ := ⟨rfl, .refl _, by simp, by simp, by simp⟩
  obtain ⟨s, hs, hemit⟩ : ∃ s, (sortedMangledList T').foldlM (emitType f T') ⟨[], [], [], .new⟩ =
      some s ∧ Emitting T' [] ([] ++ sortedMangledList T') s :=
    Fuel.foldlM_of_step (Emitting T' []) hstart fun done ki s _ h => h.step f ki
  rw [List.nil_append] at hemit
  have hnodup : s.table_list.Nodup := by
    refine hemit.list_perm.nodup_iff.mpr (List.nodup_append'.mpr
      ⟨hlist.nodup_iff.mpr T'.r_mangled.nodup_keys, s.imported_types.nodup_keys, fun k hk hi => ?_⟩)
    have hget := StringTable.mem_keys_iff.mp (hlist.mem_iff.mp hk)
    rw [hemit.imported k hi] at hget
    cases hget
  have hperm := sortMangled_perm s.table_list
  have hmem : ∀ ms ∈ T'.r_mangled.keys, ms ∈ sortMangled s.table_list := fun ms hms =>
    hperm.mem_iff.mpr (hemit.list_perm.mem_iff.mpr
      (List.mem_append_left _ (hlist.mem_iff.mpr hms)))
  refine ⟨⟨(inheritEquiv f T).2, s.types, sortMangled s.table_list, s.cast,
    sortMangled s.table_list, (sortMangled s.table_list).zipIdx, (sortMangled s.table_list).length⟩,
    ?_, ⟨sortMangled_increasing hnodup, rfl, rfl, rfl, ?_, ?_, fun row hrow c hc => ?_⟩, ?_⟩
  · simp [emitTypeTable, hT', hs, foldl_emitEntry]
  · dsimp only
    rw [hemit.types_eq]
    exact hperm.symm
  · exact hemit.cast_perm.trans hperm.symm
  · rcases hemit.rows row hrow c hc with hrow | hrow
    · exact hperm.mem_iff.mpr hrow
    · exact hmem c.1 hrow
  · rw [← hmangled]
    exact hmem

/-! ### The search at run time -/

/-- A table that is written after some calls into the type system. -/
def Generated (out : TypeTable) : Prop :=
  ∃ calls T f, List.foldlM Tables.call .empty calls = some T ∧ emitTypeTable f T = some out

theorem Generated.correct {out : TypeTable} (h : Generated out) : out.Correct := by
  obtain ⟨calls, T, f, -, hout⟩ := h
  obtain ⟨out', hout', hcorrect, -⟩ := emitTypeTable_correct f T
  rw [hout] at hout'
  cases hout'
  exact hcorrect

variable {M I : Type}

/-- The array of the module holds types of the names in the table. -/
def HasTable (st : State M I) (m : M) (out : TypeTable) : Prop :=
  (st.modules m).size = out.size ∧
    (st.modules m).types.map (fun t => (st.types t).name) = out.table

theorem HasTable.filled {st : State M I} {m : M} {out : TypeTable} (h : HasTable st m out)
    (hout : out.Correct) : (st.modules m).types.length = (st.modules m).size := by
  rw [h.1, hout.size_eq, ← h.2, List.length_map]

theorem HasTable.sorted {st : State M I} {m : M} {out : TypeTable} (h : HasTable st m out)
    (hout : out.Correct) : st.Sorted (st.modules m).types := by
  have := hout.increasing
  rwa [← h.2, List.pairwise_map] at this

variable [DecidableEq M]

/-- The modules from `start` on up to `stop`, or all round the ring. -/
def visited (start stop : M) (xs : List M) : List M :=
  if stop = start then start :: xs else start :: xs.takeWhile (· ≠ stop)

theorem path_visited {next : M → Option M} {start stop : M} {xs : List M}
    (hring : CircularList.IsRing next start xs) (hstop : stop ∈ start :: xs) :
    ∃ ys, visited start stop xs = start :: ys ∧ CircularList.Path next start ys stop ∧ stop ∉ ys := by
  rw [visited]
  split
  · subst stop
    exact ⟨xs, rfl, hring.path, (List.nodup_cons.mp hring.nodup).1⟩
  · rename_i hne
    have hmem := (List.mem_cons.mp hstop).resolve_left hne
    refine ⟨_, rfl, hring.path.takeWhile hmem, fun h => ?_⟩
    simpa using List.mem_takeWhile_imp h

/-- For every use of the types the table is written, and it is sorted, with entry,
cast row and macro of each index of one type; and in a ring of modules with such
tables the search finds the first type of the name. -/
theorem typeTables_searched :
    (∀ (calls : List Call) (T : Tables), calls.foldlM Tables.call .empty = some T →
      ∀ f, ∃ out, emitTypeTable f T = some out ∧ out.Correct ∧
        ∀ ms ∈ T.r_mangled.keys, ms ∈ out.table) ∧
    ∀ (st : State M I) (start stop : M) (xs : List M) (name : Name),
      CircularList.IsRing st.moduleNext start xs → stop ∈ start :: xs →
      (∀ m ∈ start :: xs, ∃ out, Generated out ∧ HasTable st m out) →
      Fuel.Returns (fun fuel => st.mangledTypeQueryModule fuel start stop name)
        (((visited start stop xs).flatMap fun m => (st.modules m).types).find?
          fun t => (st.types t).name == name) := by
  refine ⟨fun calls T _ f => emitTypeTable_correct f T, fun st start stop xs name hring hstop htab => ?_⟩
  obtain ⟨ys, hvisited, hpath, hnot⟩ := path_visited hring hstop
  have hys : ∀ m ∈ start :: ys, m ∈ start :: xs := by
    rw [← hvisited, visited]
    split
    · exact fun m => id
    · exact fun m hm => (List.cons_subset_cons start (List.takeWhile_subset _)) hm
  rw [hvisited]
  apply st.mangledTypeQueryModule_returns name hpath hnot
  · intro m hm
    obtain ⟨out, hout, htable⟩ := htab m (hys m hm)
    exact htable.filled hout.correct
  · intro m hm
    obtain ⟨out, hout, htable⟩ := htab m (hys m hm)
    exact htable.sorted hout.correct

/-- Type strings that are their own mangled and resolved names. -/
def plainFns : TypeFns where
  manglestr := id
  ltype := id
  istypedef := fun _ => false
  typedef_resolve_all := id
  typedef_qualified := id
  strip_qualifiers := id
  base := id
  typePrefix := id
  lstr := id
  istemplate := fun _ => false
  template_deftype := id

/-- The tables after the type `A` was remembered. -/
def plainTables : Tables :=
  { Tables.empty with
    r_remembered := StringTable.new.set [65] []
    r_ltype := setIn .new [65] [65] (lit "1")
    r_mangled := setIn .new [65] [65] [65]
    r_resolved := setIn .new [65] [65] [65] }

theorem calls_plainTables :
    List.foldlM Tables.call .empty [.rememberClientdata plainFns [65] none] = some plainTables := by
  show (rememberClientdata plainFns .empty [65] none >>= fun T => some T) = _
  rw [rememberClientdata]
  rfl

theorem exists_plainTable :
    ∃ out, emitTypeTable plainFns plainTables = some out ∧ out.table = [[65]] ∧ out.size = 1 := by
  have hkeys : (inheritEquiv plainFns plainTables).1.r_mangled.keys = [[65]] := by decide
  have hemit : (emitType plainFns (inheritEquiv plainFns plainTables).1 ⟨[], [], [], .new⟩ [65]).map
      EmitState.table_list = some [[65]] := by decide
  obtain ⟨s, hs, hlist⟩ := Option.map_eq_some_iff.mp hemit
  refine ⟨⟨(inheritEquiv plainFns plainTables).2, s.types, [[65]], s.cast, [[65]], [([65], 0)], 1⟩,
    ?_, rfl, rfl⟩
  simp [emitTypeTable, sortedMangledList, sortMangled, hkeys, hs, hlist, foldl_emitEntry]

/-- One module that has the table of `A`, linked to itself. -/
def plainState : State Unit Unit where
  types := fun _ => ⟨[65], none, none, none⟩
  casts := fun _ => ⟨((), 0), none, none, none⟩
  modules := fun _ => ⟨[((), 0)], some (), [1]⟩
  head := fun _ => some ()

theorem typeTables_searched_plain :
    (∃ out, emitTypeTable plainFns plainTables = some out ∧ out.Correct ∧
      ∀ ms ∈ plainTables.r_mangled.keys, ms ∈ out.table) ∧
    Fuel.Returns (fun fuel => plainState.mangledTypeQueryModule fuel () () [65]) (some ((), 0)) := by
  obtain ⟨hwritten, hsearch⟩ := @typeTables_searched Unit Unit _
  refine ⟨hwritten _ _ calls_plainTables plainFns, ?_⟩
  refine hsearch plainState () () [] [65] ⟨rfl, by simp⟩ (by simp) fun m _ => ?_
  obtain ⟨out, hout, htable, hsize⟩ := exists_plainTable
  exact ⟨out, ⟨_, _, _, calls_plainTables, hout⟩, hsize.symm, htable.symm⟩

end Swig.Typesys
