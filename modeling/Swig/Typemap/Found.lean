import Swig.Typemap.Operators
import Swig.Typemap.Slots

/-!
What `typemap_search` and `typemap_search_multi` find where the slots of a list of
parameters are there.
-/

namespace Swig.Typemap

open DOH SType Naming

/-! ### The points of a search come to an end -/

/-- The typedefs and the default types behind a point come to an end. -/
inductive Point.Ends (f : TypeFns) (type : SwigType) : Point → Prop
  | last {q : Point} (h : q.next f type = some none) : Ends f type q
  | next {q r : Point} (h : q.next f type = some (some r)) (hr : Ends f type r) : Ends f type q

variable {S : Search} {q : Point} {backup : Option Method}

theorem testCode_isSome {rs : List Method} {backup' : Option Method} (h : testCode rs backup = .go backup')
    (hsome : backup.isSome ∨ rs ≠ []) : backup'.isSome := by
  induction rs generalizing backup with
  | nil =>
      cases h
      exact hsome.resolve_right fun hne => hne rfl
  | cons r rs ih =>
      rw [testCode] at h
      split at h
      · cases h
      · exact ih h (.inl rfl)

namespace Search

theorem examine_isSome {backup' : Option Method} (h : S.examine q backup = .go backup')
    (hsome : backup.isSome ∨ S.candidatesAt q ≠ []) : backup'.isSome := by
  cases q with
  | type ts ctype unstripped =>
      exact testCode_isSome h (hsome.imp_right fun hne hnil => hne (List.map_eq_nil_iff.mpr hnil))
  | array ts ctype noarrays unstripped =>
      exact testCode_isSome h (hsome.imp_right fun hne hnil => hne (List.map_eq_nil_iff.mpr hnil))
  | default ts primitive =>
      rw [examine] at h
      rw [candidatesAt] at hsome
      cases hrs : S.resultsIn ts primitive with
      | nil =>
          rw [hrs] at h hsome
          cases h
          exact hsome.resolve_right fun hne => hne rfl
      | cons r rs =>
          rw [hrs] at h
          cases h

/-- With a backup or a candidate, the search has a result at the end. -/
theorem run_returns (h : q.Ends S.f S.type) (hsome : backup.isSome ∨ S.candidatesAt q ≠ []) :
    ∃ n, ∀ fuel ≥ n, ∃ r m, S.run fuel q backup = some (some r, m) := by
  induction h generalizing backup with
  | @last q hlast =>
      refine ⟨1, fun fuel hfuel => ?_⟩
      obtain ⟨fuel, rfl⟩ := Nat.exists_eq_add_of_le' hfuel
      rw [run]
      cases hexamine : S.examine q backup with
      | ret r => exact ⟨r, q.matchtype, rfl⟩
      | go backup' =>
          obtain ⟨r, rfl⟩ := Option.isSome_iff_exists.mp (examine_isSome hexamine hsome)
          exact ⟨r, none, by rw [hlast]⟩
  | @next q r hnext hr ih =>
      cases hexamine : S.examine q backup with
      | ret r =>
          refine ⟨1, fun fuel hfuel => ?_⟩
          obtain ⟨fuel, rfl⟩ := Nat.exists_eq_add_of_le' hfuel
          exact ⟨r, q.matchtype, by rw [run, hexamine]⟩
      | go backup' =>
          obtain ⟨n, hn⟩ := ih (.inl (examine_isSome hexamine hsome))
          refine ⟨n + 1, fun fuel hfuel => ?_⟩
          obtain ⟨fuel, rfl⟩ := Nat.exists_eq_add_of_le' (show 1 ≤ fuel by omega)
          rw [run, hexamine, hnext]
          exact hn fuel (by omega)

end Search

/-! ### A search at a slot that is there -/

variable {f : TypeFns} {T T' : Typemaps} {m : List Byte} {p : Parm} {e : Method}

theorem cnameOf_eq (h : p.name ≠ some []) : cnameOf p.name = p.name := by
  cases hname : p.name with
  | none => rfl
  | some name =>
      rw [cnameOf, Option.filter_some, if_pos]
      exact decide_eq_true fun hnil => h (hname.trans (congrArg some hnil))

theorem resultsIn_cons (hname : p.name ≠ some [])
    (h : T.methodAt (T.home f p.type) p.name (methodName m) = some e) :
    ∃ rest, (⟨f, T, methodName m, p.type, cnameOf p.name⟩ : Search).resultsIn T.tm_scope p.type = e :: rest := by
  obtain ⟨tm1, hslot, he⟩ := Option.bind_eq_some_iff.mp h
  obtain ⟨tm, hget, htm1⟩ := Option.bind_eq_some_iff.mp hslot
  rw [Search.resultsIn, Typemaps.getTypemap_current, hget, cnameOf_eq hname]
  cases hn : p.name with
  | none =>
      rw [hn] at htm1
      cases htm1
      exact ⟨[], by simp [results, he]⟩
  | some name =>
      rw [hn] at htm1
      have hmethod : (tm.names.get name).bind (·.get (methodName m)) = some e := by
        rw [show tm.names.get name = some tm1 from htm1, Option.bind_some, he]
      exact ⟨_, by simp [results, hmethod]; rfl⟩

/-- A typemap with code for the type and the name is found first. -/
theorem typemapSearch_coded (hname : p.name ≠ some []) (hcode : e.code.isSome)
    (h : T.methodAt (T.home f p.type) p.name (methodName m) = some e) {fuel : ℕ} (hfuel : 1 ≤ fuel) :
    ∃ mt, typemapSearch f T fuel m p.type p.name = some (some e, mt) := by
  obtain ⟨rest, hrest⟩ := resultsIn_cons hname h
  obtain ⟨fuel, rfl⟩ := Nat.exists_eq_add_of_le' hfuel
  refine ⟨some p.type, ?_⟩
  rw [typemapSearch, Search.run, Search.start, Search.examine, hrest, testCode, if_pos hcode]
  rfl

/-- Whatever is stored for the type and the name, the search has a result. -/
theorem typemapSearch_returns (hname : p.name ≠ some []) (hends : (Point.type T.tm_scope p.type none).Ends f p.type)
    (h : (T.methodAt (T.home f p.type) p.name (methodName m)).isSome) :
    ∃ n, ∀ fuel ≥ n, ∃ r mt, typemapSearch f T fuel m p.type p.name = some (some r, mt) := by
  obtain ⟨e, he⟩ := Option.isSome_iff_exists.mp h
  obtain ⟨rest, hrest⟩ := resultsIn_cons hname he
  let S : Search := ⟨f, T, methodName m, p.type, cnameOf p.name⟩
  refine Search.run_returns (S := S) hends (.inr ?_)
  rw [Search.start, Search.candidatesAt, hrest]
  exact List.cons_ne_nil _ _

/-- The slots of the parameters are there, and the one of the last parameter holds `e`. -/
structure Stored (f : TypeFns) (T : Typemaps) (m : List Byte) (before : List Parm) (last : Parm) (e : Method) :
    Prop where
  passed : ∀ a p b, before = a ++ p :: b →
    (T.methodAt (T.home f p.type) p.name (methodName (operator m a))).isSome
  last : T.methodAt (T.home f last.type) last.name (methodName (operator m before)) = some e

/-- By induction on the parameters: the search for one of them has a result, so that the
search goes on, and at the last one it finds the code. -/
theorem Stored.searchMulti {before : List Parm} {last : Parm} (h : Stored f T m before last e)
    (hcode : e.code.isSome) (hnames : ∀ p ∈ before ++ [last], p.name ≠ some [])
    (hends : ∀ p ∈ before, (Point.type T.tm_scope p.type none).Ends f p.type) :
    ∃ n, ∀ fuel ≥ n, ∀ nmatch,
      T.searchMulti f fuel m (before ++ [last]) nmatch = some (some e, (before ++ [last]).length) := by
  induction before generalizing m with
  | nil =>
      have hlast : T.methodAt (T.home f last.type) last.name (methodName m) = some e := h.last
      refine ⟨1, fun fuel hfuel nmatch => ?_⟩
      obtain ⟨mt, hmt⟩ := typemapSearch_coded (hnames last List.mem_cons_self) hcode hlast hfuel
      rw [List.nil_append, Typemaps.searchMulti, hmt]
      simp [Typemaps.searchMulti, hcode]
  | cons p before ih =>
      have hp : p.name ≠ some [] := hnames p List.mem_cons_self
      have hstored : Stored f T (newop m p) before last e :=
        ⟨fun a q b hab => h.passed (p :: a) q b (congrArg (p :: ·) hab), h.last⟩
      obtain ⟨n, hn⟩ := ih hstored (fun q hq => hnames q (List.mem_cons_of_mem p hq))
        (fun q hq => hends q (List.mem_cons_of_mem p hq))
      have hslot : (T.methodAt (T.home f p.type) p.name (methodName m)).isSome := h.passed [] p before rfl
      obtain ⟨n', hn'⟩ := typemapSearch_returns hp (hends p List.mem_cons_self) hslot
      refine ⟨max n n', fun fuel hfuel nmatch => ?_⟩
      obtain ⟨r, mt, hr⟩ := hn' fuel (by omega)
      rw [List.cons_append, Typemaps.searchMulti, hr]
      simp [hn fuel (by omega), hcode]

end Swig.Typemap
