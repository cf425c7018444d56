import Swig.Naming.Features
import Swig.Lib.Ranked
import Mathlib.Data.Bool.AllAny

/-!
How specific the features are that `Swig_features_get` merges into a node.
-/

namespace Swig.Naming

open ByteBlock Swig.Typesys Ranked

/-! ### The features of a run of calls -/

/-- A call of `Swig_feature_set`. -/
structure FeatureCall where
  name : List Byte
  decl : Option (List Byte)
  featurename : List Byte
  value : Option (List Byte)
  featureattribs : List FeatureAttrib

/-- The features after some calls. -/
def featureRun (T : Deftype) (calls : List FeatureCall) : Features :=
  calls.foldl (fun features c => featureSet T features c.name c.decl c.featurename c.value c.featureattribs)
    fun _ => none

/-- A hash of features: the name and the declarator it is for, and how specific they are. -/
structure Place where
  rank : ℕ
  name : List Byte
  key : List Byte

/-- The value of an attribute in the hash. -/
def entry (features : Features) (k : List Byte) (p : Place) : Option (List Byte) :=
  ((features p.name).bind (· p.key)).bind (· k)

/-- What a call sets an attribute to, if it does. -/
def FeatureCall.sets (c : FeatureCall) (k : List Byte) : Option (Option (List Byte)) :=
  ((c.featureattribs.reverse.find? fun attrib => c.featurename ++ lit ":" ++ attrib.name = k).map fun attrib =>
    if c.value.isSome then attrib.value else none).or (if k = c.featurename then some c.value else none)

/-- The hash is one that the call sets features in. -/
def FeatureCall.At (T : Deftype) (c : FeatureCall) (p : Place) : Prop :=
  p.name ∈ featureSetNames T c.name ∧ p.key = c.decl.getD (lit "start")

instance (T : Deftype) (c : FeatureCall) (p : Place) : Decidable (c.At T p) := inferInstanceAs (Decidable (_ ∧ _))

/-- The value that the last call for a hash and an attribute has given it. -/
def recorded (T : Deftype) (calls : List FeatureCall) (k : List Byte) (p : Place) : Option (List Byte) :=
  (calls.reverse.findSome? fun c => if c.At T p then c.sets k else none).join

/-! ### The places that are looked at -/

/-- The names `Swig_features_get` looks for, and how specific each is. -/
def featureLevels (pre : Option (List Byte)) (name : List Byte) : List (ℕ × List Byte) :=
  (if istemplate name then [(1, templatePrefix name)] else []) ++ (2, name) ::
    match pre with
    | none => [(6, lit "::" ++ name)]
    | some [] => [(4, lit "*::" ++ name)]
    | some pre =>
        [(3, pre ++ lit "::"), (4, lit "*::" ++ name)]
          ++ (if istemplate pre then [(5, templatePrefix pre ++ lit "::" ++ name)] else [])
          ++ [(6, pre ++ lit "::" ++ name)]

/-- The global features. -/
def globalPlace : Place := ⟨0, [], lit "start"⟩

/-- A name without and with the declarator. -/
def levelPlaces (decl : Option (List Byte)) (level : ℕ × List Byte) : List Place :=
  [⟨2 * level.1, level.2, lit "start"⟩, ⟨2 * level.1 + 1, level.2, decl.getD (lit "start")⟩]

/-- The places for one spelling of a name, the least specific first. -/
def spellingPlaces (pre : Option (List Byte)) : Option (List Byte × Option (List Byte)) → List Place
  | none => [globalPlace]
  | some (name, decl) => globalPlace :: (featureLevels pre name).flatMap (levelPlaces decl)

/-- `Swig_symbol_template_deftype`, where the root of a complete type is complete. -/
structure RootedDeftype extends Deftype where
  deftype_root : ∀ t decl nodetype, deftype (templateConstructor (deftype t) decl nodetype).1 =
    (templateConstructor (deftype t) decl nodetype).1

/-- The names and declarators that a declaration is looked for by: as it is spelled, and for a
template-id with another canonical form by that. -/
def spellings (T : Deftype) (nodetype name decl : Option (List Byte)) :
    List (Option (List Byte × Option (List Byte))) :=
  match name with
  | none => [none]
  | some name =>
      let root := templateConstructor name decl nodetype
      some root ::
        if istemplate root.1 ∧ T.deftype root.1 ≠ root.1 then
          [some (templateConstructor (T.deftype root.1) root.2 nodetype)]
        else []

/-- All places, in the order they are looked at. -/
def places (T : Deftype) (pre nodetype name decl : Option (List Byte)) : List Place :=
  (spellings T nodetype name decl).flatMap (spellingPlaces pre)

variable {T : Deftype} {features : Features} {calls : List FeatureCall} {c : FeatureCall} {name k : List Byte}
variable {decl val : Option (List Byte)} {featureattribs : List FeatureAttrib} {pre nodetype : Option (List Byte)}
variable {node : Attrs} {p : Place}

/-! ### What the calls leave -/

theorem setAttribs_eq (featurename : List Byte) (value : Option (List Byte)) (featureattribs : List FeatureAttrib)
    (fhash : Attrs) (k : List Byte) :
    setAttribs featurename value featureattribs fhash k =
      ((featureattribs.reverse.find? fun attrib => featurename ++ lit ":" ++ attrib.name = k).map fun attrib =>
        if value.isSome then attrib.value else none).getD (fhash k) := by
  rw [setAttribs]
  induction featureattribs using List.reverseRecOn with
  | nil => rfl
  | append_singleton featureattribs attrib ih =>
      rw [List.foldl_append, List.foldl_cons, List.foldl_nil, List.reverse_append, List.reverse_singleton,
        List.singleton_append]
      by_cases hk : featurename ++ lit ":" ++ attrib.name = k
      · rw [List.find?_cons_of_pos (by simpa using hk), ← hk, Function.update_self]
        rfl
      · rw [List.find?_cons_of_neg (by simpa using hk), Function.update_of_ne (Ne.symm hk), ih]

theorem entry_featureSetAt (features : Features) (c : FeatureCall) (name k : List Byte) (p : Place) :
    entry (featureSetAt features name c.decl c.featurename c.value c.featureattribs) k p =
      if p.name = name ∧ p.key = c.decl.getD (lit "start") then (c.sets k).getD (entry features k p)
      else entry features k p := by
  by_cases hname : p.name = name
  · by_cases hkey : p.key = c.decl.getD (lit "start")
    · have hold : ((((features name).getD fun _ => none) (c.decl.getD (lit "start"))).getD fun _ => none) k =
          entry features k p := by
        rw [entry, hname, hkey]
        cases h : features name with
        | none => rfl
        | some n =>
            rw [Option.getD_some, Option.bind_some]
            cases n (c.decl.getD (lit "start")) <;> rfl
      rw [if_pos ⟨hname, hkey⟩, entry, featureSetAt, hname, hkey]
      simp only [Function.update_self, Option.bind_some]
      rw [setAttribs_eq, FeatureCall.sets]
      cases (c.featureattribs.reverse.find? fun attrib => c.featurename ++ lit ":" ++ attrib.name = k) with
      | some attrib => rfl
      | none =>
          rw [Option.map_none, Option.getD_none, Option.none_or]
          by_cases hk : k = c.featurename
          · rw [if_pos hk, hk, Function.update_self]
            rfl
          · rw [if_neg hk, Function.update_of_ne hk, hold]
            rfl
    · rw [if_neg fun h => hkey h.2, entry, entry, featureSetAt, hname]
      simp only [Function.update_self, Option.bind_some]
      rw [Function.update_of_ne hkey]
      cases features name <;> rfl
  · rw [if_neg fun h => hname h.1, entry, entry, featureSetAt]
    simp only [Function.update_of_ne hname]

theorem entry_foldl (features : Features) (c : FeatureCall) (names : List (List Byte)) (k : List Byte) (p : Place) :
    entry (names.foldl (fun features name =>
        featureSetAt features name c.decl c.featurename c.value c.featureattribs) features) k p =
      if p.name ∈ names ∧ p.key = c.decl.getD (lit "start") then (c.sets k).getD (entry features k p)
      else entry features k p := by
  induction names using List.reverseRecOn with
  | nil => simp
  | append_singleton names n ih =>
      rw [List.foldl_append, List.foldl_cons, List.foldl_nil, entry_featureSetAt, ih]
      by_cases hkey : p.key = c.decl.getD (lit "start")
      · by_cases hn : p.name = n
        · rw [if_pos ⟨hn, hkey⟩, if_pos (show p.name ∈ names ++ [n] ∧ _ from ⟨by simp [hn], hkey⟩)]
          -- the hash may have been set for a name before
          split
          · cases c.sets k <;> rfl
          · rfl
        · rw [if_neg fun h => hn h.1]
          simp only [List.mem_append, List.mem_singleton, hn, or_false]
      · rw [if_neg fun h => hkey h.2, if_neg fun h => hkey h.2, if_neg fun h => hkey h.2]

/-- A call sets the attributes of the hashes it is for. -/
theorem entry_featureSet (features : Features) (c : FeatureCall) (k : List Byte) (p : Place) :
    entry (featureSet T features c.name c.decl c.featurename c.value c.featureattribs) k p =
      if c.At T p then (c.sets k).getD (entry features k p) else entry features k p :=
  entry_foldl features c (featureSetNames T c.name) k p

theorem recorded_append (T : Deftype) (calls : List FeatureCall) (c : FeatureCall) (k : List Byte) (p : Place) :
    recorded T (calls ++ [c]) k p =
      if c.At T p then (c.sets k).getD (recorded T calls k p) else recorded T calls k p := by
  rw [recorded, recorded, List.reverse_append, List.reverse_singleton, List.singleton_append, List.findSome?_cons]
  by_cases hat : c.At T p
  · rw [if_pos hat, if_pos hat]
    cases c.sets k <;> rfl
  · rw [if_neg hat, if_neg hat]

/-- The hashes hold what the last calls for them have set. -/
theorem entry_featureRun (T : Deftype) (calls : List FeatureCall) (k : List Byte) (p : Place) :
    entry (featureRun T calls) k p = recorded T calls k p := by
  induction calls using List.reverseRecOn with
  | nil => rfl
  | append_singleton calls c ih =>
      rw [featureRun, List.foldl_append, List.foldl_cons, List.foldl_nil, entry_featureSet, ← featureRun, ih,
        recorded_append]

/-! ### What is merged -/

theorem map_featureLevels (pre : Option (List Byte)) (name : List Byte) :
    (featureLevels pre name).map Prod.snd = featureNames pre name := by
  rcases pre with _ | _ | ⟨b, pre⟩
  · simp only [featureLevels, featureNames]
    split_ifs <;> rfl
  · simp only [featureLevels, featureNames]
    split_ifs <;> rfl
  · simp only [featureLevels, featureNames]
    split_ifs <;> rfl

/-- The names are looked for from the least specific one on. -/
theorem pairwise_featureLevels (pre : Option (List Byte)) (name : List Byte) :
    ((0, ([] : List Byte)) :: featureLevels pre name).Pairwise (·.1 < ·.1) := by
  rcases pre with _ | _ | ⟨b, pre⟩
  · simp only [featureLevels]
    split_ifs <;> simp
  · simp only [featureLevels]
    split_ifs <;> simp
  · simp only [featureLevels]
    split_ifs <;> simp

theorem levelPlaces_rank {level : ℕ × List Byte} (hp : p ∈ levelPlaces decl level) :
    2 * level.1 ≤ p.rank ∧ p.rank ≤ 2 * level.1 + 1 := by
  simp only [levelPlaces, List.mem_cons, List.not_mem_nil, or_false] at hp
  obtain rfl | rfl := hp <;> simp

theorem pairwise_levels {levels : List (ℕ × List Byte)} (h : levels.Pairwise (·.1 < ·.1)) :
    (levels.flatMap (levelPlaces decl)).Pairwise (Place.rank · < Place.rank ·) := by
  induction levels with
  | nil => exact .nil
  | cons level levels ih =>
      obtain ⟨hlevel, hlevels⟩ := List.pairwise_cons.mp h
      rw [List.flatMap_cons]
      refine List.pairwise_append.mpr ⟨?_, ih hlevels, fun p hp q hq => ?_⟩
      · simp [levelPlaces]
      · obtain ⟨level', hmem, hq⟩ := List.mem_flatMap.mp hq
        have hlt := hlevel level' hmem
        have hp := (levelPlaces_rank hp).2
        have hq := (levelPlaces_rank hq).1
        omega

theorem pairwise_spellingPlaces (pre : Option (List Byte)) (spelling : Option (List Byte × Option (List Byte))) :
    (spellingPlaces pre spelling).Pairwise (Place.rank · < Place.rank ·) := by
  cases spelling with
  | none => exact List.pairwise_singleton _ _
  | some spelling =>
      obtain ⟨hglobal, hlevels⟩ := List.pairwise_cons.mp (pairwise_featureLevels pre spelling.1)
      refine List.pairwise_cons.mpr ⟨fun q hq => ?_, pairwise_levels hlevels⟩
      obtain ⟨level, hmem, hq⟩ := List.mem_flatMap.mp hq
      have hlt := hglobal level hmem
      have hq := (levelPlaces_rank hq).1
      show 0 < q.rank
      omega

theorem featuresGetAt_last (features : Features) (level : ℕ × List Byte) (decl : Option (List Byte)) (node : Attrs) :
    featuresGetAt features level.2 decl node = fun k =>
      (last (entry features k) (levelPlaces decl level)).or (node k) := by
  funext k
  rw [featuresGetAt_eq, levelPlaces, last_cons, last_cons]
  rfl

theorem foldl_featuresGetAt (features : Features) (levels : List (ℕ × List Byte)) (decl : Option (List Byte))
    (node : Attrs) :
    (levels.map Prod.snd).foldl (fun node tname => featuresGetAt features tname decl node) node = fun k =>
      (last (entry features k) (levels.flatMap (levelPlaces decl))).or (node k) := by
  induction levels generalizing node with
  | nil => rfl
  | cons level levels ih =>
      rw [List.map_cons, List.foldl_cons, ih, featuresGetAt_last]
      funext k
      rw [List.flatMap_cons, last_append, Option.or_assoc]

theorem featuresGetAt_global (features : Features) (node : Attrs) (k : List Byte) :
    featuresGetAt features [] none node k = (entry features k globalPlace).or (node k) := by
  rw [featuresGetAt_eq, lookFeature, Option.getD_none, Option.or_self]
  rfl

/-- One spelling: the last place that has the attribute gives its value. -/
theorem spelling_merged (features : Features) (name : List Byte) (decl : Option (List Byte)) (node : Attrs) :
    (featureNames pre name).foldl (fun node tname => featuresGetAt features tname decl node)
        (featuresGetAt features [] none node) = fun k =>
      (last (entry features k) (spellingPlaces pre (some (name, decl)))).or (node k) := by
  rw [← map_featureLevels, foldl_featuresGetAt]
  funext k
  rw [featuresGetAt_global, spellingPlaces, last_cons, Option.or_assoc]

/-- All spellings: the last place that has the attribute gives its value. -/
theorem featuresGet_merged (T : RootedDeftype) (features : Features) (pre nodetype name decl : Option (List Byte))
    (node : Attrs) {n : ℕ} (hn : 2 ≤ n) :
    featuresGet T.toDeftype features pre nodetype n name decl node = some fun k =>
      (last (entry features k) (places T.toDeftype pre nodetype name decl)).or (node k) := by
  obtain ⟨n, rfl⟩ := Nat.exists_eq_add_of_le' hn
  cases name with
  | none =>
      rw [featuresGet]
      congr 1
      funext k
      rw [featuresGetAt_global, places, spellings, List.flatMap_singleton, spellingPlaces, last_cons]
      rfl
  | some name =>
      rw [featuresGet, spelling_merged]
      simp only [places, spellings]
      by_cases hdef : istemplate (templateConstructor name decl nodetype).1 ∧
          T.deftype (templateConstructor name decl nodetype).1 ≠ (templateConstructor name decl nodetype).1
      · rw [if_pos hdef, if_pos hdef, featuresGet, spelling_merged, if_neg fun h => h.2 (T.deftype_root _ _ nodetype)]
        congr 1
        funext k
        rw [List.flatMap_cons, List.flatMap_singleton, last_append, Option.or_assoc]
      · rw [if_neg hdef, if_neg hdef, List.flatMap_singleton]

/-! ### The most specific features -/

/-- `Swig_features_get` after some calls of `Swig_feature_set` gives every attribute of the node
the value of the most specific place that has one; without such a place it is as before. -/
def AttachesMostSpecific (T : Deftype) (calls : List FeatureCall) (pre nodetype name decl : Option (List Byte))
    (node : Attrs) : Prop :=
  ∃ node', (∀ n ≥ 2, featuresGet T (featureRun T calls) pre nodetype n name decl node = some node') ∧
    ∀ k, ∃ r, IsTop Place.rank (recorded T calls k) (places T pre nodetype name decl) r ∧ node' k = r.or (node k)

theorem attaches_iff (T : RootedDeftype) (calls : List FeatureCall) (pre nodetype name decl : Option (List Byte))
    (node : Attrs) :
    AttachesMostSpecific T.toDeftype calls pre nodetype name decl node ↔
      ∀ k, IsTop Place.rank (recorded T.toDeftype calls k) (places T.toDeftype pre nodetype name decl)
        (last (recorded T.toDeftype calls k) (places T.toDeftype pre nodetype name decl)) := by
  have hmerged {n : ℕ} (hn : 2 ≤ n) :=
    featuresGet_merged T (featureRun T.toDeftype calls) pre nodetype name decl node hn
  have hentry (k : List Byte) : entry (featureRun T.toDeftype calls) k = recorded T.toDeftype calls k :=
    funext (entry_featureRun T.toDeftype calls k)
  simp only [hentry] at hmerged
  constructor
  · rintro ⟨node', hnode', hattaches⟩ k
    obtain ⟨r, hr, hk⟩ := hattaches k
    obtain rfl := Option.some.inj ((hmerged (Nat.le_refl 2)).symm.trans (hnode' 2 (Nat.le_refl 2)))
    exact hr.of_or hk
  · exact fun h => ⟨_, fun n hn => hmerged hn, fun k => ⟨_, h k, rfl⟩⟩

theorem spellings_cases (T : Deftype) (nodetype name decl : Option (List Byte)) :
    (∃ first, spellings T nodetype name decl = [first]) ∨
      ∃ first canonical, spellings T nodetype name decl = [first, canonical] := by
  cases name with
  | none => exact .inl ⟨none, rfl⟩
  | some name =>
      simp only [spellings]
      split
      · exact .inr ⟨_, _, rfl⟩
      · exact .inl ⟨_, rfl⟩

/-- `typedef int I`. -/
def intAlias : RootedDeftype where
  deftype t := if t = lit "A<(I)>" then lit "A<(int)>" else t
  deftype_deftype t := by
    split <;> rfl
  deftype_root t decl nodetype := by
    refine if_neg fun h => ?_
    have hroot {t : List Byte} (ht : t ≠ lit "A<(I)>") : (templateConstructor t decl nodetype).1 ≠ lit "A<(I)>" := by
      rw [templateConstructor]
      split
      · intro h
        dsimp only at h
        split at h
        · have := istemplate_templatePrefix (scopenameSplit t).2
          rw [h] at this
          exact absurd this (by decide)
        · have := istemplate_templatePrefix (scopenameSplit t).2
          rw [h] at this
          exact absurd this (by decide)
        · have hcolon : chr ':' ∈ lit "A<(I)>" := by
            rw [← h]
            simp [lit]
          exact absurd hcolon (by decide)
      · exact ht
    refine hroot ?_ h
    split
    · decide
    · assumption

/-- `%feature("f", "0")` for all, `%feature("f", "1")` for `A<I>`, and `%feature("f")` cleared for
`A<int>`. -/
def clearedCalls : List FeatureCall :=
  [⟨[], none, lit "f", some (lit "0"), []⟩, ⟨lit "A<(I)>", none, lit "f", some (lit "1"), []⟩,
    ⟨lit "A<(int)>", none, lit "f", none, []⟩]

end Swig.Naming
