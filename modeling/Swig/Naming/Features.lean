import Swig.Naming.NameObject

/-!
The features of `naming.c`: texts kept by a name, a declarator and the name of the
feature, and merged into the nodes whose name and declarator match.
-/

namespace Swig.Naming

open ByteBlock Swig.Typesys

/-- The attributes of a node, or the features kept for one name and declarator. -/
abbrev Attrs := List Byte → Option (List Byte)

/-- The features of every name, by declarator; `start` stands for no declarator. -/
abbrev Features := List Byte → Option (List Byte → Option Attrs)

/-- An attribute of a feature, as `%feature` gives it. -/
structure FeatureAttrib where
  name : List Byte
  value : Option (List Byte)

/-- The loop of `Swig_feature_set` over the attributes of a feature. -/
def setAttribs (featurename : List Byte) (value : Option (List Byte)) (featureattribs : List FeatureAttrib)
    (fhash : Attrs) : Attrs :=
  featureattribs.foldl (fun fhash attrib =>
    Function.update fhash (featurename ++ lit ":" ++ attrib.name) (if value.isSome then attrib.value else none)) fhash

/-- `Swig_symbol_template_deftype`: the type a template-id stands for, with all its
arguments. Such a type stands for itself. -/
structure Deftype where
  deftype : List Byte → List Byte
  deftype_deftype : ∀ t, deftype (deftype t) = deftype t

/-- `Swig_feature_set` for a name; a null pointer for a value removes the feature. -/
def featureSetAt (features : Features) (name : List Byte) (decl : Option (List Byte)) (featurename : List Byte)
    (value : Option (List Byte)) (featureattribs : List FeatureAttrib) : Features :=
  let n := (features name).getD fun _ => none
  let key := decl.getD (lit "start")
  let fhash := (n key).getD fun _ => none
  let fhash := setAttribs featurename value featureattribs (Function.update fhash featurename value)
  Function.update features name (some (Function.update n key (some fhash)))

/-- The names `Swig_feature_set` keeps a feature under: its name and, for a template-id,
the complete type, for which the call makes no other one. -/
def featureSetNames (T : Deftype) (name : List Byte) : List (List Byte) :=
  name :: if istemplate name ∧ T.deftype name ≠ name then [T.deftype name] else []

/-- `Swig_feature_set`. -/
def featureSet (T : Deftype) (features : Features) (name : List Byte) (decl : Option (List Byte))
    (featurename : List Byte) (value : Option (List Byte)) (featureattribs : List FeatureAttrib) : Features :=
  (featureSetNames T name).foldl (fun features name => featureSetAt features name decl featurename value featureattribs)
    features

/-- `merge_features`. -/
def mergeFeatures (features : Option Attrs) (node : Attrs) : Attrs := fun k => (features.bind (· k)).or (node k)

/-- `features_get`; its `ncdecl` is always null. -/
def featuresGetAt (features : Features) (tname : List Byte) (decl : Option (List Byte)) (node : Attrs) : Attrs :=
  match features tname with
  | none => node
  | some n => mergeFeatures (n (decl.getD (lit "start"))) (mergeFeatures (n (lit "start")) node)

/-- `Replaceall`; `skip` bytes belong to a token that was replaced. -/
def replaceall (token rep : List Byte) : (skip : ℕ) → List Byte → List Byte
  | _, [] => []
  | skip + 1, _ :: cs => replaceall token rep skip cs
  | 0, c :: cs =>
      if token.isPrefixOf (c :: cs) then rep ++ replaceall token rep (token.length - 1) cs
      else c :: replaceall token rep 0 cs

/-- The name and the declarator that `Swig_features_get` looks for: the constructors and
destructors of a template are found by the root of its name. -/
def templateConstructor (name : List Byte) (decl : Option (List Byte)) (nodetype : Option (List Byte)) :
    List Byte × Option (List Byte) :=
  if istemplate name ∧ (nodetype = some (lit "constructor") ∨ nodetype = some (lit "destructor")) then
    let split := scopenameSplit name
    let tprefix := templatePrefix split.2
    let rname :=
      match split.1 with
      | none | some [] => tprefix
      | some nprefix => nprefix ++ lit "::" ++ tprefix
    (rname, decl.map (replaceall name rname 0))
  else (name, decl)

/-- The names `Swig_features_get` looks for in this order. -/
def featureNames (pre : Option (List Byte)) (name : List Byte) : List (List Byte) :=
  (if istemplate name then [templatePrefix name] else []) ++ name ::
    match pre with
    | none => [lit "::" ++ name]
    | some [] => [lit "*::" ++ name]
    | some pre =>
        [pre ++ lit "::", lit "*::" ++ name]
          ++ (if istemplate pre then [templatePrefix pre ++ lit "::" ++ name] else []) ++ [pre ++ lit "::" ++ name]

/-- `Swig_features_get`, at most `fuel` calls deep, on a node of this type. -/
def featuresGet (T : Deftype) (features : Features) (pre : Option (List Byte)) (nodetype : Option (List Byte)) :
    (fuel : ℕ) → Option (List Byte) → Option (List Byte) → Attrs → Option Attrs
  | 0, _, _, _ => none
  | _ + 1, none, _, node => some (featuresGetAt features [] none node)
  | fuel + 1, some name, decl, node =>
      let root := templateConstructor name decl nodetype
      let node := (featureNames pre root.1).foldl (fun node tname => featuresGetAt features tname root.2 node)
        (featuresGetAt features [] none node)
      if istemplate root.1 ∧ T.deftype root.1 ≠ root.1 then
        featuresGet T features pre nodetype fuel (some (T.deftype root.1)) root.2 node
      else some node

/-! ### What is merged into a node -/

variable {T : Deftype} {features : Features} {tname name fname : List Byte} {decl d : List Byte}
variable {pre : Option (List Byte)} {nodetype : Option (List Byte)} {node : Attrs}

/-- What a name and a declarator have for an attribute. -/
def lookFeature (features : Features) (tname : List Byte) (decl : Option (List Byte)) : Attrs := fun k =>
  (((features tname).bind (· (decl.getD (lit "start")))).bind (· k)).or
    (((features tname).bind (· (lit "start"))).bind (· k))

theorem featuresGetAt_eq (features : Features) (tname : List Byte) (decl : Option (List Byte)) (node : Attrs) (k : List Byte) :
    featuresGetAt features tname decl node k = (lookFeature features tname decl k).or (node k) := by
  cases h : features tname with
  | none => simp [featuresGetAt, lookFeature, h]
  | some n => simp [featuresGetAt, lookFeature, mergeFeatures, h, Option.or_assoc]

/-- The names and declarators looked for, where a constructor of a template is not. -/
def featureAsks (T : Deftype) (pre : Option (List Byte)) (name decl : List Byte) : List (List Byte × Option (List Byte)) :=
  let asks (name : List Byte) := ([], none) :: (featureNames pre name).map fun tname => (tname, some decl)
  asks name ++ if istemplate name ∧ T.deftype name ≠ name then asks (T.deftype name) else []

/-- What is merged into a node for some names and declarators. -/
def mergeAsks (features : Features) (asks : List (List Byte × Option (List Byte))) (node : Attrs) : Attrs :=
  asks.foldl (fun node ask => featuresGetAt features ask.1 ask.2 node) node

theorem featuresGet_eq (hroot : istemplate name = true →
      nodetype ≠ some (lit "constructor") ∧ nodetype ≠ some (lit "destructor")) {n : ℕ} (hn : 2 ≤ n) :
    featuresGet T features pre nodetype n (some name) (some decl) node =
      some (mergeAsks features (featureAsks T pre name decl) node) := by
  have hconstructor {nm : List Byte} (h : istemplate nm = true →
      nodetype ≠ some (lit "constructor") ∧ nodetype ≠ some (lit "destructor")) :
      templateConstructor nm (some decl) nodetype = (nm, some decl) := by
    rw [templateConstructor, if_neg]
    rintro ⟨htemplate, hnode | hnode⟩
    · exact (h htemplate).1 hnode
    · exact (h htemplate).2 hnode
  obtain ⟨n, rfl⟩ := Nat.exists_eq_add_of_le' hn
  rw [featuresGet, hconstructor hroot]
  dsimp only
  by_cases hdef : istemplate name ∧ T.deftype name ≠ name
  · have hstop : ¬ (istemplate (T.deftype name) ∧ T.deftype (T.deftype name) ≠ T.deftype name) := fun h =>
      h.2 (T.deftype_deftype name)
    rw [if_pos hdef, featuresGet, hconstructor fun _ => hroot hdef.1]
    dsimp only
    rw [if_neg hstop, mergeAsks, featureAsks, if_pos hdef, List.foldl_append, List.foldl_cons, List.foldl_map,
      List.foldl_cons, List.foldl_map]
  · rw [if_neg hdef, mergeAsks, featureAsks, if_neg hdef, List.append_nil, List.foldl_cons, List.foldl_map]

/-- An attribute that some name has, and no name has otherwise, is merged. -/
theorem mergeAsks_eq_some {asks : List (List Byte × Option (List Byte))} {v : List Byte}
    (hall : ∀ a ∈ asks, lookFeature features a.1 a.2 fname = none ∨ lookFeature features a.1 a.2 fname = some v)
    (hex : ∃ a ∈ asks, lookFeature features a.1 a.2 fname = some v) : mergeAsks features asks node fname = some v := by
  induction asks using List.reverseRecOn with
  | nil =>
      obtain ⟨a, ha, -⟩ := hex
      cases ha
  | append_singleton asks b ih =>
      rw [mergeAsks, List.foldl_append, List.foldl_cons, List.foldl_nil, featuresGetAt_eq]
      obtain hnone | hsome := hall b (by simp)
      · rw [hnone, Option.none_or]
        refine ih (fun a ha => hall a (List.mem_append_left _ ha)) ?_
        obtain ⟨a, ha, hv⟩ := hex
        obtain ha | rfl := (List.mem_append.mp ha).imp_right List.mem_singleton.mp
        · exact ⟨a, ha, hv⟩
        · rw [hnone] at hv
          cases hv
      · rw [hsome, Option.some_or]

theorem mergeAsks_congr {features' : Features} {asks : List (List Byte × Option (List Byte))}
    (h : ∀ a ∈ asks, lookFeature features' a.1 a.2 = lookFeature features a.1 a.2) :
    mergeAsks features' asks node = mergeAsks features asks node := by
  induction asks using List.reverseRecOn with
  | nil => rfl
  | append_singleton asks b ih =>
      funext k
      rw [mergeAsks, mergeAsks, List.foldl_append, List.foldl_append, List.foldl_cons, List.foldl_nil, List.foldl_cons,
        List.foldl_nil, featuresGetAt_eq, featuresGetAt_eq, h b (by simp)]
      exact congrArg _ (congrFun (ih fun a ha => h a (List.mem_append_left _ ha)) k)

/-! ### Features for one declarator -/

variable {val : Option (List Byte)} {featureattribs : List FeatureAttrib}

/-- The attributes of a feature have longer names. -/
theorem setAttribs_self (fhash : Attrs) : setAttribs fname val featureattribs fhash fname = fhash fname := by
  rw [setAttribs]
  induction featureattribs generalizing fhash with
  | nil => rfl
  | cons attrib featureattribs ih =>
      have hne : fname ≠ fname ++ lit ":" ++ attrib.name := fun h => by
        have hlen := congrArg List.length h
        simp [lit] at hlen
      rw [List.foldl_cons, ih, Function.update_of_ne hne]

theorem lookFeature_setAt_self (v : List Byte) :
    lookFeature (featureSetAt features name (some decl) fname (some v) featureattribs) name (some decl) fname =
      some v := by
  simp [lookFeature, featureSetAt, setAttribs_self]

theorem lookFeature_setAt_name (h : tname ≠ name) (d : Option (List Byte)) :
    lookFeature (featureSetAt features name (some decl) fname val featureattribs) tname d =
      lookFeature features tname d := by
  funext k
  simp [lookFeature, featureSetAt, Function.update_of_ne h]

/-- A feature for one declarator does not show for another one. -/
theorem lookFeature_setAt_decl (hdecl : lit "start" ≠ decl) {d : Option (List Byte)} (h : d ≠ some decl) (tname : List Byte) :
    lookFeature (featureSetAt features name (some decl) fname val featureattribs) tname d =
      lookFeature features tname d := by
  rcases eq_or_ne tname name with rfl | hname
  · have hkey : d.getD (lit "start") ≠ decl := by
      cases d with
      | none => exact hdecl
      | some d => exact fun heq => h (congrArg some heq)
    funext k
    cases hn : features tname <;>
      simp [lookFeature, featureSetAt, hn, Function.update_of_ne hkey, Function.update_of_ne hdecl]
  · exact lookFeature_setAt_name hname d

theorem lookFeature_set_self (v : List Byte) (htname : tname ∈ featureSetNames T name) :
    lookFeature (featureSet T features name (some decl) fname (some v) featureattribs) tname (some decl) fname =
      some v := by
  rw [featureSet]
  generalize featureSetNames T name = names at htname ⊢
  induction names using List.reverseRecOn with
  | nil => cases htname
  | append_singleton names n ih =>
      rw [List.foldl_append, List.foldl_cons, List.foldl_nil]
      rcases eq_or_ne tname n with rfl | hne
      · exact lookFeature_setAt_self v
      · rw [lookFeature_setAt_name hne]
        exact ih (by simpa [hne] using htname)

theorem lookFeature_set_name (h : tname ∉ featureSetNames T name) (d : Option (List Byte)) :
    lookFeature (featureSet T features name (some decl) fname val featureattribs) tname d =
      lookFeature features tname d := by
  rw [featureSet]
  generalize featureSetNames T name = names at h ⊢
  induction names using List.reverseRecOn with
  | nil => rfl
  | append_singleton names n ih =>
      obtain ⟨hnames, hn⟩ : tname ∉ names ∧ tname ≠ n := by simpa using h
      rw [List.foldl_append, List.foldl_cons, List.foldl_nil, lookFeature_setAt_name hn]
      exact ih hnames

theorem lookFeature_set_decl (hdecl : lit "start" ≠ decl) {d : Option (List Byte)} (h : d ≠ some decl) (tname : List Byte) :
    lookFeature (featureSet T features name (some decl) fname val featureattribs) tname d =
      lookFeature features tname d := by
  rw [featureSet]
  induction featureSetNames T name using List.reverseRecOn with
  | nil => rfl
  | append_singleton names n ih =>
      rw [List.foldl_append, List.foldl_cons, List.foldl_nil, lookFeature_setAt_decl hdecl h, ih]

/-! ### Features for several declarators -/

section Declarators

variable {ds : List (List Byte)}

/-- The features after one of them was set for some declarators. -/
def featureSetAll (T : Deftype) (features : Features) (name : List Byte) (ds : List (List Byte)) (fname : List Byte)
    (val : Option (List Byte)) (featureattribs : List FeatureAttrib) : Features :=
  ds.foldl (fun features d => featureSet T features name (some d) fname val featureattribs) features

theorem lookFeature_setAll_mem (hstart : ∀ d ∈ ds, lit "start" ≠ d) (v : List Byte)
    (htname : tname ∈ featureSetNames T name) (hd : d ∈ ds) :
    lookFeature (featureSetAll T features name ds fname (some v) featureattribs) tname (some d) fname = some v := by
  induction ds using List.reverseRecOn with
  | nil => cases hd
  | append_singleton ds e ih =>
      rw [featureSetAll, List.foldl_append, List.foldl_cons, List.foldl_nil]
      rcases eq_or_ne d e with rfl | hne
      · exact lookFeature_set_self v htname
      · rw [lookFeature_set_decl (hstart e (by simp)) (fun h => hne (Option.some.inj h))]
        exact ih (fun d hd => hstart d (by simp [hd])) (by simpa [hne] using hd)

theorem lookFeature_setAll_name (h : tname ∉ featureSetNames T name) (d : Option (List Byte)) :
    lookFeature (featureSetAll T features name ds fname val featureattribs) tname d = lookFeature features tname d := by
  induction ds using List.reverseRecOn with
  | nil => rfl
  | append_singleton ds e ih =>
      rw [featureSetAll, List.foldl_append, List.foldl_cons, List.foldl_nil, lookFeature_set_name h]
      exact ih

theorem lookFeature_setAll_notMem (hstart : ∀ d ∈ ds, lit "start" ≠ d) {d : Option (List Byte)}
    (hd : ∀ e ∈ ds, d ≠ some e) (tname : List Byte) :
    lookFeature (featureSetAll T features name ds fname val featureattribs) tname d = lookFeature features tname d := by
  induction ds using List.reverseRecOn with
  | nil => rfl
  | append_singleton ds e ih =>
      rw [featureSetAll, List.foldl_append, List.foldl_cons, List.foldl_nil,
        lookFeature_set_decl (hstart e (by simp)) (hd e (by simp))]
      exact ih (fun d hd => hstart d (by simp [hd])) fun e he => hd e (by simp [he])

/-- The feature `fname` is for the name `name` in `pre`: the name it is kept under is looked
for, and no other name that is looked for has such a feature for the declarators. -/
def FeatureFor (T : Deftype) (features : Features) (stored : List Byte) (pre : Option (List Byte)) (name fname : List Byte)
    (ds : List (List Byte)) : Prop :=
  stored ∈ featureNames pre name ∧ ([] : List Byte) ∉ featureSetNames T stored ∧
    ∀ d ∈ ds, ∀ a ∈ featureAsks T pre name d, a.1 ∉ featureSetNames T stored →
      lookFeature features a.1 a.2 fname = none

theorem mem_featureAsks {a : List Byte × Option (List Byte)} (h : a ∈ featureAsks T pre name d) :
    a = ([], none) ∨ a.2 = some d := by
  have hasks {nm : List Byte} (h : a ∈ ([], none) :: (featureNames pre nm).map fun tname => (tname, some d)) :
      a = ([], none) ∨ a.2 = some d := by
    obtain rfl | h := List.mem_cons.mp h
    · exact .inl rfl
    · obtain ⟨tname, -, rfl⟩ := List.mem_map.mp h
      exact .inr rfl
  rw [featureAsks] at h
  obtain h | h := List.mem_append.mp h
  · exact hasks h
  · split at h
    · exact hasks h
    · cases h

/-- The feature is merged into a node with one of the declarators. -/
theorem mergeAsks_found {stored v : List Byte} (hstart : ∀ d ∈ ds, lit "start" ≠ d)
    (hfor : FeatureFor T features stored pre name fname ds) (hd : d ∈ ds) :
    mergeAsks (featureSetAll T features stored ds fname (some v) featureattribs) (featureAsks T pre name d) node fname =
      some v := by
  obtain ⟨hmem, hempty, hothers⟩ := hfor
  refine mergeAsks_eq_some (fun a ha => ?_) ⟨(stored, some d), ?_, ?_⟩
  · by_cases hstored : a.1 ∈ featureSetNames T stored
    · obtain rfl | hdecl := mem_featureAsks ha
      · exact absurd hstored hempty
      · rw [hdecl]
        exact .inr (lookFeature_setAll_mem hstart v hstored hd)
    · rw [lookFeature_setAll_name hstored]
      exact .inl (hothers d hd a ha hstored)
  · exact List.mem_append_left _ (List.mem_cons_of_mem _ (List.mem_map_of_mem hmem))
  · exact lookFeature_setAll_mem hstart v List.mem_cons_self hd

/-- Nothing changes for a node with another declarator. -/
theorem mergeAsks_other {stored : List Byte} (hstart : ∀ d ∈ ds, lit "start" ≠ d) (hd : d ∉ ds) :
    mergeAsks (featureSetAll T features stored ds fname val featureattribs) (featureAsks T pre name d) node =
      mergeAsks features (featureAsks T pre name d) node := by
  refine mergeAsks_congr fun a ha => lookFeature_setAll_notMem hstart (fun e he => ?_) a.1
  obtain rfl | hdecl := mem_featureAsks ha
  · exact Option.some_ne_none e |>.symm
  · rw [hdecl]
    exact fun h => hd (Option.some.inj h ▸ he)

end Declarators

end Swig.Naming
