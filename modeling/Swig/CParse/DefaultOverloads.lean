import Swig.CParse.DefaultArguments
import Swig.Lib.Fuel

/-!
Three pieces of code shorten the declarator of a function with default arguments: one for
its overloads, one for its rename rules and one for its features. Rules and features
are found for the overloads where the three texts agree.
-/

namespace Swig.CParse

open ByteBlock Swig.SType Swig.Naming Fuel

/-- A function of C++ as it is declared: an ellipsis is the last parameter, `void` is the
only one, and a name with template arguments is not that of a constructor or destructor. -/
structure Declared (P : FunctionParser) where
  D : DefaultParms
  const : Bool
  rest : SwigType
  function : FunctionNode
  name : List Byte
  rest_head : rest.head? ≠ some (chr '.')
  parms_eq : function.parms = D.parms
  decl_eq : function.decl = declarator const rest (types D.parms)
  ellipsis_last : ∀ p ∈ D.parms.dropLast ++ D.defaulted, p.type ≠ lit "v(...)"
  void_alone : VoidAlone P.isVoid D.parms
  not_template : Typesys.istemplate name = true →
    function.nodeType ≠ lit "constructor" ∧ function.nodeType ≠ lit "destructor"

namespace Declared

variable {P : FunctionParser} (C : Declared P)

/-- The number of default arguments. -/
def m : ℕ := C.D.defaulted.length

/-- The declarators of the function and its overloads, as rules and features are kept by them. -/
def keys : List SwigType := C.D.keys C.const

/-- `default_arguments` adds the functions without the last `1..m` parameters, each with the
declarator for its parameters and the qualifier of the function. -/
def AddsOverloads : Prop :=
  ∃ n gs, P.defaultArguments C.function = some (n, gs) ∧
    gs.map (fun g => (g.decl, g.parms)) = C.D.overloads.map fun ps => (declarator C.const C.rest (types ps), ps)

/-- A parameter list of neither the function nor an overload. -/
def Other (ts : List SwigType) : Prop := (∀ t ∈ ts, IsType t) ∧ ∀ i ≤ C.m, ts ≠ types (C.D.dropped i)

theorem keys_of_other {ts : List SwigType} (h : C.Other ts) (const : Bool) : declarator const [] ts ∉ C.keys := by
  intro hmem
  obtain ⟨i, hi, hkey⟩ := C.D.mem_keys.mp hmem
  exact h.2 i hi (declarator_injective h.1 (C.D.isType_dropped i) hkey)

/-- The parameters have a default argument behind a list of `%varargs` only where they had
one before. -/
def VarargsRequired : Prop := hasDefaultargs C.function.allParms = true → 0 < C.m

theorem replaceVarargs_eq {ps varargs : List Naming.Parm} (h : ∀ p ∈ ps, p.type ≠ lit "v(...)") :
    replaceVarargs varargs ps = ps := by
  induction ps with
  | nil => rfl
  | cons p ps ih => rw [replaceVarargs, if_neg (h p List.mem_cons_self), ih fun q hq => h q (List.mem_cons_of_mem _ hq)]

/-- A list with default arguments has no ellipsis. -/
theorem allParms_eq (h : 0 < C.m) : C.function.allParms = C.D.parms := by
  have hnone : ∀ p ∈ C.D.parms, p.type ≠ lit "v(...)" := by
    intro p hp
    refine C.ellipsis_last p ?_
    obtain hplain | hdefaulted := List.mem_append.mp hp
    · refine List.mem_append_left _ ?_
      rw [DefaultParms.parms, List.dropLast_append_of_ne_nil (List.ne_nil_of_length_pos h)]
      exact List.mem_append_left _ hplain
    · exact List.mem_append_right _ hdefaulted
  rw [FunctionNode.allParms, C.parms_eq]
  cases C.function.features.varargs with
  | none => rfl
  | some varargs => exact replaceVarargs_eq hnone

theorem overloads_eq_nil (h : C.m = 0) : C.D.overloads = [] := by
  rw [DefaultParms.overloads, show C.D.defaulted.length = 0 from h]
  rfl

theorem addsOverloads_of_not_splits (hs : P.splits C.function = false) : C.AddsOverloads ↔ C.m = 0 := by
  have hrun : ∃ n, P.defaultArguments C.function = some (n, []) := by
    rw [FunctionParser.defaultArguments]
    exact ⟨_, if_neg fun h => by cases hs.symm.trans h⟩
  obtain ⟨n, hn⟩ := hrun
  constructor
  · rintro ⟨n', gs, hgs, hmap⟩
    cases hn.symm.trans hgs
    have hlen := congrArg List.length hmap
    simpa [DefaultParms.overloads, withoutLast, eq_comm, m] using hlen
  · intro hm
    exact ⟨n, [], hn, by rw [C.overloads_eq_nil hm]; rfl⟩

theorem defaultArguments_of_splits (hs : P.splits C.function = true) :
    P.defaultArguments C.function =
      (P.overloadLoop C.function.allParms.length C.function.withVarargs).map (C.function.withVarargs, ·) := by
  rw [FunctionParser.defaultArguments]
  exact if_pos hs

theorem addsOverloads_of_splits (hs : P.splits C.function = true) : C.AddsOverloads ↔ C.VarargsRequired := by
  rcases Nat.eq_zero_or_pos C.m with hm | hm
  · rw [AddsOverloads, defaultArguments_of_splits C hs, C.overloads_eq_nil hm, VarargsRequired, hm]
    cases hhas : hasDefaultargs C.function.allParms with
    | false =>
        have hloop : P.overloadLoop C.function.allParms.length C.function.withVarargs = some [] := overloadLoop_plain hhas _
        rw [hloop]
        simp
    | true =>
        have hne := @overloadLoop_ne_nil P C.function.withVarargs hhas
        refine ⟨fun ⟨n, gs, hgs, hmap⟩ => ?_, fun h => absurd (h rfl) (lt_irrefl 0)⟩
        obtain ⟨gs', hloop, hpair⟩ := Option.map_eq_some_iff.mp hgs
        cases hpair
        rw [List.map_nil, List.map_eq_nil_iff] at hmap
        subst hmap
        exact absurd hloop hne
  · refine ⟨fun _ _ => hm, fun _ => ?_⟩
    have hparms : C.function.withVarargs.parms = C.D.plain ++ C.D.defaulted := C.allParms_eq hm
    obtain ⟨gs, hloop, hmap⟩ := overloadLoop_append C.D.plain_value C.D.defaulted_value C.D.isType C.void_alone
      C.rest_head hparms C.decl_eq
    refine ⟨C.function.withVarargs, gs, ?_, hmap⟩
    rw [defaultArguments_of_splits C hs, C.allParms_eq hm, DefaultParms.parms, hloop]
    rfl

/-- The overloads are added exactly when `default_arguments` splits functions, or there are
none to add. -/
theorem addsOverloads_iff :
    C.AddsOverloads ↔ (C.m = 0 ∨ P.splits C.function = true) ∧ (P.splits C.function = true → C.VarargsRequired) := by
  cases hs : P.splits C.function with
  | false => simp [C.addsOverloads_of_not_splits hs]
  | true => simp [C.addsOverloads_of_splits hs]

/-! ### Rename rules -/

/-- A rename rule given for the declarator, which is for the name of the function in `pre`. -/
structure RenameRule where
  x : Texts
  st : Rules
  id : ℕ
  rpre : Option (List Byte)
  rname : List Byte
  pre : Option (List Byte)
  node : List Byte → Option Obj
  fresh : Fresh st id
  ruleFor : RuleFor x st id rpre rname pre C.name C.keys node

/-- The rule goes to the list of rules. -/
def RenameRule.listed {C : Declared P} (R : C.RenameRule) : Bool :=
  isListRule R.x R.rpre R.rname (attachKeys renameKeys (R.st.obj R.id))

/-- The rule is found for the function and for its overloads, and not for a function of
other parameters: there everything is as it was before. -/
def RenameFound (R : C.RenameRule) : Prop :=
  ∃ st, renameAdd R.x P.names R.st R.rpre R.rname (some (C.D.key C.const 0)) R.id C.D.parms = some st ∧
    (∀ d ∈ C.keys, Found R.x st (R.node d) R.pre C.name d R.id) ∧
    ∀ ts, C.Other ts → ∀ const n,
      objectGet st.hash R.pre C.name (some (declarator const [] ts)) =
          objectGet R.st.hash R.pre C.name (some (declarator const [] ts)) ∧
        nameobjLget R.x st n R.pre C.name (some (declarator const [] ts)) =
          nameobjLget R.x R.st n R.pre C.name (some (declarator const [] ts))

theorem renameFound_iff (R : C.RenameRule) : C.RenameFound R ↔ C.m = 0 ∨ R.listed = false := by
  have hadd : renameAdd R.x P.names R.st R.rpre R.rname (some (C.D.key C.const 0)) R.id C.D.parms =
      some (renamed R.x R.st R.rpre R.rname R.id C.D C.const) := renameAdd_eq
  have hiff := found_iff R.fresh R.ruleFor
  rw [or_comm]
  constructor
  · rintro ⟨st, hst, hfound, -⟩
    cases hadd.symm.trans hst
    exact hiff.mp hfound
  · intro h
    exact ⟨_, hadd, hiff.mpr h, fun ts hts const n => renamed_other R.fresh (C.keys_of_other hts const) n⟩

/-! ### Features -/

/-- A feature given for the declarator, which is for the name of the function in `pre`. -/
structure Feature where
  F : FeatureParser
  features : Features
  featurename : List Byte
  val : List Byte
  featureattribs : List FeatureAttrib
  declaratorid : Option (List Byte)
  pre : Option (List Byte)
  featureFor : FeatureFor F.T features (F.storedName declaratorid C.rest) pre C.name (lit "feature:" ++ featurename) C.keys

/-- The value of a feature, without the braces of a block that is not wanted. -/
def Feature.value {C : Declared P} (S : C.Feature) : List Byte := (removeBlock S.featureattribs (some S.val)).getD S.val

/-- `Swig_features_get` for the function with a declarator. -/
def Feature.get {C : Declared P} (S : C.Feature) (features : Features) (d : List Byte) (node : Attrs) (fuel : ℕ) :
    Option Attrs :=
  featuresGet S.F.T features S.pre (some C.function.nodeType) fuel (some C.name) (some d) node

/-- The feature is found for the function and for its overloads, and not for a function of
other parameters: a node of that gets what it got before. -/
def FeatureFound (S : C.Feature) : Prop :=
  ∃ features, S.F.newFeature S.features S.featurename (some S.val) S.featureattribs S.declaratorid
      (some (addFunction C.rest (types C.D.parms))) C.D.parms (constQualifier C.const) = some features ∧
    (∀ d ∈ C.keys, ∀ node, ∃ node', Returns (S.get features d node) node' ∧
      node' (lit "feature:" ++ S.featurename) = some S.value) ∧
    ∀ ts, C.Other ts → ∀ const node, ∃ node',
      Returns (S.get features (declarator const [] ts) node) node' ∧
        Returns (S.get S.features (declarator const [] ts) node) node'

theorem returns_get (S : C.Feature) (features : Features) (d : List Byte) (node : Attrs) :
    Returns (S.get features d node) (mergeAsks features (featureAsks S.F.T S.pre C.name d) node) := by
  refine ⟨2, fun n hn => featuresGet_eq (fun h => ?_) hn⟩
  obtain ⟨hconstructor, hdestructor⟩ := C.not_template h
  exact ⟨fun heq => hconstructor (Option.some.inj heq), fun heq => hdestructor (Option.some.inj heq)⟩

theorem featureFound (S : C.Feature) : C.FeatureFound S := by
  have hvalue : (removeBlock S.featureattribs (some S.val)).or (some S.val) = some S.value := by
    rw [Feature.value]
    cases removeBlock S.featureattribs (some S.val) <;> rfl
  refine ⟨_, newFeature_eq C.rest_head, fun d hd node => ⟨_, C.returns_get S _ d node, ?_⟩, fun ts hts const node => ?_⟩
  · rw [hvalue]
    exact mergeAsks_found keys_ne_start S.featureFor hd
  · refine ⟨_, C.returns_get S _ _ node, ?_⟩
    rw [mergeAsks_other keys_ne_start (C.keys_of_other hts const)]
    exact C.returns_get S S.features _ node

/-! ### All three -/

/-- The overloads are added with their declarators, and the rule and the feature follow them. -/
structure Follows (R : C.RenameRule) (S : C.Feature) : Prop where
  overloads : C.AddsOverloads
  rename : C.RenameFound R
  feature : C.FeatureFound S

/-- Rules and features follow the overloads exactly where there are no default arguments, or
functions are split and the rule goes to the hash. -/
theorem follows_iff (R : C.RenameRule) (S : C.Feature) :
    C.Follows R S ↔ (C.m = 0 ∨ P.splits C.function = true ∧ R.listed = false) ∧
      (P.splits C.function = true → C.VarargsRequired) := by
  have hstructure : C.Follows R S ↔ C.AddsOverloads ∧ C.RenameFound R :=
    ⟨fun h => ⟨h.overloads, h.rename⟩, fun h => ⟨h.1, h.2, C.featureFound S⟩⟩
  rw [hstructure, C.addsOverloads_iff, C.renameFound_iff, or_and_left, and_right_comm]

end Declared

/-! ### A method with a default argument -/

/-- The parser at a class, with its flags as they are by default. -/
def methodParser : FunctionParser where
  names := ⟨fun _ => false, fun _ => rfl⟩
  compact_default_args := false
  cparse_cplusplus := true
  cparse_externc := false
  inclass := true
  isVoid t := t == lit "void"
  symbols n := (n.name, n.features)

/-- The parameter of `f(int a = 1)`. -/
def methodParms : DefaultParms where
  plain := []
  defaulted := [⟨lit "int", some (lit "a"), some (lit "1"), false⟩]
  isType p hp := by
    obtain rfl : p = ⟨lit "int", some (lit "a"), some (lit "1"), false⟩ := by simpa using hp
    exact ⟨by decide, by decide⟩
  plain_value p hp := by cases hp
  defaulted_value p hp := by
    obtain rfl : p = ⟨lit "int", some (lit "a"), some (lit "1"), false⟩ := by simpa using hp
    decide

/-- `void f(int a = 1) const;` in a class `A`. -/
def method : Declared methodParser where
  D := methodParms
  const := true
  rest := []
  function :=
    { nodeType := lit "cdecl"
      name := some (lit "f")
      code := none
      decl := lit "q(const).f(int)."
      parms := methodParms.parms
      storage := none
      value := none
      type := some (lit "void")
      throw := none
      throws := []
      templatetype := none
      symTypename := none
      templateparms := []
      features := ⟨none, none, none, none⟩
      defaultargs := false }
  name := lit "f"
  rest_head := by decide
  parms_eq := rfl
  decl_eq := by decide
  ellipsis_last := by decide
  void_alone := by
    intro p hp hvoid
    decide
  not_template h := by cases h

/-- No text is formatted and no regular expression is compiled. -/
def plainTexts : Texts where
  newStringf fmt _ := fmt
  rxsmatchValue _ _ := false

/-- A rule `%rename(..) A::f(int a = 1) const` with some options, and no other rule. -/
def optionRules (kws : List Kw) : Rules where
  obj _ := ⟨fun _ => none, none, kws⟩
  hash _ := none
  list := []

theorem fresh_optionRules (kws : List Kw) : Fresh (optionRules kws) 0 where
  hash tname d h := by cases h
  list h := by cases h

/-- A rule without options. -/
def plainRule : method.RenameRule where
  x := plainTexts
  st := optionRules []
  id := 0
  rpre := some (lit "A")
  rname := lit "f"
  pre := some (lit "A")
  node _ := none
  fresh := fresh_optionRules []
  ruleFor := ⟨by decide, fun _ _ _ _ _ => rfl⟩

/-- A rule with the option `fullname`. -/
def fullnameRule : method.RenameRule where
  x := plainTexts
  st := optionRules [⟨some (lit "fullname"), some (lit "1")⟩]
  id := 0
  rpre := some (lit "A")
  rname := lit "f"
  pre := some (lit "A")
  node _ := none
  fresh := fresh_optionRules _
  ruleFor _ _ := rfl

/-- The feature `%feature("new", "1") f(int a = 1) const` in `A`. -/
def newFeatureOfMethod : method.Feature where
  F := ⟨⟨id, fun _ => rfl⟩, id, some (lit "A")⟩
  features _ := none
  featurename := lit "new"
  val := lit "1"
  featureattribs := []
  declaratorid := some (lit "f")
  pre := some (lit "A")
  featureFor := ⟨by decide, by decide, fun _ _ _ _ _ => rfl⟩

/-- Without options the rule is found for `f(int) const` and for `f() const`. -/
theorem plainRule_follows : method.Follows plainRule newFeatureOfMethod :=
  (method.follows_iff plainRule newFeatureOfMethod).mpr ⟨.inr ⟨by decide +kernel, by decide +kernel⟩, fun _ _ => by decide⟩

/-- With the option `fullname` it is not found for `f(int) const`: the rule has the declarator
of `f() const`. -/
theorem fullnameRule_not_follows : ¬ method.Follows fullnameRule newFeatureOfMethod := by
  intro h
  obtain hm | hlisted := (method.renameFound_iff fullnameRule).mp h.rename
  · exact absurd hm (by decide +kernel)
  · exact absurd hlisted (by decide +kernel)

end Swig.CParse
