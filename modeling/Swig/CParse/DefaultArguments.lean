import Swig.Naming.RenameAdd
import Swig.Naming.Features
import Mathlib.Data.List.DropRight

/-!
Functions with default arguments in the parser: the overloads `default_arguments` adds
for them, and the features `new_feature` sets for the overloads.
-/

namespace Swig.CParse

open ByteBlock Swig.SType Swig.Naming Swig.DOH

/-! ### Features -/

/-- What `new_feature` reads of the parser. `templateIdentifier` is `feature_identifier_fix`
for a template-id. -/
structure FeatureParser where
  T : Deftype
  templateIdentifier : List Byte → List Byte
  Namespaceprefix : Option (List Byte)

/-- `feature_identifier_fix`. -/
def FeatureParser.featureIdentifierFix (P : FeatureParser) (s : List Byte) : List Byte :=
  if Typesys.istemplate s then P.templateIdentifier s else s

/-- `remove_block`; `none` is a null pointer. -/
def removeBlock (kw : List FeatureAttrib) (inputcode : Option (List Byte)) : Option (List Byte) :=
  if kw.any fun kw => kw.name = lit "noblock" then
    match inputcode with
    | none | some [] => none
    | some (c :: cs) =>
        if c = chr '\x7b' then
          let cs := if cs.getLast? = some (chr '\x7d') then cs.dropLast else cs
          some ((cs.dropWhile isspace).rdropWhile isspace)
        else none
  else none

/-- The name a feature is set for. -/
def FeatureParser.featureName (P : FeatureParser) (declaratorid : Option (List Byte)) : List Byte :=
  let fixname := declaratorid.elim [] P.featureIdentifierFix
  P.Namespaceprefix.elim fixname fun ns => ns ++ lit "::" ++ fixname

/-- `single_new_feature`. The parameters of the declarator are only kept with the value. -/
def FeatureParser.singleNewFeature (P : FeatureParser) (features : Features) (featurename : List Byte)
    (val : Option (List Byte)) (featureattribs : List FeatureAttrib) (declaratorid : Option (List Byte))
    (type : Option SwigType) (qualifier : Option (List Byte)) : Option Features :=
  let fname := lit "feature:" ++ featurename
  let name := P.featureName declaratorid
  match type with
  | none | some [] => some (featureSet P.T features name none fname val featureattribs)
  | some t =>
      let t := qualifier.elim t (push t)
      if isfunction t then
        (popFunction t).map fun f =>
          featureSet P.T features (if ispointer f.2 then lit "*" ++ name else name) (some f.1) fname val featureattribs
      else if ispointer t then some (featureSet P.T features (lit "*" ++ name) none fname val featureattribs)
      else some features

/-- `new_feature`. -/
def FeatureParser.newFeature (P : FeatureParser) (features : Features) (featurename : List Byte)
    (val : Option (List Byte)) (featureattribs : List FeatureAttrib) (declaratorid : Option (List Byte))
    (type : Option SwigType) (declaratorparms : List Naming.Parm) (qualifier : Option (List Byte)) : Option Features :=
  let val := (removeBlock featureattribs val).or val
  (P.singleNewFeature features featurename val featureattribs declaratorid type qualifier).bind fun features =>
    match type with
    | none => some features
    | some type =>
        shortenLoop (fun newparms features =>
          (popFunction type).bind fun f =>
            let newtype := addFunction f.2 (types newparms)
            P.singleNewFeature features featurename val featureattribs declaratorid (some newtype) qualifier)
          declaratorparms.length declaratorparms features

/-! ### Overloads -/

/-- The features of a function that `default_arguments` reads. -/
structure NodeFeatures where
  varargs : Option (List Naming.Parm)
  compactdefaultargs : Option (List Byte)
  kwargs : Option (List Byte)
  new : Option (List Byte)

/-- A function, with the attributes that its overloads share or that decide on them. -/
structure FunctionNode where
  nodeType : List Byte
  name : Option (List Byte)
  code : Option (List Byte)
  decl : SwigType
  parms : List Naming.Parm
  storage : Option (List Byte)
  value : Option (List Byte)
  type : Option (List Byte)
  throw : Option (List Byte)
  throws : List Naming.Parm
  templatetype : Option (List Byte)
  symTypename : Option (List Byte)
  templateparms : List Naming.Parm
  features : NodeFeatures
  defaultargs : Bool

/-- What `default_arguments` reads of the parser: its flags, whether a type is `T_VOID`, and
the name and the features `add_symbols` gives a function. -/
structure FunctionParser where
  names : ConstNames
  compact_default_args : Bool
  cparse_cplusplus : Bool
  cparse_externc : Bool
  inclass : Bool
  isVoid : SwigType → Bool
  symbols : FunctionNode → Option (List Byte) × NodeFeatures

/-- `GetFlag`, given the attribute. -/
def flag (val : Option (List Byte)) : Bool := val.any (· != lit "0")

/-- `cparse_normalize_void`. -/
def FunctionParser.normalizeVoid (P : FunctionParser) (n : FunctionNode) : FunctionNode :=
  if isfunction n.decl ∧ n.parms.length = 1 ∧ n.parms.all fun p => P.isVoid p.type then
    { n with decl := replaceall (lit "f(void).") (lit "f().") 0 n.decl, parms := [] }
  else n

/-- `add_symbols`, in what `default_arguments` reads of it. -/
def FunctionParser.addSymbols (P : FunctionParser) (n : FunctionNode) : FunctionNode :=
  let n := if P.inclass then P.normalizeVoid n else n
  { n with name := (P.symbols n).1, features := (P.symbols n).2 }

/-- `is_cfunction`. -/
def FunctionParser.isCfunction (P : FunctionParser) (n : FunctionNode) : Bool :=
  !P.cparse_cplusplus || P.cparse_externc || n.storage == some (lit "externc")

/-- The parameters with the list of a `%varargs` directive for the ellipsis. -/
def replaceVarargs (varargs : List Naming.Parm) : List Naming.Parm → List Naming.Parm
  | [] => []
  | p :: ps => if p.type = lit "v(...)" then varargs else p :: replaceVarargs varargs ps

/-- The function `default_arguments` makes for a shorter list of parameters. -/
def FunctionParser.newFunction (P : FunctionParser) (function : FunctionNode) (newparms : List Naming.Parm) :
    Option FunctionNode :=
  let constqualifier := isconst P.names.const function.decl
  (popFunction function.decl).bind fun f =>
    let decl := addFunction f.2 (types newparms)
    (if constqualifier then addQualifier decl (lit "const") else some decl).map fun decl =>
      let template := function.nodeType == lit "template"
      let new_function : FunctionNode :=
        { nodeType := function.nodeType
          name := function.name
          code := function.code
          decl := decl
          parms := newparms
          storage := function.storage
          value := function.value
          type := function.type
          throw := function.throw
          throws := function.throws
          templatetype := if template then function.templatetype else none
          symTypename := if template then function.symTypename else none
          templateparms := if template then function.templateparms else []
          features :=
            { varargs := none
              compactdefaultargs := none
              kwargs := none
              new := if function.nodeType == lit "constructor" && flag function.features.new then some (lit "1") else none }
          defaultargs := false }
      { P.addSymbols new_function with defaultargs := true }

/-- The loop of `default_arguments` over a function of `len` parameters and its overloads. -/
def FunctionParser.overloadLoop (P : FunctionParser) : (len : ℕ) → FunctionNode → Option (List FunctionNode)
  | 0, _ => some []
  | len + 1, function =>
      if hasDefaultargs function.parms then
        (P.newFunction function (copyParmListMax function.parms len)).bind fun new_function =>
          (P.overloadLoop len new_function).map (new_function :: ·)
      else some []

/-- Overloads are added for this function. -/
def FunctionParser.splits (P : FunctionParser) (n : FunctionNode) : Bool :=
  !(P.compact_default_args || P.isCfunction n || flag n.features.compactdefaultargs || flag n.features.kwargs)

/-- The parameters of a function after the list of `%varargs` was put in. -/
def FunctionNode.allParms (n : FunctionNode) : List Naming.Parm :=
  n.features.varargs.elim n.parms fun varargs => replaceVarargs varargs n.parms

/-- The function with these parameters. -/
def FunctionNode.withVarargs (n : FunctionNode) : FunctionNode := { n with parms := n.allParms }

/-- `default_arguments`: the function and the overloads that follow it. -/
def FunctionParser.defaultArguments (P : FunctionParser) (n : FunctionNode) :
    Option (FunctionNode × List FunctionNode) :=
  let n := n.withVarargs
  if P.splits n then (P.overloadLoop n.parms.length n).map (n, ·)
  else
    -- the first parameter is marked for the wrapper of all its overloads
    some ({ n with parms := n.parms.modifyHead fun p => { p with compactdefargs := true } }, [])

/-! ### What the loop adds -/

variable {P : FunctionParser} {function : FunctionNode} {const : Bool} {rest : SwigType} {ps qs : List Naming.Parm}

/-- A function of C++ is not of a single parameter `void`, unless that is all it has. -/
def VoidAlone (isVoid : SwigType → Bool) (ps : List Naming.Parm) : Prop :=
  ∀ p ∈ ps, isVoid p.type = true → ps.length ≤ 1

theorem VoidAlone.dropLast {isVoid : SwigType → Bool} {p : Naming.Parm} (h : VoidAlone isVoid (ps ++ [p])) :
    ∀ q ∈ ps, isVoid q.type = false := by
  intro q hq
  by_contra hvoid
  have hlen := h q (List.mem_append_left _ hq) (by simpa using hvoid)
  have hpos := List.length_pos_of_mem hq
  rw [List.length_append, List.length_singleton] at hlen
  omega

theorem addSymbols_eq {n : FunctionNode} (h : ∀ q ∈ n.parms, P.isVoid q.type = false) :
    (P.addSymbols n).decl = n.decl ∧ (P.addSymbols n).parms = n.parms := by
  have hnormal : P.normalizeVoid n = n := by
    rw [FunctionParser.normalizeVoid, if_neg]
    rintro ⟨-, hlen, hall⟩
    obtain ⟨q, hq⟩ := List.length_eq_one_iff.mp hlen
    have hvoid := List.all_eq_true.mp hall q (by simp [hq])
    rw [h q (by simp [hq])] at hvoid
    cases hvoid
  rw [FunctionParser.addSymbols, hnormal, ite_self]
  exact ⟨rfl, rfl⟩

/-- The overload for a shorter list has the declarator for it, with the same qualifier. -/
theorem newFunction_eq (htypes : ∀ t ∈ types qs, IsType t) (hrest : rest.head? ≠ some (chr '.'))
    (hdecl : function.decl = declarator const rest (types qs)) (hvoid : ∀ q ∈ ps, P.isVoid q.type = false) :
    ∃ g, P.newFunction function ps = some g ∧ g.decl = declarator const rest (types ps) ∧ g.parms = ps := by
  rw [FunctionParser.newFunction, hdecl, popFunction_declarator htypes hrest, Option.bind_some, isconst_declarator]
  dsimp only
  rw [addQualifier_function, Option.map_some]
  exact ⟨_, rfl, addSymbols_eq hvoid⟩

theorem overloadLoop_plain (h : hasDefaultargs function.parms = false) (len : ℕ) :
    P.overloadLoop len function = some [] := by
  cases len with
  | zero => rfl
  | succ len => rw [FunctionParser.overloadLoop, if_neg (by simp [h])]

/-- The loop adds the overloads without the last `1..m` parameters. -/
theorem overloadLoop_append {plain defaulted : List Naming.Parm} (hplain : ∀ p ∈ plain, p.value = none)
    (hdefaulted : ∀ p ∈ defaulted, p.value ≠ none) (htypes : ∀ p ∈ plain ++ defaulted, IsType p.type)
    (hvoid : VoidAlone P.isVoid (plain ++ defaulted)) (hrest : rest.head? ≠ some (chr '.'))
    (hparms : function.parms = plain ++ defaulted)
    (hdecl : function.decl = declarator const rest (types (plain ++ defaulted))) :
    ∃ gs, P.overloadLoop (plain ++ defaulted).length function = some gs ∧
      gs.map (fun g => (g.decl, g.parms)) =
        (withoutLast (plain ++ defaulted) defaulted.length).map fun ps => (declarator const rest (types ps), ps) := by
  induction defaulted using List.reverseRecOn generalizing function with
  | nil =>
      refine ⟨[], overloadLoop_plain ?_ _, rfl⟩
      rw [hparms, List.append_nil]
      exact hasDefaultargs_plain hplain
  | append_singleton ds p ih =>
      rw [← List.append_assoc] at htypes hvoid hparms hdecl ⊢
      have htype (ps : List Naming.Parm) (h : ∀ p ∈ ps, IsType p.type) : ∀ t ∈ types ps, IsType t := by
        intro t ht
        obtain ⟨q, hq, rfl⟩ := List.mem_map.mp ht
        exact h q hq
      have hlen : (plain ++ ds ++ [p]).length = (plain ++ ds).length + 1 := List.length_append
      have hdefaults : (ds ++ [p]).length = ds.length + 1 := List.length_append
      have hnew : copyParmListMax (plain ++ ds ++ [p]) (plain ++ ds).length = plain ++ ds := List.take_left
      obtain ⟨g, hg, hgdecl, hgparms⟩ := newFunction_eq (htype _ htypes) hrest hdecl hvoid.dropLast
      have hshorter : VoidAlone P.isVoid (plain ++ ds) := fun q hq hq' => by
        rw [hvoid.dropLast q hq] at hq'
        cases hq'
      obtain ⟨gs, hgs, hmap⟩ := ih (fun q hq => hdefaulted q (by simp [hq]))
        (fun q hq => htypes q (List.mem_append_left _ hq)) hshorter hgparms hgdecl
      refine ⟨g :: gs, ?_, ?_⟩
      · rw [hlen, FunctionParser.overloadLoop, hparms, if_pos (hasDefaultargs_append (hdefaulted p (by simp)) _), hnew,
          hg, Option.bind_some, hgs]
        rfl
      · rw [hdefaults, withoutLast_append, List.map_cons, List.map_cons, hmap, hgdecl, hgparms]

/-- Where some parameter has a default argument, the loop adds something. -/
theorem overloadLoop_ne_nil (h : hasDefaultargs function.parms = true) :
    P.overloadLoop function.parms.length function ≠ some [] := by
  intro hnil
  cases hlen : function.parms.length with
  | zero =>
      rw [List.length_eq_zero_iff.mp hlen] at h
      cases h
  | succ len =>
      rw [hlen, FunctionParser.overloadLoop, if_pos h, Option.bind_eq_some_iff] at hnil
      obtain ⟨g, -, hg⟩ := hnil
      obtain ⟨gs, -, hcons⟩ := Option.map_eq_some_iff.mp hg
      cases hcons

/-! ### The features of the overloads -/

variable {F : FeatureParser} {features : Features} {featurename : List Byte} {val declaratorid : Option (List Byte)}
variable {featureattribs : List FeatureAttrib} {D : DefaultParms}

/-- The name a feature of a function is kept under. -/
def FeatureParser.storedName (F : FeatureParser) (declaratorid : Option (List Byte)) (rest : SwigType) : List Byte :=
  if ispointer rest then lit "*" ++ F.featureName declaratorid else F.featureName declaratorid

/-- The qualifier of a directive for a declarator. -/
def constQualifier (const : Bool) : Option (List Byte) := if const then some (lit "q(const).") else none

theorem singleNewFeature_eq {ts : List SwigType} (htypes : ∀ t ∈ ts, IsType t) (hrest : rest.head? ≠ some (chr '.')) :
    F.singleNewFeature features featurename val featureattribs declaratorid (some (addFunction rest ts))
        (constQualifier const) =
      some (featureSet F.T features (F.storedName declaratorid rest) (some (declarator const [] ts))
        (lit "feature:" ++ featurename) val featureattribs) := by
  have hpush : (constQualifier const).elim (addFunction rest ts) (push (addFunction rest ts)) = declarator const rest ts := by
    cases const <;> rfl
  have hfunction : isfunction (declarator const rest ts) = true := by
    cases const <;> rfl
  have hne : addFunction rest ts ≠ [] := fun h => by cases h
  rw [FeatureParser.singleNewFeature]
  · rw [hpush, if_pos hfunction, popFunction_declarator htypes hrest]
    rfl
  · exact hne

theorem foldlM_eq_some_foldl {α σ : Type} {step : σ → α → Option σ} {f : σ → α → σ} {l : List α}
    (h : ∀ a ∈ l, ∀ st, step st a = some (f st a)) (st : σ) : l.foldlM step st = some (l.foldl f st) := by
  induction l generalizing st with
  | nil => rfl
  | cons a l ih =>
      rw [List.foldlM_cons, h a List.mem_cons_self]
      exact ih (fun b hb => h b (List.mem_cons_of_mem _ hb)) _

/-- The feature is set for the function and for all its overloads. -/
theorem newFeature_eq (hrest : rest.head? ≠ some (chr '.')) :
    F.newFeature features featurename val featureattribs declaratorid (some (addFunction rest (types D.parms))) D.parms
        (constQualifier const) =
      some (featureSetAll F.T features (F.storedName declaratorid rest) (D.keys const) (lit "feature:" ++ featurename)
        ((removeBlock featureattribs val).or val) featureattribs) := by
  have htypes : ∀ t ∈ types D.parms, IsType t := D.dropped_zero ▸ D.isType_dropped 0
  have hpop : popFunction (addFunction rest (types D.parms)) = some (addFunction [] (types D.parms), rest) :=
    popFunction_declarator (c := false) htypes hrest
  rw [FeatureParser.newFeature]
  dsimp only
  rw [singleNewFeature_eq htypes hrest, Option.bind_some, DefaultParms.parms,
    shortenLoop_append D.plain_value D.defaulted_value, featureSetAll, D.keys_eq, List.foldl_cons, List.foldl_map,
    DefaultParms.key, D.dropped_zero]
  refine foldlM_eq_some_foldl (fun ps hps features => ?_) _
  obtain ⟨i, -, rfl⟩ := List.mem_map.mp hps
  rw [← DefaultParms.parms, hpop, Option.bind_some]
  exact singleNewFeature_eq (D.isType_dropped (i + 1)) hrest

end Swig.CParse
