import Swig.Lib.Walks
import Swig.SType.FunctionType

/-!
The value of a template argument: the loop of `Swig_symbol_template_param_eval`
(`symbol.c`), its copy in `SwigType_typedef_qualified` (`typesys.c`) and the loop of the
rule `valparm` (`parser.y`).
-/

namespace Swig.Symbol

open SType Walks Relation

/-! ### The loops -/

/-- The kinds of nodes the loops tell apart. -/
inductive NodeType
  | enumitem
  | cdecl
  | other
  deriving DecidableEq

/-- The symbols of a table, with what `Swig_symbol_clookup` gives for a text, and
`Swig_symbol_qualified` for a node (no text stands for a null pointer too). -/
structure Constants (Node : Type) where
  clookup : List Byte → Option Node
  nodeType : Node → NodeType
  name : Node → List Byte
  qualified : Node → List Byte
  value : Node → Option (List Byte)
  decl : Node → Option SwigType

namespace Constants

variable {Node : Type} [DecidableEq Node] (S : Constants Node)

/-- The loop of `Swig_symbol_template_param_eval`. -/
def templateParamEval : ℕ → Option Node → List Byte → Option (List Byte)
  | 0, _, _ => none
  | n + 1, lastnode, value =>
      let node := S.clookup value
      if node = lastnode then some value
      else
        match node with
        | none => some value
        | some m =>
            match S.nodeType m with
            | .enumitem =>
                let qn := S.qualified m
                if qn ≠ [] then templateParamEval n node (qn ++ lit "::" ++ S.name m) else some value
            | .cdecl =>
                match S.value m with
                | some nv => templateParamEval n node nv
                | none => some value
            | .other => some value

/-- The loop of `SwigType_typedef_qualified`. -/
def typedefQualifiedValue : ℕ → Option Node → List Byte → Option (List Byte)
  | 0, _, _ => none
  | n + 1, lastnode, value =>
      let node := S.clookup value
      if node = lastnode then some value
      else
        match node with
        | none => some value
        | some m =>
            if S.nodeType m = .enumitem then
              let qn := S.qualified m
              if qn.length ≠ 0 then typedefQualifiedValue n node (qn ++ lit "::" ++ S.name m) else some value
            else if S.nodeType m = .cdecl ∧ (S.value m).isSome then
              typedefQualifiedValue n node ((S.value m).getD [])
            else some value

/-- The loop of `valparm`, on the type of the parameter. -/
def valparmType : ℕ → List Byte → Option (List Byte)
  | 0, _ => none
  | n + 1, type =>
      match S.clookup type with
      | none => some type
      | some m =>
          if S.nodeType m = .cdecl then
            if (S.decl m).any isfunction then some type
            else
              match S.value m with
              | some v => valparmType n v
              | none => some type
          else some type

/-! ### The nodes of a loop -/

/-- The text that the first two loops go on with. -/
def evalText (m : Node) : Option (List Byte) :=
  match S.nodeType m with
  | .enumitem => if S.qualified m ≠ [] then some (S.qualified m ++ lit "::" ++ S.name m) else none
  | .cdecl => S.value m
  | .other => none

/-- The node that they go on to; they stop where it is the same. -/
def evalNext (m : Node) : Option Node := ((S.evalText m).bind S.clookup).filter (· ≠ m)

/-- The text that the third loop goes on with. -/
def valparmText (m : Node) : Option (List Byte) :=
  if S.nodeType m = .cdecl then (if (S.decl m).any isfunction then none else S.value m) else none

/-- The node that it goes on to. -/
def valparmNext (m : Node) : Option Node := (S.valparmText m).bind S.clookup

/-- What `value` leads to comes back to no node, over other nodes in the first two loops
and at all in the third one. -/
def Ends (value : List Byte) : Prop :=
  ∀ m ∈ S.clookup value, Acyclic (Leads S.evalNext) m ∧ Acyclic (Leads S.valparmNext) m

/-- What is asked of the loops. -/
structure Evaluates (value : List Byte) : Prop where
  templateParamEval : ∃ n, (S.templateParamEval n none value).isSome
  typedefQualified : ∀ n, S.typedefQualifiedValue n none value = S.templateParamEval n none value
  valparm : ∃ n, (S.valparmType n value).isSome

variable {S} {lastnode : Option Node} {value : List Byte} {m : Node} {n : ℕ}

theorem templateParamEval_same (h : S.clookup value = lastnode) :
    S.templateParamEval (n + 1) lastnode value = some value := by
  rw [templateParamEval, if_pos h]

/-- One round at a node that is not the last one. -/
theorem templateParamEval_node (h : S.clookup value = some m) (hlast : lastnode ≠ some m) :
    S.templateParamEval (n + 1) lastnode value =
      match S.evalText m with
      | none => some value
      | some v => S.templateParamEval n (some m) v := by
  rw [templateParamEval, h]
  dsimp only
  rw [if_neg hlast.symm, evalText]
  cases S.nodeType m with
  | enumitem =>
      dsimp only
      split <;> rfl
  | cdecl =>
      dsimp only
      cases S.value m <;> rfl
  | other => rfl

theorem typedefQualifiedValue_eq (n : ℕ) (lastnode : Option Node) (value : List Byte) :
    S.typedefQualifiedValue n lastnode value = S.templateParamEval n lastnode value := by
  induction n generalizing lastnode value with
  | zero => rfl
  | succ n ih =>
      rw [typedefQualifiedValue, templateParamEval]
      dsimp only
      split
      · rfl
      cases S.clookup value with
      | none => rfl
      | some m =>
          dsimp only
          cases hm : S.nodeType m with
          | enumitem =>
              rw [if_pos rfl]
              simp only [ne_eq, List.length_eq_zero_iff, ih]
          | cdecl =>
              rw [if_neg (by decide)]
              cases hv : S.value m with
              | none => rw [if_neg (by simp)]
              | some v =>
                  rw [if_pos ⟨rfl, rfl⟩, ih]
                  rfl
          | other => rw [if_neg (by decide), if_neg (by simp)]

/-- The first loop returns if the walk over its nodes ends. -/
theorem templateParamEval_of_walk (h : S.clookup value = some m) (hlast : lastnode ≠ some m)
    (hn : (walk S.evalNext n m).isSome) : (S.templateParamEval (n + 1) lastnode value).isSome := by
  induction n generalizing lastnode value m with
  | zero => cases hn
  | succ n ih =>
      rw [templateParamEval_node h hlast]
      cases hv : S.evalText m with
      | none => rfl
      | some v =>
          dsimp only
          cases hlook : S.clookup v with
          | none => rw [templateParamEval, hlook]; rfl
          | some m' =>
              by_cases hsame : m' = m
              · rw [templateParamEval_same (by rw [hlook, hsame])]
                rfl
              · have hnext : S.evalNext m = some m' := by
                  rw [evalNext, hv, Option.bind_some, hlook, Option.filter_some_pos (by simpa using hsame)]
                rw [walk, hnext] at hn
                exact ih hlook (fun heq => hsame (Option.some.inj heq).symm) hn

theorem walk_of_templateParamEval (h : S.clookup value = some m) (hlast : lastnode ≠ some m)
    (hn : (S.templateParamEval n lastnode value).isSome) : (walk S.evalNext n m).isSome := by
  induction n generalizing lastnode value m with
  | zero => cases hn
  | succ n ih =>
      rw [walk]
      cases hnext : S.evalNext m with
      | none => rfl
      | some m' =>
          obtain ⟨hbind, hne⟩ := Option.filter_eq_some_iff.mp hnext
          obtain ⟨v, hv, hlook⟩ := Option.bind_eq_some_iff.mp hbind
          rw [templateParamEval_node h hlast, hv] at hn
          exact ih hlook (fun heq => by simp [Option.some.inj heq] at hne) hn

theorem exists_templateParamEval_iff [Finite Node] :
    (∃ n, (S.templateParamEval n none value).isSome) ↔ ∀ m ∈ S.clookup value, Acyclic (Leads S.evalNext) m := by
  cases h : S.clookup value with
  | none => exact iff_of_true ⟨1, by rw [templateParamEval_same h]; rfl⟩ (by simp)
  | some m =>
      have hlast : (none : Option Node) ≠ some m := by simp
      simp only [Option.mem_def, Option.some.injEq, forall_eq', ← exists_walk_iff]
      exact ⟨fun ⟨n, hn⟩ => ⟨n, walk_of_templateParamEval h hlast hn⟩,
        fun ⟨n, hn⟩ => ⟨n + 1, templateParamEval_of_walk h hlast hn⟩⟩

omit [DecidableEq Node] in
theorem valparmType_node (h : S.clookup value = some m) :
    S.valparmType (n + 1) value =
      match S.valparmText m with
      | none => some value
      | some v => S.valparmType n v := by
  rw [valparmType, h, valparmText]
  dsimp only
  split
  · split
    · rfl
    · cases S.value m <;> rfl
  · rfl

omit [DecidableEq Node] in
theorem valparmType_of_walk (h : S.clookup value = some m) (hn : (walk S.valparmNext n m).isSome) :
    (S.valparmType (n + 1) value).isSome := by
  induction n generalizing value m with
  | zero => cases hn
  | succ n ih =>
      rw [valparmType_node h]
      cases hv : S.valparmText m with
      | none => rfl
      | some v =>
          dsimp only
          cases hlook : S.clookup v with
          | none => rw [valparmType, hlook]; rfl
          | some m' =>
              have hnext : S.valparmNext m = some m' := by rw [valparmNext, hv, Option.bind_some, hlook]
              rw [walk, hnext] at hn
              exact ih hlook hn

omit [DecidableEq Node] in
theorem walk_of_valparmType (h : S.clookup value = some m) (hn : (S.valparmType n value).isSome) :
    (walk S.valparmNext n m).isSome := by
  induction n generalizing value m with
  | zero => cases hn
  | succ n ih =>
      rw [walk]
      cases hnext : S.valparmNext m with
      | none => rfl
      | some m' =>
          obtain ⟨v, hv, hlook⟩ := Option.bind_eq_some_iff.mp hnext
          rw [valparmType_node h, hv] at hn
          exact ih hlook hn

omit [DecidableEq Node] in
theorem exists_valparmType_iff [Finite Node] :
    (∃ n, (S.valparmType n value).isSome) ↔ ∀ m ∈ S.clookup value, Acyclic (Leads S.valparmNext) m := by
  cases h : S.clookup value with
  | none => exact iff_of_true ⟨1, by rw [valparmType, h]; rfl⟩ (by simp)
  | some m =>
      simp only [Option.mem_def, Option.some.injEq, forall_eq', ← exists_walk_iff]
      exact ⟨fun ⟨n, hn⟩ => ⟨n, walk_of_valparmType h hn⟩, fun ⟨n, hn⟩ => ⟨n + 1, valparmType_of_walk h hn⟩⟩

end Constants

/-- The loops end exactly where no constant is followed back to itself. -/
theorem evaluates_iff {Node : Type} [Fintype Node] [DecidableEq Node] (S : Constants Node) (value : List Byte) :
    S.Evaluates value ↔ S.Ends value := by
  constructor
  · intro h m hm
    exact ⟨Constants.exists_templateParamEval_iff.mp h.templateParamEval m hm,
      Constants.exists_valparmType_iff.mp h.valparm m hm⟩
  · intro h
    exact ⟨Constants.exists_templateParamEval_iff.mpr fun m hm => (h m hm).1,
      fun n => Constants.typedefQualifiedValue_eq n none value,
      Constants.exists_valparmType_iff.mpr fun m hm => (h m hm).2⟩

/-- `const int a = b; const int b = a;`, with `false` for `a`. -/
def eachOther : Constants Bool where
  clookup text := if text = lit "a" then some false else if text = lit "b" then some true else none
  nodeType _ := .cdecl
  name m := if m then lit "b" else lit "a"
  qualified _ := []
  value m := some (if m then lit "a" else lit "b")
  decl _ := some []

theorem evaluates_eachOther : ¬eachOther.Evaluates (lit "a") := by
  intro h
  have hends := Constants.exists_templateParamEval_iff.mp h.templateParamEval false (by decide)
  have hab : eachOther.evalNext false = some true := by decide +kernel
  have hba : eachOther.evalNext true = some false := by decide +kernel
  exact hends false .refl (.head hab (.single hba))

end Swig.Symbol
