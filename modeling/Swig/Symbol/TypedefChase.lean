import Swig.Lib.Fuel
import Swig.Lib.Walks
import Swig.SType.ArrayType
import Mathlib.Data.Fin.VecNotation

/-!
The loops that follow typedefs through the symbol tables to the class they stand for: the
one of `Swig_symbol_cadd` (`symbol.c`), of `make_inherit_list` (`parser.y`) and of
`TypePass::cplus_inherit_types_impl` (`typepass.cxx`).
-/

namespace Swig.Symbol

open SType Walks Fuel

/-! ### The tables -/

/-- The kinds of nodes that the loops tell apart. -/
inductive DeclKind
  | cdecl
  | class_
  | classforward
  | template
  | other
  deriving DecidableEq

/-- Nodes in `N` and scopes in `S`, with what is read of the tables in a state of them.
`insert` is what `Swig_symbol_cadd` does before its loop, and whether it comes to it;
`clookup` is `Swig_symbol_clookup`, a null pointer standing for the current scope. -/
structure Tables (N S St : Type) where
  nodeType : N → DeclKind
  typedef : N → Bool
  name : N → List Byte
  type : N → SwigType
  decl : N → SwigType
  visit : St → N → Bool
  current : St → S
  parentNode : St → S → Option S
  symtab : St → N → Option S
  symSymtab : St → N → Option S
  clookup : St → SwigType → S → Option N
  qualified : St → N → Option (List Byte)
  typedef_qualified : St → SwigType → SwigType
  typedef_resolve_all : St → SwigType → SwigType
  insert : St → List Byte → N → St × Bool
  symbolAlias : St → List Byte → S → St

namespace Tables

variable {N S St : Type} (T : Tables N S St)

/-! ### `Swig_symbol_cadd` -/

section

variable [DecidableEq N]

/-- The declaration that a typedef names; where that is a typedef of the name of the first
one, the scope is left once. -/
def aliased (st : St) (td : N) : Option N :=
  let type := push (T.type td) (T.decl td)
  match T.clookup st type (T.current st) with
  | none => none
  | some td1 =>
      if T.typedef td1 && T.type td1 = T.name td then
        match T.parentNode st (T.current st) with
        | some sc => T.clookup st type sc
        | none => some td1
      else some td1

/-- A round of the loop: the scope that the name becomes an alias of, or the next typedef. -/
def aliasRound (st : St) (td : N) : Option S ⊕ N :=
  if T.nodeType td = .cdecl ∧ T.typedef td then
    match T.aliased st td with
    | none => .inl none
    | some td1 =>
        if td1 = td then .inl none
        else
          match T.symtab st td1 with
          | some s => .inl (some s)
          | none => .inr td1
  else .inl none

/-- `Swig_symbol_cadd`. Before a template-id its complete type is added, by a call of its
own. -/
def cadd (fuel : ℕ) (st : St) (name : List Byte) (n : N) : Option St :=
  let added := T.insert st name n
  if added.2 then
    (chase (T.aliasRound added.1) fuel n).map fun
      | some s => T.symbolAlias added.1 (T.name n) s
      | none => added.1
  else some added.1

end

/-! ### `make_inherit_list` -/

/-- A round of the loop: the node that it stops at, or the next one. -/
def inheritRound (st : St) (s : N) : Option N ⊕ N :=
  if T.nodeType s = .class_ then .inl (some s)
  else if T.typedef s then
    match T.clookup st (T.type s) ((T.symSymtab st s).getD (T.current st)) with
    | some s' => .inr s'
    | none => .inl none
  else .inl (some s)

/-- The base that a name stands for: its class, and its qualified name. -/
def inheritBase (fuel : ℕ) (st : St) (n : List Byte) : Option (Option N × List Byte) :=
  match T.clookup st n (T.current st) with
  | none => some (none, n)
  | some s =>
      (chase (T.inheritRound st) fuel s).map fun
        | some s =>
            if T.nodeType s = .class_ ∨ T.nodeType s = .template then
              (some s, match T.qualified st s with
                | some q => q ++ lit "::" ++ T.name s
                | none => T.name s)
            else (none, n)
        | none => (none, n)

/-- The bases, and the names that are handed to `Swig_name_inherit`. -/
def makeInheritList (fuel : ℕ) (st : St) (names : List (List Byte)) : Option (List N × List (List Byte)) :=
  (names.mapM (T.inheritBase fuel st)).map fun found => (found.filterMap Prod.fst, found.map Prod.snd)

/-! ### `cplus_inherit_types_impl` -/

/-- What becomes of the name of a base class. -/
inductive BaseFound (N : Type)
  | base (cls : N)
  | undefined (cls : N)
  | forward (cls : N)
  | invalid (n : N)
  | unknown
  deriving DecidableEq

/-- The name that is looked up for a base. -/
def baseName (st : St) (bname : SwigType) : SwigType :=
  T.typedef_qualified st (if istemplate bname then T.typedef_resolve_all st bname else bname)

/-- A round of the loop, behind the look-up. -/
def baseRound (st : St) (bcls : N) : BaseFound N ⊕ N :=
  if T.nodeType bcls = .class_ then .inl (if T.visit st bcls then .base bcls else .undefined bcls)
  else if T.typedef bcls ∧ T.decl bcls = [] then
    match T.clookup st (T.baseName st (T.type bcls)) ((T.symSymtab st bcls).getD (T.current st)) with
    | some bcls => .inr bcls
    | none => .inl .unknown
  else if T.nodeType bcls = .classforward then .inl (.forward bcls)
  else .inl (.invalid bcls)

/-- The search for a base class of `cls`. -/
def findBase (fuel : ℕ) (st : St) (cls : N) (bname : SwigType) : Option (BaseFound N) :=
  match T.clookup st (T.baseName st bname) ((T.symSymtab st cls).getD (T.current st)) with
  | some bcls => chase (T.baseRound st) fuel bcls
  | none => some .unknown

/-- The list of bases that are found. -/
def inheritTypes (fuel : ℕ) (st : St) (cls : N) (nlist : List SwigType) : Option (List (BaseFound N)) :=
  nlist.mapM (T.findBase fuel st cls)

/-! ### Where the loops end -/

variable {T} {st st' st'' : St}

theorem inheritBase_mono (st : St) (n : List Byte) : Mono fun fuel => T.inheritBase fuel st n := by
  unfold inheritBase
  split
  · exact .const _
  · exact Mono.map (fun _ _ _ hle h => chase_mono h hle) _

theorem findBase_mono (st : St) (cls : N) (bname : SwigType) : Mono fun fuel => T.findBase fuel st cls bname := by
  unfold findBase
  split
  · exact fun _ _ _ hle h => chase_mono h hle
  · exact .const _

variable [Finite N]

theorem inheritBase_ends_iff (st : St) (n : List Byte) :
    (∃ fuel, (T.inheritBase fuel st n).isSome) ↔
      ∀ s ∈ T.clookup st n (T.current st), Acyclic (Leads (goesOn (T.inheritRound st))) s := by
  unfold inheritBase
  split
  case h_1 h => 
    rw [h]
    exact iff_of_true ⟨0, rfl⟩ nofun
  case h_2 s h =>
    rw [h]
    simp only [Option.isSome_map, exists_chase_iff, Option.mem_some_iff, forall_eq']

theorem findBase_ends_iff (st : St) (cls : N) (bname : SwigType) :
    (∃ fuel, (T.findBase fuel st cls bname).isSome) ↔
      ∀ bcls ∈ T.clookup st (T.baseName st bname) ((T.symSymtab st cls).getD (T.current st)),
        Acyclic (Leads (goesOn (T.baseRound st))) bcls := by
  unfold findBase
  split
  case h_1 bcls h =>
    rw [h]
    simp only [exists_chase_iff, Option.mem_some_iff, forall_eq']
  case h_2 h =>
    rw [h]
    exact iff_of_true ⟨0, rfl⟩ nofun

/-! ### Runs -/

variable [DecidableEq N] (T)

/-- A step: a declaration is added, the bases of a class are looked for, in the parser or in
the type pass, or the tables change otherwise. -/
inductive Op (N St : Type)
  | cadd (name : List Byte) (n : N)
  | makeInheritList (names : List (List Byte))
  | inheritTypes (cls : N) (nlist : List SwigType)
  | change (f : St → St)

/-- The state that a step leaves. The searches for bases leave the tables as they are. -/
def perform (fuel : ℕ) (st : St) : Op N St → Option St
  | .cadd name n => T.cadd fuel st name n
  | .makeInheritList names => (T.makeInheritList fuel st names).map fun _ => st
  | .inheritTypes cls nlist => (T.inheritTypes fuel st cls nlist).map fun _ => st
  | .change f => some (f st)

/-- A run of some steps. -/
inductive Run : St → List (Op N St) → St → Prop
  | nil (st : St) : Run st [] st
  | cons {st st' st'' : St} {op : Op N St} {ops : List (Op N St)} {fuel : ℕ} (h : T.perform fuel st op = some st')
      (hrun : Run st' ops st'') : Run st (op :: ops) st''

/-- The typedefs that a step follows never come back to one of them. -/
def Settles (st : St) : Op N St → Prop
  | .cadd name n => (T.insert st name n).2 = true → Acyclic (Leads (goesOn (T.aliasRound (T.insert st name n).1))) n
  | .makeInheritList names =>
      ∀ n ∈ names, ∀ s ∈ T.clookup st n (T.current st), Acyclic (Leads (goesOn (T.inheritRound st))) s
  | .inheritTypes cls nlist =>
      ∀ bname ∈ nlist, ∀ bcls ∈ T.clookup st (T.baseName st bname) ((T.symSymtab st cls).getD (T.current st)),
        Acyclic (Leads (goesOn (T.baseRound st))) bcls
  | .change _ => True

variable {T} {op : Op N St} {ops : List (Op N St)}

omit [Finite N] in
theorem cadd_mono (st : St) (name : List Byte) (n : N) : Mono fun fuel => T.cadd fuel st name n := by
  unfold cadd
  exact .ite (.map (fun _ _ _ hle h => chase_mono h hle) _) (.const _)

omit [Finite N] in
theorem perform_mono (st : St) (op : Op N St) : Mono fun fuel => T.perform fuel st op := by
  cases op with
  | cadd name n => exact cadd_mono st name n
  | makeInheritList names => exact ((Mono.mapM (inheritBase_mono st) names).map _).map _
  | inheritTypes cls nlist => exact (Mono.mapM (findBase_mono st cls) nlist).map _
  | change f => exact .const _

theorem cadd_ends_iff (st : St) (name : List Byte) (n : N) :
    (∃ fuel, (T.cadd fuel st name n).isSome) ↔ T.Settles st (.cadd name n) := by
  unfold cadd Settles
  cases hadded : (T.insert st name n).2 with
  | true => simp only [hadded, if_true, Option.isSome_map, exists_chase_iff, forall_const]
  | false =>
      simp only [hadded, Bool.false_eq_true, if_false, Option.isSome_some, exists_const, false_implies]

/-- A step ends exactly where it settles. -/
theorem perform_ends_iff (st : St) (op : Op N St) : (∃ fuel, (T.perform fuel st op).isSome) ↔ T.Settles st op := by
  cases op with
  | cadd name n => exact cadd_ends_iff st name n
  | makeInheritList names =>
      simp only [perform, makeInheritList, Option.isSome_map]
      rw [exists_mapM_iff (inheritBase_mono st)]
      exact forall₂_congr fun n _ => inheritBase_ends_iff st n
  | inheritTypes cls nlist =>
      simp only [perform, inheritTypes, Option.isSome_map]
      rw [exists_mapM_iff (findBase_mono st cls)]
      exact forall₂_congr fun bname _ => findBase_ends_iff st cls bname
  | change f => exact iff_of_true ⟨0, rfl⟩ trivial

omit [Finite N] in
theorem Run.unique (h : T.Run st ops st') (h' : T.Run st ops st'') : st' = st'' := by
  induction h with
  | nil =>
      cases h'
      rfl
  | @cons _ _ _ _ _ fuel hstep _ ih =>
      cases h' with
      | @cons _ _ _ _ _ fuel' hstep' hrun' =>
          have h₁ := perform_mono _ _ _ _ _ (Nat.le_max_left fuel fuel') hstep
          have h₂ := perform_mono _ _ _ _ _ (Nat.le_max_right fuel fuel') hstep'
          obtain rfl := Option.some.inj (h₁.symm.trans h₂)
          exact ih hrun'

omit [Finite N] in
theorem run_append {pre : List (Op N St)} (h : T.Run st (pre ++ ops) st'') :
    ∃ st', T.Run st pre st' ∧ T.Run st' ops st'' := by
  induction pre generalizing st with
  | nil => exact ⟨st, .nil st, h⟩
  | cons op pre ih =>
      cases h with
      | cons hstep hrun =>
          obtain ⟨st', hpre, hops⟩ := ih hrun
          exact ⟨st', .cons hstep hpre, hops⟩

theorem Run.settles {pre post : List (Op N St)} {op : Op N St} (h : T.Run st (pre ++ op :: post) st'')
    (hpre : T.Run st pre st') : T.Settles st' op := by
  obtain ⟨st₁, hpre', hrest⟩ := run_append h
  obtain rfl := hpre.unique hpre'
  cases hrest with
  | cons hstep _ => exact (perform_ends_iff st' op).mp ⟨_, Option.isSome_iff_exists.mpr ⟨_, hstep⟩⟩

/-- A run of some steps comes to its end exactly where each of them settles in the state
that the steps before it leave. -/
theorem run_ends_iff (st : St) (ops : List (Op N St)) :
    (∃ st', T.Run st ops st') ↔
      ∀ pre op post, ops = pre ++ op :: post → ∀ st', T.Run st pre st' → T.Settles st' op := by
  constructor
  · rintro ⟨st'', hrun⟩ pre op post rfl st' hpre
    exact hrun.settles hpre
  · intro h
    induction ops generalizing st with
    | nil => exact ⟨st, .nil st⟩
    | cons op ops ih =>
        obtain ⟨fuel, hfuel⟩ := (perform_ends_iff st op).mpr (h [] op ops rfl st (.nil st))
        obtain ⟨st₁, hstep⟩ := Option.isSome_iff_exists.mp hfuel
        obtain ⟨st', hrun⟩ := ih st₁ fun pre op' post heq st' hpre =>
          h (op :: pre) op' post (by rw [heq]; rfl) st' (.cons hstep hpre)
        exact ⟨st', .cons hstep hrun⟩

end Tables

/-! ### A class with an alias of its own name -/

/-- The global scope and the classes `Foo` and `Baz`, in that order. -/
abbrev ClassScope := Fin 3

/-- The scope that is open, and the declarations of each scope. -/
structure Declarations (N : Type) where
  current : ClassScope
  csymtab : ClassScope → List (List Byte × N)

/-- The look-up of a plain name: every class is in the global scope. -/
def Declarations.clookup {N : Type} (st : Declarations N) (name : SwigType) (s : ClassScope) : Option N :=
  ((st.csymtab s).lookup name).or ((st.csymtab 0).lookup name)

def Declarations.insert {N : Type} (st : Declarations N) (name : List Byte) (n : N) : Declarations N × Bool :=
  ({ st with csymtab := Function.update st.csymtab st.current ((name, n) :: st.csymtab st.current) }, true)

/-- `class Foo {}; typedef Foo Bar; typedef Bar Qux; class Baz { typedef Qux Foo; };`, as five
nodes in this order. -/
def fiveDecls : Tables (Fin 5) ClassScope (Declarations (Fin 5)) where
  nodeType n := if n = 0 ∨ n = 3 then .class_ else .cdecl
  typedef n := n = 1 ∨ n = 2 ∨ n = 4
  name := ![lit "Foo", lit "Bar", lit "Qux", lit "Baz", lit "Foo"]
  type := ![[], lit "Foo", lit "Bar", [], lit "Qux"]
  decl _ := []
  visit _ _ := false
  current := Declarations.current
  parentNode _ s := if s = 0 then none else some 0
  symtab _ n := if n = 0 then some 1 else if n = 3 then some 2 else none
  symSymtab _ n := some (if n = 4 then 2 else 0)
  clookup := Declarations.clookup
  qualified _ _ := none
  typedef_qualified _ t := t
  typedef_resolve_all _ t := t
  insert := Declarations.insert
  symbolAlias st _ _ := st

def noDecls : Declarations (Fin 5) := ⟨0, fun _ => []⟩

/-- The declarations in front of the class `Baz`. -/
def aliases : List (Tables.Op (Fin 5) (Declarations (Fin 5))) :=
  [.cadd (lit "Foo") 0, .cadd (lit "Bar") 1, .cadd (lit "Qux") 2]

/-- `class Baz { typedef Qux Foo; };` behind them. -/
def ownName : List (Tables.Op (Fin 5) (Declarations (Fin 5))) :=
  aliases ++ [.change fun st => { st with current := 2 }, .cadd (lit "Foo") 4]

theorem settles_aliases : (∃ st, fiveDecls.Run noDecls aliases st) ∧ ∀ pre op post, aliases = pre ++ op :: post →
    ∀ st, fiveDecls.Run noDecls pre st → fiveDecls.Settles st op := by
  have hrun : ∃ st, fiveDecls.Run noDecls aliases st :=
    ⟨_, .cons (show fiveDecls.perform 1 _ _ = some _ from rfl) (.cons (show fiveDecls.perform 1 _ _ = some _ from rfl)
      (.cons (show fiveDecls.perform 2 _ _ = some _ from rfl) (.nil _)))⟩
  exact ⟨hrun, (Tables.run_ends_iff noDecls aliases).mp hrun⟩

/-- In the scope of `Baz`, `Foo` leads to `Qux`, `Qux` to `Bar`, and `Bar` to `Foo`. -/
theorem not_run_ends : ¬∀ (N S St : Type) (_ : DecidableEq N) (_ : Finite N) (T : Tables N S St) st ops,
    ∃ st', T.Run st ops st' := by
  intro h
  obtain ⟨st, hrun⟩ := h _ _ _ inferInstance inferInstance fiveDecls noDecls ownName
  have hrun : fiveDecls.Run noDecls ((aliases ++ [.change fun st => { st with current := 2 }]) ++ .cadd (lit "Foo") 4 :: []) st :=
    hrun
  have hsettles := hrun.settles
    (.cons (show fiveDecls.perform 1 _ _ = some _ from rfl) (.cons (show fiveDecls.perform 1 _ _ = some _ from rfl)
      (.cons (show fiveDecls.perform 2 _ _ = some _ from rfl)
        (.cons (show fiveDecls.perform 0 _ _ = some _ from rfl) (.nil _)))))
  refine hsettles rfl 4 .refl (.tail (b := 1) (.tail (b := 2) (.single ?_) ?_) ?_)
  · rfl
  · rfl
  · rfl

end Swig.Symbol
