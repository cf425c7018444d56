import Swig.DOH.CType
import Mathlib.Logic.Function.Basic
import Mathlib.Tactic.Common

/-!
Overloaded declarations in a symbol table: `Swig_symbol_add` and
`Swig_symbol_remove` (`symbol.c`), without the C symbol table behind the scenes.

The attributes of a node that these functions only read are given by `Decl`; the
attributes they set belong to the state, where `none` is an attribute that is not
set. Loops over the siblings take the number of rounds allowed.
-/

namespace Swig

abbrev SymName := List Byte

/-- `SwigType_isfunction`. -/
def SwigType_isfunction (t : List Byte) : Bool :=
  if (lit "q(").isPrefixOf t then
    match t.dropWhile (· ≠ chr '.') with
    | [] => false
    | _ :: c => (lit "f(").isPrefixOf c
  else (lit "f(").isPrefixOf t

/-- The attributes of a node that are only read; `weak` is `sym:weak` and `ignore`
the flag `feature:ignore`. -/
structure Decl where
  nodeType : String
  templatetype : Option String
  decl : Option (List Byte)
  storage : Option String
  allows_typedef : Bool
  weak : Bool
  ignore : Bool
  deriving DecidableEq

namespace Decl

/-- The type of a node, or of the declaration a template is made of. -/
def kind (d : Decl) : Option String := if d.nodeType = "template" then d.templatetype else some d.nodeType

def isfunction (d : Decl) : Bool := d.decl.any SwigType_isfunction

/-- A template of a function. -/
def isTemplate (d : Decl) : Bool := d.nodeType = "template" && d.templatetype = some "cdecl"

def isPlain (d : Decl) : Bool := d.nodeType = "cdecl"

end Decl

/-- `sym:symtab` only says whether it is set: there is one table. -/
structure SymbolTable (N : Type) where
  table : SymName → Option N
  symtab : N → Bool
  name : N → Option SymName
  overname : N → Option String
  nextSibling : N → Option N
  previousSibling : N → Option N
  overloaded : N → Option N

namespace SymbolTable

variable {N : Type} [DecidableEq N] (at_ : N → Decl) (st : SymbolTable N)

def empty : SymbolTable N where
  table _ := none
  symtab _ := false
  name _ := none
  overname _ := none
  nextSibling _ := none
  previousSibling _ := none
  overloaded _ := none

/-- `__SWIG_%d`. -/
def overnameOf (pn : ℕ) : String := "__SWIG_" ++ toString pn

def setTable (symname : SymName) (v : Option N) : SymbolTable N :=
  { st with table := Function.update st.table symname v }

/-- `sym:symtab` and `sym:name`. -/
def setName (n : N) (symname : SymName) : SymbolTable N :=
  { st with symtab := Function.update st.symtab n true, name := Function.update st.name n (some symname) }

def setOvername (n : N) (v : Option String) : SymbolTable N :=
  { st with overname := Function.update st.overname n v }

def setNextSibling (n : N) (v : Option N) : SymbolTable N :=
  { st with nextSibling := Function.update st.nextSibling n v }

def setPreviousSibling (n : N) (v : Option N) : SymbolTable N :=
  { st with previousSibling := Function.update st.previousSibling n v }

def setOverloaded (n : N) (v : Option N) : SymbolTable N :=
  { st with overloaded := Function.update st.overloaded n v }

/-! ### Adding -/

/-- The last node of a chain. -/
def lastSibling (st : SymbolTable N) : ℕ → N → Option N
  | 0, _ => none
  | fuel + 1, cl =>
      match st.nextSibling cl with
      | none => some cl
      | some next => lastSibling st fuel next

/-- The declarators are the same, and it is not a template beside a plain function. -/
def conflicts (n cn : N) : Bool :=
  (at_ n).decl = (at_ cn).decl &&
    !((at_ n).isTemplate && (at_ cn).isPlain || (at_ cn).isTemplate && (at_ n).isPlain)

/-- The walk down the list from `cn`: the node in conflict, or the last node and the
number of nodes. A `using` declaration is compared with none. -/
def walkSiblings (st : SymbolTable N) (usng : Bool) (n : N) : ℕ → N → ℕ → Option (N ⊕ N × ℕ)
  | 0, _, _ => none
  | fuel + 1, cn, pn =>
      if !usng && conflicts at_ n cn then some (.inl cn)
      else
        match st.nextSibling cn with
        | none => some (.inr (cn, pn + 1))
        | some next => walkSiblings st usng n fuel next (pn + 1)

/-- Drop the symbol behind `cl`, the last of `pn` nodes from `c` on. -/
def dropInPlace (symname : SymName) (n c cl : N) (pn : ℕ) : Option (SymbolTable N) :=
  let st := st.setName n symname
  match st.overname n with
  | some _ => none
  | none =>
      let st := st.setOvername n (some (overnameOf pn))
      let st := (st.setNextSibling cl (some n)).setPreviousSibling n (some cl)
      some ((st.setOverloaded cl (some c)).setOverloaded n (some c))

/-- `Swig_symbol_add` with a name: the table and the node returned; `none` for a failed
assertion. -/
def symbolAdd (fuel : ℕ) (symname : SymName) (n : N) : Option (SymbolTable N × N) :=
  if (at_ n).ignore then some (st, n)
  else
    match (st.table symname).filter fun c => !(at_ c).weak with
    | none =>
        let st := (st.setName n symname).setOvername n (some (overnameOf 0))
        some (st.setTable symname (some n), n)
    | some c =>
        if (at_ n).nodeType = (at_ c).nodeType ∧ (at_ n).nodeType = "namespace" then
          (st.lastSibling fuel c).map fun pcl =>
            (((st.setNextSibling pcl (some n)).setName n symname).setPreviousSibling n (some pcl), n)
        else if (at_ n).allows_typedef || (at_ c).allows_typedef then
          if (at_ n).allows_typedef && (at_ c).allows_typedef then some (st, c)
          else
            let (td, other) := if (at_ n).allows_typedef then (n, c) else (c, n)
            if (at_ other).storage ≠ some "typedef" then some (st, c)
            else if td ≠ c then some ((st.setTable symname (some td)).setName td symname, n)
            else some (st, n)
        else
          let u₁ : Bool := (at_ n).kind = some "using"
          let u₂ : Bool := (at_ c).kind = some "using"
          if (at_ n).kind ≠ (at_ c).kind ∧ !(u₁ || u₂) then some (st, c)
          else if !(u₁ || u₂) ∧ (!(at_ c).isfunction ∨ !(at_ n).isfunction) then some (st, c)
          else if (at_ c).storage = some "typedef" then some (st, c)
          else if (at_ n).storage = some "typedef" then some (st, c)
          else do
            match ← walkSiblings at_ st (u₁ || u₂) n fuel c 0 with
            | .inl cn => return (st, cn)
            | .inr (cl, pn) => return (← st.dropInPlace symname n c cl pn, n)

/-! ### Removing -/

/-- The loop that finds the head of the list. -/
def findHead (st : SymbolTable N) : ℕ → N → Option N
  | 0, _ => none
  | fuel + 1, nn =>
      match st.previousSibling nn with
      | none => some nn
      | some prev => findHead st fuel prev

/-- The loop that adjusts the overnames from `nn` on. -/
def fixOvernames : ℕ → SymbolTable N → N → ℕ → Option (SymbolTable N)
  | 0, _, _, _ => none
  | fuel + 1, st, nn, pn =>
      match st.overname nn with
      | none => none
      | some _ =>
          let st := st.setOvername nn (some (overnameOf pn))
          match st.nextSibling nn with
          | none => some st
          | some next => fixOvernames fuel st next (pn + 1)

/-- The attributes deleted from a node that is removed. -/
def deleteAttributes (n : N) : SymbolTable N :=
  let st := { st with symtab := Function.update st.symtab n false }
  ((st.setPreviousSibling n none).setNextSibling n none |>.setOvername n none).setOverloaded n none

/-- The links of the neighbours of the node, or the entry of the table. -/
def unlink (symname : SymName) (symprev symnext : Option N) : SymbolTable N :=
  let st := match symprev with
    | some p => st.setNextSibling p symnext
    | none => st.setTable symname symnext
  match symnext with
  | some x => st.setPreviousSibling x symprev
  | none => st

/-- `Swig_symbol_remove`; `none` also for a node that is in no table. -/
def symbolRemove (fuel : ℕ) (n : N) : Option (SymbolTable N) :=
  match st.symtab n, st.name n with
  | true, some symname =>
      let symprev := st.previousSibling n
      let symnext := st.nextSibling n
      let st := (st.unlink symname symprev symnext).deleteAttributes n
      match symnext, symprev with
      | none, _ => some st
      | some x, none => (st.findHead fuel x).bind fun head => fixOvernames fuel st head 0
      | some _, some p => (st.findHead fuel p).bind fun head => fixOvernames fuel st head 0
  | _, _ => none

end SymbolTable

end Swig
