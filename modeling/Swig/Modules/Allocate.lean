import Mathlib.Data.List.Basic
import Mathlib.Logic.Function.Basic
import Mathlib.Tactic.Common

/-!
The special members of classes as the Allocate pass marks them, for C++ input.

A class is told apart by its node. The attributes `allocate:...` a class may have
are booleans; `abstract` says whether the class has a list of pure methods after
`is_abstract_inherit`. `%extend` blocks and smart pointers are left out.
-/

namespace Swig.Allocate

/-- `cplus_mode`. -/
inductive Access
  | PUBLIC
  | PRIVATE
  | PROTECTED
  deriving DecidableEq

/-- A parameter of a constructor: whether it has a default value and whether its
type is `void`. -/
structure Parm where
  value : Bool
  void : Bool
  deriving DecidableEq

/-- `ParmList_numrequired`. -/
def numrequired : List Parm → ℕ
  | [] => 0
  | p :: ps => if p.value then 0 else if p.void then 0 else numrequired ps + 1

/-- A member of a class. `copyType` says that the type of the first parameter is
one of those the pass compares it with. -/
inductive Member
  | accessDeclaration (kind : Access)
  | constructorDeclaration (parms : List Parm) (copyType : Bool)
  | destructorDeclaration
  | cDeclaration (name : String)
  deriving DecidableEq

/-- A class node; the lists of bases by the access they are inherited with. -/
structure Class (C : Type) where
  isclass : Bool
  children : List Member
  bases : List C
  protectedbases : List C
  privatebases : List C
  abstract : Bool

/-- The list `allbases` made by the typedef pass. -/
def Class.allbases {C : Type} (n : Class C) : List C := n.bases ++ n.protectedbases ++ n.privatebases

/-- The attributes `allocate:...` of a class. -/
structure Flags where
  default_constructor : Bool
  default_base_constructor : Bool
  has_constructor : Bool
  public_constructor : Bool
  copy_constructor : Bool
  copy_base_constructor : Bool
  has_copy_constructor : Bool
  default_destructor : Bool
  default_base_destructor : Bool
  has_destructor : Bool
  noassign : Bool
  has_assign : Bool
  nonew : Bool
  has_new : Bool
  deriving DecidableEq

def Flags.none : Flags :=
  ⟨false, false, false, false, false, false, false, false, false, false, false, false, false, false⟩

/-! ### Members -/

/-- `constructorDeclaration`. -/
def constructorDeclaration (cplus_mode : Access) (parms : List Parm) (copyType : Bool) (fl : Flags) : Flags :=
  let fl :=
    if numrequired parms = 0 then
      match cplus_mode with
      | .PUBLIC => { fl with default_constructor := true }
      | .PROTECTED => { fl with default_base_constructor := true }
      | .PRIVATE => fl
    else fl
  let fl := { fl with has_constructor := true }
  let fl := if cplus_mode = .PUBLIC then { fl with public_constructor := true } else fl
  if parms ≠ [] ∧ numrequired parms = 1 ∧ copyType then
    let fl := { fl with has_copy_constructor := true }
    match cplus_mode with
    | .PUBLIC => { fl with copy_constructor := true }
    | .PROTECTED => { fl with copy_base_constructor := true }
    | .PRIVATE => fl
  else fl

/-- `destructorDeclaration`. -/
def destructorDeclaration (cplus_mode : Access) (fl : Flags) : Flags :=
  let fl := { fl with has_destructor := true }
  match cplus_mode with
  | .PUBLIC => { fl with default_destructor := true }
  | .PROTECTED => { fl with default_base_destructor := true }
  | .PRIVATE => fl

/-- `cDeclaration`, for the two operators it looks for. -/
def cDeclaration (cplus_mode : Access) (name : String) (fl : Flags) : Flags :=
  if cplus_mode ≠ .PUBLIC then
    if name = "operator =" then { fl with has_assign := true, noassign := true }
    else if name = "operator new" then { fl with has_new := true, nonew := true }
    else fl
  else if name = "operator =" then { fl with has_assign := true }
  else if name = "operator new" then { fl with has_new := true }
  else fl

/-- One member, with the mode it leaves behind. -/
def emitMember : Access × Flags → Member → Access × Flags
  | (_, fl), .accessDeclaration kind => (kind, fl)
  | (mode, fl), .constructorDeclaration parms copyType => (mode, constructorDeclaration mode parms copyType fl)
  | (mode, fl), .destructorDeclaration => (mode, destructorDeclaration mode fl)
  | (mode, fl), .cDeclaration name => (mode, cDeclaration mode name fl)

/-- `emit_children`, from the mode the kind of the class gives. -/
def emit_children {C : Type} (n : Class C) (fl : Flags) : Flags :=
  (n.children.foldl emitMember (if n.isclass then .PRIVATE else .PUBLIC, fl)).2

/-! ### Classes -/

/-- The loop over the bases for `noassign` and `nonew`: the last base that has the
operator decides. -/
def allowsAfter (has not : Flags → Bool) (bases : List Flags) : Bool :=
  bases.foldl (fun allows b => if has b then !not b else allows) true

section CheckBases

variable {C : Type} (n : Class C) (bases : List Flags) (fl : Flags)

/-- The checks of `classDeclaration` behind the members, with the attributes of the
bases: the default constructor. -/
def checkDefaultConstructor : Flags :=
  if fl.has_constructor then fl
  else
    let fl := if n.abstract then { fl with default_constructor := false } else fl
    if fl.default_constructor then fl
    else if bases.all fun b => b.default_constructor || b.default_base_constructor then
      { fl with default_constructor := true }
    else fl

def checkCopyConstructor : Flags :=
  if fl.has_copy_constructor then fl
  else
    let fl := if n.abstract then { fl with copy_constructor := false } else fl
    if fl.copy_constructor then fl
    else if bases.all fun b => b.copy_constructor || b.copy_base_constructor then
      { fl with copy_constructor := true }
    else fl

def checkDestructor : Flags :=
  if fl.has_destructor then fl
  else if bases.all fun b => b.default_destructor || b.default_base_destructor then
    { fl with default_destructor := true }
  else fl

def checkAssign : Flags :=
  if fl.has_assign then fl
  else if allowsAfter Flags.has_assign Flags.noassign bases then fl
  else { fl with noassign := true }

def checkNew : Flags :=
  if fl.has_new then fl
  else if allowsAfter Flags.has_new Flags.nonew bases then fl
  else { fl with nonew := true }

/-- All the checks, in their order. -/
def checkBases : Flags :=
  let fl := checkDefaultConstructor n bases fl
  let fl := checkCopyConstructor n bases fl
  let fl := checkDestructor bases fl
  let fl := checkAssign bases fl
  checkNew bases fl

end CheckBases

variable {C : Type} [DecidableEq C]

/-- The attributes of all classes, and `allocate:visit`. -/
structure State (C : Type) where
  flags : C → Flags
  visit : C → Bool

def State.initial : State C := { flags := fun _ => .none, visit := fun _ => false }

/-- The second half of `classDeclaration`, when the public bases are visited. -/
def State.finish (cls : C → Class C) (st : State C) (n : C) : State C :=
  let st := { st with flags := Function.update st.flags n (emit_children (cls n) (st.flags n)) }
  { st with flags :=
      Function.update st.flags n (checkBases (cls n) ((cls n).allbases.map st.flags) (st.flags n)) }

/-- `classDeclaration`; `none` when the recursion is deeper than allowed. -/
def State.classDeclaration (cls : C → Class C) : ℕ → State C → C → Option (State C)
  | 0, _, _ => none
  | fuel + 1, st, n =>
      if st.visit n then some st
      else do
        let st := { st with visit := Function.update st.visit n true }
        let st ← (cls n).bases.foldlM (State.classDeclaration cls fuel) st
        return st.finish cls n

/-- `top`, over the class nodes of the parse tree. -/
def State.top (cls : C → Class C) (fuel : ℕ) (tree : List C) : Option (State C) :=
  tree.foldlM (State.classDeclaration cls fuel) .initial

/-! ### The order of the visits -/

/-- The classes in the order in which the pass is done with them. -/
def visitClass (cls : C → Class C) : ℕ → List C → C → Option (List C)
  | 0, _, _ => none
  | fuel + 1, done, n =>
      if n ∈ done then some done
      else ((cls n).bases.foldlM (visitClass cls fuel) done).map (· ++ [n])

def visitOrder (cls : C → Class C) (fuel : ℕ) (tree : List C) : Option (List C) :=
  tree.foldlM (visitClass cls fuel) []

/-- The class `b` is done before `n`. -/
def Before (order : List C) (b n : C) : Prop := b ∈ order.takeWhile (· ≠ n)

instance (order : List C) (b n : C) : Decidable (Before order b n) := inferInstanceAs (Decidable (_ ∈ _))

end Swig.Allocate
