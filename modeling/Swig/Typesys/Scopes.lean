import Swig.DOH.StringTable
import Swig.Lib.ByteBlock

/-!
The type scopes of `typesys.c` and the functions that build and walk them. A
scope is a hash table; scopes are named here by the order they are made in, the
global scope first.
-/

namespace Swig.Typesys

open Swig.DOH ByteBlock

/-- The attributes of a scope. -/
structure Typetab (S : Type) where
  name : List Byte
  qname : Option (List Byte)
  parent : Option S
  typetab : StringTable (List Byte)
  inherit : List S
  using_ : List S

/-- The static variables of `typesys.c`. Scopes from `next` on are not made yet. -/
structure Scopes where
  tab : ℕ → Typetab ℕ
  next : ℕ
  current_scope : ℕ
  scopes : StringTable ℕ
  current_lt : current_scope < next
  parent_lt : ∀ s p, (tab s).parent = some p → p < s

def Scopes.global_scope : ℕ := 0

/-- A scope with nothing in it. -/
def Typetab.fresh (name : List Byte) (qname : Option (List Byte)) (parent : Option ℕ) : Typetab ℕ where
  name := name
  qname := qname
  parent := parent
  typetab := .new
  inherit := []
  using_ := []

/-- `SwigType_typesystem_init`. -/
def typesystemInit : Scopes where
  tab _ := .fresh [] none none
  next := 1
  current_scope := Scopes.global_scope
  scopes := StringTable.new.set [] Scopes.global_scope
  current_lt := Nat.one_pos
  parent_lt _ _ h := by cases h

namespace Scopes

/-- The loop of `SwigType_scope_name` over the scopes around one. -/
def scopeNameLoop (st : Scopes) (ttab : Option ℕ) (qname : List Byte) : List Byte :=
  match ttab with
  | none => qname
  | some s =>
      let pname := (st.tab s).name
      st.scopeNameLoop (st.tab s).parent (if pname = [] then qname else pname ++ lit "::" ++ qname)
termination_by ttab.elim 0 (· + 1)
decreasing_by
  cases hp : (st.tab s).parent with
  | none => simp
  | some p => simpa using st.parent_lt s p hp

/-- `SwigType_scope_name` of a scope with this name and parent. -/
def scopeName (st : Scopes) (name : List Byte) (parent : Option ℕ) : List Byte :=
  st.scopeNameLoop parent name

/-- `SwigType_new_scope`. -/
def newScope (st : Scopes) (name : Option (List Byte)) : Scopes :=
  let name := name.getD (lit "<unnamed>")
  let qname := st.scopeName name (some st.current_scope)
  { tab := Function.update st.tab st.next (.fresh name (some qname) (some st.current_scope))
    next := st.next + 1
    current_scope := st.next
    scopes := st.scopes.set qname st.next
    current_lt := Nat.lt_succ_self _
    parent_lt := fun s p h => by
      rcases eq_or_ne s st.next with rfl | hs
      · rw [Function.update_self] at h
        cases h
        exact st.current_lt
      · rw [Function.update_of_ne hs] at h
        exact st.parent_lt s p h }

/-- The current scope with other attributes, its parent apart. -/
def setCurrent (st : Scopes) (t : Typetab ℕ) (hparent : t.parent = (st.tab st.current_scope).parent) :
    Scopes :=
  { st with
    tab := Function.update st.tab st.current_scope t
    parent_lt := fun s p h => by
      rcases eq_or_ne s st.current_scope with rfl | hs
      · rw [Function.update_self, hparent] at h
        exact st.parent_lt _ p h
      · rw [Function.update_of_ne hs] at h
        exact st.parent_lt s p h }

/-- Appends a scope to a list unless it is there. -/
def addScope (l : List ℕ) (scope : ℕ) : List ℕ := if scope ∈ l then l else l ++ [scope]

/-- `SwigType_inherit_scope`; `none` is a failed assertion. -/
def inheritScope (st : Scopes) (scope : ℕ) : Option Scopes :=
  let t := st.tab st.current_scope
  if scope = st.current_scope then none
  else some (st.setCurrent { t with inherit := addScope t.inherit scope } rfl)

/-- `SwigType_using_scope`. -/
def usingScope (st : Scopes) (scope : ℕ) : Option Scopes :=
  (st.inheritScope scope).bind fun st =>
    let t := st.tab st.current_scope
    if scope = st.current_scope then none
    else some (st.setCurrent { t with using_ := addScope t.using_ scope } rfl)

/-- `SwigType_pop_scope`. -/
def popScope (st : Scopes) : Scopes :=
  { st with
    current_scope := ((st.tab st.current_scope).parent).getD global_scope
    current_lt := by
      cases h : (st.tab st.current_scope).parent with
      | none => exact Nat.zero_lt_of_lt st.current_lt
      | some p => exact (st.parent_lt _ p h).trans st.current_lt }

/-- `SwigType_set_scope`, on a scope that was made before. -/
def setScope (st : Scopes) (t : Option ℕ) (ht : ∀ s ∈ t, s < st.next) : Scopes :=
  { st with
    current_scope := t.getD global_scope
    current_lt := by
      cases t with
      | none => exact Nat.zero_lt_of_lt st.current_lt
      | some s => exact ht s rfl }

end Scopes

/-- The calls that build scopes. -/
inductive ScopeOp
  | new_scope (name : Option (List Byte))
  | pop_scope
  | set_scope (t : Option ℕ)
  | using_scope (scope : ℕ)
  deriving DecidableEq

/-- One call; `none` when the argument is no scope or an assertion fails. -/
def Scopes.call (st : Scopes) : ScopeOp → Option Scopes
  | .new_scope name => some (st.newScope name)
  | .pop_scope => some st.popScope
  | .set_scope t => if ht : ∀ s ∈ t, s < st.next then some (st.setScope t ht) else none
  | .using_scope scope => if scope < st.next then st.usingScope scope else none

/-- The calls made after `SwigType_typesystem_init`. -/
def buildScopes (ops : List ScopeOp) : Option Scopes := ops.foldlM Scopes.call typesystemInit

/-- `SwigType_istemplate`. -/
def istemplate (t : List Byte) : Bool :=
  match indexOf (lit "<(") t with
  | none => false
  | some i => (indexOf (lit ")>") (t.drop (i + 2))).isSome

end Swig.Typesys
