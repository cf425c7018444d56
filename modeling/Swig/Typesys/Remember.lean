import Swig.DOH.StringTable
import Swig.Runtime.TypeInfo

/-!
The tables of `typesys.c` on which types are used and which classes derive from
which, and the functions that fill them. A table that has not been made yet is
an empty one here.
-/

namespace Swig.Typesys

open Swig.DOH Swig.Runtime

/-- The functions on type strings. What they give depends on the typedefs and
scopes known at the time. -/
structure TypeFns where
  manglestr : Name → Name
  ltype : Name → Name
  istypedef : Name → Bool
  typedef_resolve_all : Name → Name
  typedef_qualified : Name → Name
  strip_qualifiers : Name → Name
  base : Name → Name
  typePrefix : Name → Name
  lstr : Name → Name
  istemplate : Name → Bool
  template_deftype : Name → Name

/-- How a class is cast to a base. -/
structure Subclass where
  cast : Option Name
  convcode : Option Name
  deriving DecidableEq

structure Tables where
  r_mangled : StringTable (StringTable Name)
  r_resolved : StringTable (StringTable Name)
  r_ltype : StringTable (StringTable Name)
  r_clientdata : StringTable Name
  r_mangleddata : StringTable Name
  r_remembered : StringTable Name
  subclass : StringTable (StringTable Subclass)
  conversions : StringTable Name

namespace Tables

def empty : Tables := ⟨.new, .new, .new, .new, .new, .new, .new, .new⟩

end Tables

/-- `h = Getattr(t, k); if (!h) { h = NewHash(); Setattr(t, k, h); } Setattr(h, k', v);` -/
def setIn {V : Type} [DecidableEq V] (t : StringTable (StringTable V)) (k k' : Name) (v : V) :
    StringTable (StringTable V) :=
  t.set k (((t.get k).getD .new).set k' v)

def isreference (t : Name) : Bool := (lit "r.").isPrefixOf t

/-- `SwigType_del_reference`, then `SwigType_add_pointer`. -/
def referenceToPointer (t : Name) : Name := lit "p." ++ t.drop 2

/-- `strchr(ct, '<') && !(strstr(ct, "<("))`. -/
def badTemplate (t : Name) : Bool :=
  t.contains (chr '<') && !t.tails.any fun s => (lit "<(").isPrefixOf s

theorem isreference_referenceToPointer (t : Name) : isreference (referenceToPointer t) = false := by
  rfl

/-- `SwigType_remember_mangleddata`. -/
def rememberMangleddata (T : Tables) (mangled clientdata : Name) : Tables :=
  { T with r_mangleddata := T.r_mangleddata.set mangled clientdata }

/-- The part of `SwigType_remember_clientdata` on `r_clientdata`; it fails when
the data is not the same as before. -/
def setClientdata (T : Tables) (fr : Name) : Option Name → Option Tables
  | none => some T
  | some clientdata =>
      match T.r_clientdata.get fr with
      | some cd => if clientdata = cd then some T else none
      | none => some { T with r_clientdata := T.r_clientdata.set fr clientdata }

/-- `SwigType_remember_clientdata`; no result when an assertion fails. -/
def rememberClientdata (f : TypeFns) (T : Tables) (t : Name) (clientdata : Option Name) :
    Option Tables :=
  if T.r_remembered.get t = clientdata ∧ clientdata.isSome then some T
  else do
    let T := { T with r_remembered := T.r_remembered.set t (clientdata.getD []) }
    let mt := f.manglestr t
    let lt := if f.istypedef t then t else f.ltype t
    let T := { T with r_ltype := setIn T.r_ltype mt lt (lit "1") }
    let fr := f.strip_qualifiers (f.typedef_qualified (f.typedef_resolve_all t))
    guard ¬badTemplate t
    let T := { T with r_mangled := setIn T.r_mangled mt fr mt }
    let T := { T with r_resolved := setIn T.r_resolved fr mt fr }
    let T ← setClientdata T fr clientdata
    -- a pointer is remembered together with the reference
    if isreference t then rememberClientdata f T (referenceToPointer t) clientdata else return T
termination_by (isreference t).toNat
decreasing_by
  rw [isreference_referenceToPointer]
  simp [*]

/-- `SwigType_inherit`. -/
def inherit (f : TypeFns) (T : Tables) (derived base : Name) (cast conversioncode : Option Name) :
    Tables :=
  let derived :=
    if f.istemplate derived then f.typedef_qualified (f.typedef_resolve_all derived) else derived
  let base := if f.istemplate base then f.typedef_qualified (f.typedef_resolve_all base) else base
  let h := (T.subclass.get base).getD .new
  let h := if (h.get derived).isSome then h else h.set derived ⟨cast, conversioncode⟩
  { T with subclass := T.subclass.set base h }

/-- A call into the type system that the tables depend on. -/
inductive Call
  | rememberMangleddata (mangled clientdata : Name)
  | rememberClientdata (f : TypeFns) (t : Name) (clientdata : Option Name)
  | inherit (f : TypeFns) (derived base : Name) (cast conversioncode : Option Name)

def Tables.call (T : Tables) : Call → Option Tables
  | .rememberMangleddata mangled clientdata => some (Typesys.rememberMangleddata T mangled clientdata)
  | .rememberClientdata f t clientdata => Typesys.rememberClientdata f T t clientdata
  | .inherit f derived base cast conversioncode =>
      some (Typesys.inherit f T derived base cast conversioncode)

end Swig.Typesys
