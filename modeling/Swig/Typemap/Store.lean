import Swig.DOH.StringTable
import Swig.Naming.NameObject
import Swig.SType.ArrayType

/-!
The store of typemaps (`typemap.c`): for each scope a hash of the types, and for each
type the typemaps of its methods, without and with a parameter name.
-/

namespace Swig.Typemap

open DOH SType Naming

/-- The functions on types that depend on the typedefs, classes and scopes known. -/
structure TypeFns where
  template_deftype : SwigType → SwigType
  type_qualify : SwigType → SwigType
  strip_qualifiers : SwigType → SwigType
  typedef_resolve : SwigType → Option SwigType
  default : SwigType → Option SwigType

structure Parm where
  type : SwigType
  name : Option (List Byte)
  value : Option (List Byte)
  deriving DecidableEq

/-- An attribute of a typemap. -/
structure Kwarg where
  name : List Byte
  value : Option (List Byte)
  deriving DecidableEq

/-- The hash of a typemap method; a list that is a null pointer is empty. -/
structure Method where
  code : Option (List Byte)
  type : Option SwigType
  typemap : Option (List Byte)
  pname : Option (List Byte)
  locals : List Parm
  kwargs : List Kwarg
  deriving DecidableEq

/-- `NewHash`. -/
def Method.new : Method := ⟨none, none, none, none, [], []⟩

/-- The hash of a type. Its keys for methods begin with `tmap:`, the others are parameter names. -/
structure TypeHash where
  methods : StringTable Method
  names : StringTable (StringTable Method)
  deriving DecidableEq

/-- `NewHash`. -/
def TypeHash.new : TypeHash := ⟨.new, .new⟩

/-- The hashes of the scopes, of which `tm_scope` is the innermost. -/
structure Typemaps where
  typemaps : ℕ → StringTable TypeHash
  tm_scope : ℕ

/-- The key of a type in the hash of a scope. -/
def TypeFns.key (f : TypeFns) (type : SwigType) : SwigType :=
  if istemplate type then f.type_qualify (f.template_deftype type) else type

namespace Typemaps

variable (f : TypeFns) (T : Typemaps)

/-- `get_typemap`, with the key that the hash is found under. -/
def getTypemap (tm_scope : ℕ) (type : SwigType) : Option (SwigType × TypeHash) :=
  let t := T.typemaps tm_scope
  match t.get (f.key type) with
  | some tm => some (f.key type, tm)
  | none =>
      if istemplate type ∧ templatePrefix (f.key type) ≠ f.key type then
        (t.get (templatePrefix (f.key type))).map (templatePrefix (f.key type), ·)
      else none

/-- `Setattr(typemaps[tm_scope], type, tm)`. -/
def setScope (tm_scope : ℕ) (type : SwigType) (tm : TypeHash) : Typemaps :=
  { T with typemaps := Function.update T.typemaps tm_scope ((T.typemaps tm_scope).set type tm) }

/-- `set_typemap`. -/
def setTypemap (tm_scope : ℕ) (type : SwigType) (tm : TypeHash) : Typemaps := T.setScope tm_scope (f.key type) tm

end Typemaps

/-- `typemap_method_name`. -/
def methodName (tmap_method : List Byte) : List Byte := lit "tmap:" ++ tmap_method

end Swig.Typemap
