import Swig.SType.TypeObj

/-!
The declarator rules of `parser.y`: their parse trees, the encoding that the
actions build from the name outwards, and the type that C++ gives the name.
-/

namespace Swig.CParse

open SType

/-! ### Parse trees -/

/-- `type_qualifier_raw`. -/
inductive QualifierRaw | const_qual | volatile | register
  deriving DecidableEq

inductive TypeQualifier
  | raw (q : QualifierRaw)
  | cons (q : QualifierRaw) (rest : TypeQualifier)
  deriving DecidableEq

inductive Pointer
  | starQualifierPointer (q : TypeQualifier) (p : Pointer)
  | starPointer (p : Pointer)
  | starQualifier (q : TypeQualifier)
  | star
  deriving DecidableEq

inductive NotsoDirect
  | idcolon (id : List Byte)
  | notIdcolon (id : List Byte)
  | parenIdcolon (id : List Byte)
  | parenPointer (p : Pointer) (d : NotsoDirect)
  | parenMember (cls : List Byte) (d : NotsoDirect)
  | arrayEmpty (d : NotsoDirect)
  | array (d : NotsoDirect) (val : List Byte)
  | function (d : NotsoDirect) (parms : List SwigType)
  deriving DecidableEq

inductive Direct
  | idcolon (id : List Byte)
  | notIdcolon (id : List Byte)
  | parenPointer (p : Pointer) (d : Direct)
  | parenAnd (d : Direct)
  | parenMember (cls : List Byte) (d : Direct)
  | arrayEmpty (d : Direct)
  | array (d : Direct) (val : List Byte)
  | function (d : Direct) (parms : List SwigType)
  deriving DecidableEq

inductive Declarator
  | pointer (p : Pointer) (d : NotsoDirect)
  | pointerAnd (p : Pointer) (d : NotsoDirect)
  | direct (d : Direct)
  | and (d : NotsoDirect)
  | member (cls : List Byte) (d : NotsoDirect)
  | pointerMember (p : Pointer) (cls : List Byte) (d : NotsoDirect)
  | pointerMemberAnd (p : Pointer) (cls : List Byte) (d : NotsoDirect)
  | memberAnd (cls : List Byte) (d : NotsoDirect)
  deriving DecidableEq

mutual

inductive Abstract
  | pointer (p : Pointer)
  | pointerDirect (p : Pointer) (d : DirectAbstract)
  | pointerAnd (p : Pointer)
  | pointerAndDirect (p : Pointer) (d : DirectAbstract)
  | direct (d : DirectAbstract)
  | andDirect (d : DirectAbstract)
  | and
  | member (cls : List Byte)
  | pointerMember (p : Pointer) (cls : List Byte)
  | pointerMemberDirect (p : Pointer) (cls : List Byte) (d : DirectAbstract)

inductive DirectAbstract
  | directArrayEmpty (d : DirectAbstract)
  | directArray (d : DirectAbstract) (val : List Byte)
  | arrayEmpty
  | array (val : List Byte)
  | paren (d : Abstract)
  | directFunction (d : DirectAbstract) (parms : List SwigType)
  | function (parms : List SwigType)

end

/-! ### Semantic actions -/

/-- The value of a declarator. -/
structure Decl where
  id : Option (List Byte)
  type : Option SwigType
  parms : Option (List SwigType)
  have_parms : Bool
  deriving DecidableEq

namespace Decl

/-- `$$.id = id; $$.type = 0; $$.parms = 0; $$.have_parms = 0;` -/
def name (id : List Byte) : Decl := ⟨some id, none, none, false⟩

/-- A declarator without a name. -/
def noName (type : SwigType) : Decl := ⟨none, some type, none, false⟩

/-- `if ($$.type) SwigType_push(t, $$.type); $$.type = t;` -/
def wrap (t : SwigType) (d : Decl) : Decl :=
  { d with type := some (match d.type with
    | none => t
    | some type => push t type) }

/-- The action of a parameter list, which also keeps the list nearest to the name. -/
def addFunction (parms : List SwigType) (d : Decl) : Decl :=
  let d := if d.have_parms then d else { d with parms := some parms, have_parms := true }
  d.wrap (SType.addFunction [] parms)

end Decl

def QualifierRaw.value : QualifierRaw → Option (List Byte)
  | .const_qual => some (lit "const")
  | .volatile => some (lit "volatile")
  | .register => none

/-- `if ($1) SwigType_add_qualifier($$,$1);` -/
def QualifierRaw.addTo (q : QualifierRaw) (t : SwigType) : Option SwigType :=
  match q.value with
  | none => some t
  | some qual => addQualifier t qual

def TypeQualifier.value : TypeQualifier → Option SwigType
  | .raw q => q.addTo []
  | .cons q rest => rest.value.bind q.addTo

def Pointer.value : Pointer → Option SwigType
  | .starQualifierPointer q p =>
      q.value.bind fun q => p.value.map fun p => push (push (addPointer []) q) p
  | .starPointer p => p.value.map (push (addPointer []))
  | .starQualifier q => q.value.map (push (addPointer []))
  | .star => some (addPointer [])

def NotsoDirect.value : NotsoDirect → Option Decl
  | .idcolon id => some (.name id)
  | .notIdcolon id => some (.name (chr '~' :: id))
  | .parenIdcolon id => some (.name id)
  | .parenPointer p d => p.value.bind fun p => d.value.map (Decl.wrap p)
  | .parenMember cls d => d.value.map (Decl.wrap (addMemberpointer [] cls))
  | .arrayEmpty d => (addArray [] []).bind fun t => d.value.map (Decl.wrap t)
  | .array d val => (addArray [] val).bind fun t => d.value.map (Decl.wrap t)
  | .function d parms => d.value.map (Decl.addFunction parms)

def Direct.value : Direct → Option Decl
  | .idcolon id => some (.name id)
  | .notIdcolon id => some (.name (chr '~' :: id))
  | .parenPointer p d => p.value.bind fun p => d.value.map (Decl.wrap p)
  | .parenAnd d => d.value.map fun d => { d with type := some (addReference (d.type.getD [])) }
  | .parenMember cls d => d.value.map (Decl.wrap (addMemberpointer [] cls))
  | .arrayEmpty d => (addArray [] []).bind fun t => d.value.map (Decl.wrap t)
  | .array d val => (addArray [] val).bind fun t => d.value.map (Decl.wrap t)
  | .function d parms => d.value.map (Decl.addFunction parms)

def Declarator.value : Declarator → Option Decl
  | .pointer p d => p.value.bind fun p => d.value.map (Decl.wrap p)
  | .pointerAnd p d => p.value.bind fun p => d.value.map (Decl.wrap (addReference p))
  | .direct d => d.value.map fun d => { d with type := some (d.type.getD []) }
  | .and d => d.value.map (Decl.wrap (addReference []))
  | .member cls d => d.value.map (Decl.wrap (addMemberpointer [] cls))
  | .pointerMember p cls d =>
      p.value.bind fun p => d.value.map (Decl.wrap (push p (addMemberpointer [] cls)))
  | .pointerMemberAnd p cls d =>
      p.value.bind fun p => d.value.map (Decl.wrap (addReference (addMemberpointer p cls)))
  | .memberAnd cls d => d.value.map (Decl.wrap (addReference (addMemberpointer [] cls)))

mutual

def Abstract.value : Abstract → Option Decl
  | .pointer p => p.value.map Decl.noName
  | .pointerDirect p d => p.value.bind fun p => d.value.map (Decl.wrap p)
  | .pointerAnd p => p.value.map fun p => Decl.noName (addReference p)
  | .pointerAndDirect p d => p.value.bind fun p => d.value.map (Decl.wrap (addReference p))
  | .direct d => d.value
  | .andDirect d => d.value.map (Decl.wrap (addReference []))
  | .and => some (.noName (addReference []))
  | .member cls => some (.noName (addMemberpointer [] cls))
  | .pointerMember p cls => p.value.map fun p => Decl.noName (push p (addMemberpointer [] cls))
  | .pointerMemberDirect p cls d => p.value.bind fun p => d.value.map (Decl.wrap (addMemberpointer p cls))

def DirectAbstract.value : DirectAbstract → Option Decl
  | .directArrayEmpty d => (addArray [] []).bind fun t => d.value.map (Decl.wrap t)
  | .directArray d val => (addArray [] val).bind fun t => d.value.map (Decl.wrap t)
  | .arrayEmpty => (addArray [] []).map Decl.noName
  | .array val => (addArray [] val).map Decl.noName
  | .paren d => d.value
  | .directFunction d parms => d.value.map (Decl.addFunction parms)
  | .function parms => some ⟨none, some (SType.addFunction [] parms), some parms, true⟩

end

/-! ### The types of C++ -/

/-- A type over a base; the parameters of a function are given by their encodings. -/
inductive CppType
  | base (name : List Byte)
  | pointer (const volatile : Bool) (t : CppType)
  | reference (t : CppType)
  | memberPointer (cls : List Byte) (t : CppType)
  | array (size : List Byte) (t : CppType)
  | function (parms : List SwigType) (t : CppType)
  deriving DecidableEq

/-- The qualifiers of a pointer in an encoding. -/
def qualifierText : Bool → Bool → List Byte
  | false, false => []
  | true, false => lit "q(const)."
  | false, true => lit "q(volatile)."
  | true, true => lit "q(const volatile)."

/-- The encoding of a type, which reads like its description in words. -/
def CppType.encode : CppType → SwigType
  | .base name => name
  | .pointer const volatile t => qualifierText const volatile ++ (lit "p." ++ t.encode)
  | .reference t => lit "r." ++ t.encode
  | .memberPointer cls t => lit "m(" ++ cls ++ lit ")." ++ t.encode
  | .array size t => lit "a(" ++ size ++ lit ")." ++ t.encode
  | .function parms t => lit "f(" ++ (lit ",").intercalate parms ++ lit ")." ++ t.encode

def CppType.isReference : CppType → Bool
  | .reference _ => true
  | _ => false

def CppType.isArray : CppType → Bool
  | .array _ _ => true
  | _ => false

def CppType.isFunction : CppType → Bool
  | .function _ _ => true
  | _ => false

/-- No pointer, reference or array of references, no array of functions, and no
function that returns an array or a function. -/
def CppType.Legal : CppType → Prop
  | .base _ => True
  | .pointer _ _ t => t.isReference = false ∧ t.Legal
  | .reference t => t.isReference = false ∧ t.Legal
  | .memberPointer _ t => t.isReference = false ∧ t.Legal
  | .array _ t => t.isReference = false ∧ t.isFunction = false ∧ t.Legal
  | .function _ t => t.isArray = false ∧ t.isFunction = false ∧ t.Legal

def TypeQualifier.has (q : QualifierRaw) : TypeQualifier → Bool
  | .raw q' => q' = q
  | .cons q' rest => q' = q || rest.has q

/-- `*` with these qualifiers. -/
def TypeQualifier.point (q : TypeQualifier) (t : CppType) : CppType :=
  .pointer (q.has .const_qual) (q.has .volatile) t

/-- Pointer operators are applied from left to right. -/
def Pointer.apply : Pointer → CppType → CppType
  | .starQualifierPointer q p, t => p.apply (q.point t)
  | .starPointer p, t => p.apply (.pointer false false t)
  | .starQualifier q, t => q.point t
  | .star, t => .pointer false false t

/-- The type of the name in a declaration `t d`. -/
def NotsoDirect.declares : NotsoDirect → CppType → CppType
  | .idcolon _, t => t
  | .notIdcolon _, t => t
  | .parenIdcolon _, t => t
  | .parenPointer p d, t => d.declares (p.apply t)
  | .parenMember cls d, t => d.declares (.memberPointer cls t)
  | .arrayEmpty d, t => d.declares (.array [] t)
  | .array d val, t => d.declares (.array val t)
  | .function d parms, t => d.declares (.function parms t)

def Direct.declares : Direct → CppType → CppType
  | .idcolon _, t => t
  | .notIdcolon _, t => t
  | .parenPointer p d, t => d.declares (p.apply t)
  | .parenAnd d, t => d.declares (.reference t)
  | .parenMember cls d, t => d.declares (.memberPointer cls t)
  | .arrayEmpty d, t => d.declares (.array [] t)
  | .array d val, t => d.declares (.array val t)
  | .function d parms, t => d.declares (.function parms t)

def Declarator.declares : Declarator → CppType → CppType
  | .pointer p d, t => d.declares (p.apply t)
  | .pointerAnd p d, t => d.declares (.reference (p.apply t))
  | .direct d, t => d.declares t
  | .and d, t => d.declares (.reference t)
  | .member cls d, t => d.declares (.memberPointer cls t)
  | .pointerMember p cls d, t => d.declares (.memberPointer cls (p.apply t))
  | .pointerMemberAnd p cls d, t => d.declares (.reference (.memberPointer cls (p.apply t)))
  | .memberAnd cls d, t => d.declares (.reference (.memberPointer cls t))

mutual

def Abstract.declares : Abstract → CppType → CppType
  | .pointer p, t => p.apply t
  | .pointerDirect p d, t => d.declares (p.apply t)
  | .pointerAnd p, t => .reference (p.apply t)
  | .pointerAndDirect p d, t => d.declares (.reference (p.apply t))
  | .direct d, t => d.declares t
  | .andDirect d, t => d.declares (.reference t)
  | .and, t => .reference t
  | .member cls, t => .memberPointer cls t
  | .pointerMember p cls, t => .memberPointer cls (p.apply t)
  | .pointerMemberDirect p cls d, t => d.declares (.memberPointer cls (p.apply t))

def DirectAbstract.declares : DirectAbstract → CppType → CppType
  | .directArrayEmpty d, t => d.declares (.array [] t)
  | .directArray d val, t => d.declares (.array val t)
  | .arrayEmpty, t => .array [] t
  | .array val, t => .array val t
  | .paren d, t => d.declares t
  | .directFunction d parms, t => d.declares (.function parms t)
  | .function parms, t => .function parms t

end

end Swig.CParse
