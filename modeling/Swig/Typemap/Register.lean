import Swig.Typemap.Search
import Swig.SType.TypeStr

/-!
Typemaps of several parameters: `Swig_typemap_register`, `Swig_typemap_clear` and
`typemap_search_multi` (`typemap.c`). The typemap is a method of the last parameter,
and the parameters before it are written into the name of the method.
-/

namespace Swig.Typemap

open DOH SType

/-- The operator for the parameters after `p`; a null pointer prints nothing. -/
def newop (tmap_method : List Byte) (p : Parm) : List Byte :=
  tmap_method ++ (chr '-' :: (p.type ++ (chr '+' :: (p.name.getD [] ++ [chr ':']))))

/-- The methods of a type, or the hash of a parameter name. -/
def TypeHash.slot (tm : TypeHash) : Option (List Byte) → Option (StringTable Method)
  | none => some tm.methods
  | some name => tm.names.get name

def TypeHash.setSlot (tm : TypeHash) (name : Option (List Byte)) (tm1 : StringTable Method) : TypeHash :=
  match name with
  | none => { tm with methods := tm1 }
  | some name => { tm with names := tm.names.set name tm1 }

/-- The attributes that are set on the hash of the last parameter's method; it keeps
its `pname` when there is no name. -/
def Method.filled (tmap_method : List Byte) (p : Parm) (code : Option (List Byte)) (locals : List Parm)
    (kwargs : List Kwarg) (tm2 : Method) : Method where
  code := code
  type := some p.type
  typemap := some (lit "typemap(" ++ tmap_method ++ lit ") " ++ str p.type (p.name.getD []))
  pname := p.name.or tm2.pname
  locals := locals
  kwargs := kwargs

/-- `Delattr` of what `Swig_typemap_clear` deletes. -/
def Method.cleared (tm : Method) : Method := { tm with code := none, locals := [], kwargs := [] }

namespace Typemaps

variable (f : TypeFns) (T : Typemaps)

/-- The hashes of a type, its name and the method, which are made where they are not
there, and a change of the last one. -/
def touch (tm_method : List Byte) (p : Parm) (change : Method → Method) : Typemaps :=
  let (k, tm) := (T.getTypemap f T.tm_scope p.type).getD (f.key p.type, .new)
  let tm1 := (tm.slot p.name).getD .new
  let tm2 := (tm1.get tm_method).getD .new
  T.setScope T.tm_scope k (tm.setSlot p.name (tm1.set tm_method (change tm2)))

/-- `Swig_typemap_register`. -/
def register (T : Typemaps) (tmap_method : List Byte) (parms : List Parm) (code : Option (List Byte))
    (locals : List Parm) (kwargs : List Kwarg) : Typemaps :=
  match parms with
  | [] => T
  | [p] => T.touch f (methodName tmap_method) p (.filled tmap_method p code locals kwargs)
  | p :: np :: ps =>
      register (T.touch f (methodName tmap_method) p id) (newop tmap_method p) (np :: ps) code locals kwargs

/-- `typemap_get`. -/
def typemapGet (type : SwigType) (name : Option (List Byte)) (scope : ℕ) : Option (StringTable Method) :=
  if T.tm_scope < scope then none else (T.getTypemap f scope type).bind fun tm => tm.2.slot (cnameOf name)

/-- The loop of `Swig_typemap_clear`: the last parameter and `newop`, unless a parameter is
not found. -/
def clearLoop (newop : List Byte) : List Parm → Option (Parm × List Byte)
  | [] => none
  | p :: ps =>
      match T.typemapGet f p.type p.name T.tm_scope with
      | none => none
      | some _ =>
          match ps with
          | [] => some (p, newop)
          | _ :: _ => clearLoop (Typemap.newop newop p) ps

/-- `Delattr` on the hash of a method, if it is there. -/
def clearAt (p : Parm) (tm_method : List Byte) : Option Typemaps := do
  let (k, tm) ← T.getTypemap f T.tm_scope p.type
  let tm1 ← tm.slot (cnameOf p.name)
  let tm2 ← tm1.get tm_method
  return T.setScope T.tm_scope k (tm.setSlot (cnameOf p.name) (tm1.set tm_method tm2.cleared))

/-- `Swig_typemap_clear`. -/
def clear (tmap_method : List Byte) (parms : List Parm) : Typemaps :=
  match T.clearLoop f tmap_method parms with
  | none => T
  | some (p, newop) => (T.clearAt f p (methodName newop)).getD T

/-- `typemap_search_multi`: the typemap and `*nmatch`. The number of points of each
search is bounded by `fuel`. -/
def searchMulti (fuel : ℕ) (tmap_method : List Byte) : List Parm → ℕ → Option (Option Method × ℕ)
  | [], _ => some (none, 0)
  | p :: ps, nmatch => do
      match (← typemapSearch f T fuel tmap_method p.type p.name).1 with
      | none => return (none, nmatch)
      | some tm =>
          let (tm1, nmatch) ← searchMulti fuel (newop tmap_method p) ps nmatch
          let tm := tm1.getD tm
          return if tm.code.isSome then (some tm, nmatch + 1) else (none, nmatch)

end Typemaps

end Swig.Typemap
