import Swig.DOH.CType
import Swig.Lib.ByteBlock

/-!
Types as strings of type constructors: `typeobj.c`. A constructor is added at the
front of the string; where the source leaves a buffer of fixed size or reads bytes
that were not written, the result here is `none`.
-/

namespace Swig.SType

open ByteBlock

/-- A type, or the constructors of a type without its base. -/
abbrev SwigType := List Byte

/-- `SwigType_push` of constructors that are not a null pointer. -/
def push (t cons : SwigType) : SwigType :=
  if cons = [] then t
  else if t ≠ [] ∧ cons.getLast? ≠ some (chr '.') then cons ++ chr '.' :: t
  else cons ++ t

/-! ### Elements -/

/-- The first element of a type and what follows it; `nparen` brackets are open. -/
def elementSplit : ℕ → SwigType → SwigType × SwigType
  | _, [] => ([], [])
  | 0, c :: cs =>
      if c = chr '.' then ([c], cs)
      else
        let r := elementSplit (if c = chr '(' then 1 else 0) cs
        (c :: r.1, r.2)
  | nparen + 1, c :: cs =>
      let r := elementSplit (if c = chr '(' then nparen + 2 else if c = chr ')' then nparen else nparen + 1) cs
      (c :: r.1, r.2)

/-- `element_size`. -/
def elementSize (t : SwigType) : ℕ := (elementSplit 0 t).1.length

/-! ### Constructors -/

def addPointer (t : SwigType) : SwigType := lit "p." ++ t

def addReference (t : SwigType) : SwigType := lit "r." ++ t

/-- `SwigType_add_qualifier`. Where the type has a qualifier, its element is copied to
`temp` without a terminator; only a search that ends in the bytes copied is defined. -/
def addQualifier (t : SwigType) (qual : List Byte) : Option SwigType :=
  if (lit "q(").isPrefixOf t then
    let temp := t.take (min (elementSize t) 256)
    if (indexOf qual temp).isSome then some t else none
  else some (lit "q(" ++ qual ++ lit ")." ++ t)

def addMemberpointer (t : SwigType) (name : List Byte) : SwigType := lit "m(" ++ name ++ lit ")." ++ t

/-- `SwigType_add_array`, which makes the element in a buffer of 512 bytes. -/
def addArray (t : SwigType) (size : List Byte) : Option SwigType :=
  if size.length + 5 ≤ 512 then some (lit "a(" ++ size ++ lit ")." ++ t) else none

/-- `SwigType_add_function`, given the types of the parameters. -/
def addFunction (t : SwigType) (parms : List SwigType) : SwigType :=
  lit "f(" ++ (lit ",").intercalate parms ++ lit ")." ++ t

/-! ### Tests -/

def isqualifier (t : SwigType) : Bool := (lit "q(").isPrefixOf t

def isreference (t : SwigType) : Bool := (lit "r.").isPrefixOf t

def ismemberpointer (t : SwigType) : Bool := (lit "m(").isPrefixOf t

def isarray (t : SwigType) : Bool := (lit "a(").isPrefixOf t

/-- What follows a qualifier, as `strchr(c, '.') + 1` finds it. -/
def skipQualifier (t : SwigType) : Option SwigType :=
  if isqualifier t then
    match t.dropWhile (· != chr '.') with
    | [] => none
    | _ :: rest => some rest
  else some t

def ispointer (t : SwigType) : Bool := (skipQualifier t).any (lit "p.").isPrefixOf

def isfunction (t : SwigType) : Bool := (skipQualifier t).any (lit "f(").isPrefixOf

end Swig.SType
