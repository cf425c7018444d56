import Swig.SType.TypeObj
import Mathlib.Data.List.DropRight

/-!
The C text of a type: `SwigType_split`, `SwigType_parm` and `SwigType_parmlist` of
`typeobj.c`, and `SwigType_str` and `SwigType_namestr` of `stype.c`.
-/

namespace Swig.SType

open ByteBlock

/-! ### Parts of a type -/

/-- The loop of `SwigType_split`, for at most `n` elements. -/
def splitAux : ℕ → SwigType → List SwigType
  | _, [] => []
  | 0, _ :: _ => []
  | n + 1, c :: cs =>
      let r := elementSplit 0 (c :: cs)
      r.1 :: splitAux n (if r.2.head? = some (chr '.') then r.2.tail else r.2)

/-- `SwigType_split`. -/
def split (t : SwigType) : List SwigType := splitAux t.length t

/-- Up to the parenthesis that closes the one before the text; `nparens` more are open. -/
def insideParens : ℕ → SwigType → SwigType
  | _, [] => []
  | 0, c :: cs => if c = chr ')' then [] else c :: insideParens (if c = chr '(' then 1 else 0) cs
  | nparens + 1, c :: cs =>
      c :: insideParens (if c = chr ')' then nparens else if c = chr '(' then nparens + 2 else nparens + 1) cs

/-- `SwigType_parm`: `none` is a null pointer. -/
def parm (t : SwigType) : Option SwigType :=
  match t.dropWhile fun c => c != chr '(' && c != chr '.' with
  | [] => none
  | c :: cs => if c = chr '.' then none else some (insideParens 0 cs)

/-- The items of a parameter list behind its opening parenthesis; `item` is the part of
the current item that was passed, and `nparens` parentheses are open in it. -/
def parmItems : ℕ → SwigType → SwigType → List SwigType
  | _, item, [] => if item = [] then [] else [item]
  | 0, item, c :: cs =>
      if c = chr ',' then item :: parmItems 0 [] cs
      else if c = chr ')' then (if item = [] then [] else [item])
      else parmItems (if c = chr '(' then 1 else 0) (item ++ [c]) cs
  | nparens + 1, item, c :: cs =>
      parmItems (if c = chr '(' then nparens + 2 else if c = chr ')' then nparens else nparens + 1) (item ++ [c]) cs

/-- `SwigType_parmlist`: `none` is a null pointer, or the assertion that no `.` stands
before the list. -/
def parmlist (p : SwigType) : Option (List SwigType) :=
  match p.dropWhile fun c => c != chr '(' && c != chr '.' with
  | [] => none
  | c :: cs => if c = chr '.' then none else some (parmItems 0 [] cs)

/-- What follows the `nest` brackets that are open. -/
def afterBrackets : ℕ → SwigType → SwigType
  | 0, cs => cs
  | _, [] => []
  | nest + 1, c :: cs =>
      afterBrackets (if c = chr '<' then nest + 2 else if c = chr '>' then nest else nest + 1) cs

/-- `SwigType_templatesuffix`. -/
def templatesuffix : SwigType → SwigType
  | [] => []
  | c :: cs => if c = chr '<' ∧ cs.head? = some (chr '(') then afterBrackets 1 cs else templatesuffix cs

/-! ### The text of a type -/

/-- `Chop`. -/
def chop (s : List Byte) : List Byte := s.rdropWhile isspace

/-- `SwigType_namestr`, with `str` for the text of a type. -/
def namestrWith (str : SwigType → List Byte) (t : SwigType) : List Byte :=
  match indexOf (lit "<(") t with
  | none => t
  | some i =>
      if (indexOf (lit ")>") (t.drop (i + 2))).isNone then t
      else
        let strs := ((parmlist (t.drop (i + 1))).getD []).map str
        let r := t.take i ++ (if (t.take i).getLast? = some (chr '<') then lit " " else []) ++ lit "<"
        -- no `<:` token, which is the same as `[`
        let r := r ++ (if strs.head?.getD [] ≠ [] then lit " " else []) ++ (lit ",").intercalate strs
        r ++ lit " >" ++ templatesuffix t

/-- One round of the loop of `SwigType_str`. -/
def strElement (str : SwigType → List Byte) (result : List Byte) (element : SwigType) (nextelement : Option SwigType) :
    List Byte :=
  let wrap (result : List Byte) : List Byte :=
    if nextelement.any fun e => isfunction e || isarray e then lit "(" ++ result ++ lit ")" else result
  let q := (parm element).getD []
  if isqualifier element then q ++ lit " " ++ result
  else if ispointer element then wrap (lit "*" ++ result)
  else if ismemberpointer element then wrap (q ++ lit "::*" ++ result)
  else if isreference element then wrap (lit "&" ++ result)
  else if isarray element then result ++ lit "[" ++ q ++ lit "]"
  else if isfunction element then
    result ++ lit "(" ++ (lit ",").intercalate (((parmlist element).getD []).map str) ++ lit ")"
  else if element = lit "v(...)" then lit "..." ++ result
  else namestrWith str element ++ lit " " ++ result

/-- The loop of `SwigType_str`. -/
def strElements (str : SwigType → List Byte) : List Byte → List SwigType → List Byte
  | result, [] => result
  | result, element :: elements => strElements str (strElement str result element elements.head?) elements

/-- `SwigType_str` with `n` levels of calls; a null pointer for `id` is empty. -/
def strAux : ℕ → SwigType → List Byte → List Byte
  | 0, _, id => chop id
  | n + 1, s, id => chop (strElements (strAux n · []) id (split s))

/-- `SwigType_str`. The types it is called for in turn are shorter, so that there are as
many levels as bytes. -/
def str (s : SwigType) (id : List Byte) : List Byte := strAux s.length s id

end Swig.SType
