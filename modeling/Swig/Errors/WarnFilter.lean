import Swig.DOH.CType
import Swig.Lib.ByteBlock
import Mathlib.Data.List.Basic
import Mathlib.Data.Int.Basic
import Mathlib.Algebra.Group.Int.Defs
import Mathlib.Algebra.Group.Nat.Defs

/-!
The warning filter of `error.c`: a text of numbers with a sign before each, the
entry added last in front.
-/

namespace Swig.Errors

open ByteBlock

/-- The static variables that decide on a warning. -/
structure ErrorState where
  silence : Bool
  filter : Option (List Byte)
  warnall : Bool
  nwarning : ℕ
  deriving DecidableEq

def ErrorState.init : ErrorState := ⟨false, none, false, 0⟩

/-! ### The filter -/

/-- The tokens of a string that `strtok` finds one after the other. -/
def strtok (delim : Byte → Bool) (s : List Byte) : List (List Byte) := (s.splitOnP delim).filter (· ≠ [])

/-- `Replace(s, token, "", DOH_REPLACE_FIRST)`. -/
def cutFirst (token s : List Byte) : List Byte :=
  match indexOf token s with
  | none => s
  | some i => s.take i ++ s.drop (i + token.length)

/-- One number of a list that is added: `Insert(filter, 0, c)`. -/
def filterAdd (filter c : List Byte) : List Byte :=
  if isdigit (c.headD 0) then chr '-' :: (c ++ filter) else c ++ filter

/-- One number of a list that is removed. -/
def filterRemove (filter c : List Byte) : List Byte :=
  cutFirst (if isdigit (c.headD 0) then chr '-' :: c else c) filter

/-- One token of a list. -/
def filterToken (add : Bool) (filter c : List Byte) : List Byte :=
  let c₀ := c.headD 0
  if isdigit c₀ ∨ c₀ = chr '+' ∨ c₀ = chr '-' then
    if add then filterAdd filter c else filterRemove filter c
  else filter

/-- The tokens of a list of warning numbers. -/
def warnTokens (wlist : List Byte) : List (List Byte) :=
  strtok (fun c => c == chr ',' || c == chr ' ') ((wlist.takeWhile (· != 0)).filter (· != chr ' '))

/-- `Swig_warnfilter`. -/
def warnfilter (st : ErrorState) (wlist : List Byte) (add : Bool) : ErrorState :=
  { st with filter := some ((warnTokens wlist).foldl (filterToken add) (st.filter.getD [])) }

/-! ### Warnings -/

/-- The digits `%d` prints of a number that is not negative. -/
def decimal (n : ℕ) : List Byte := (Nat.toDigits 10 n).map chr

/-- What `%d` prints. -/
def formatInt (i : ℤ) : List Byte := if i < 0 then chr '-' :: decimal i.natAbs else decimal i.natAbs

/-- The value of a text of digits. -/
def digitsVal (ds : List Byte) : ℕ := ds.foldl (fun n d => 10 * n + digitVal d) 0

/-- The number of a warning and its text: a number at the beginning of the text is
read by `strtoul` and stored in an `int`, and one more byte is passed over. -/
def warningNumber (wnum : ℤ) (msg : List Byte) : ℤ × List Byte :=
  if isdigit (msg.headD 0) then
    let ds := msg.takeWhile isdigit
    (Int.bmod (min (digitsVal ds) (2 ^ 64 - 1) : ℕ) (2 ^ 32), msg.drop (ds.length + 1))
  else (wnum, msg)

/-- The loop of `Swig_warning` through the filter from position `f`. It gives `wrn`;
`none` is a byte read before the text. -/
def filterLoop (filter temp : List Byte) : ℕ → ℕ → Option Bool
  | 0, _ => none
  | fuel + 1, f =>
      if filter.length ≤ f then some true
      else
        match indexOf temp (filter.drop f) with
        | none => some true
        | some i =>
            match f + i with
            | 0 => none
            | c + 1 =>
                if filter[c]? = some (chr '-') then some false
                else if filter[c]? = some (chr '+') then some true
                else filterLoop filter temp fuel (f + temp.length)

/-- The look into the filter. Every round moves on by at least one byte. -/
def filterWarns (filter : Option (List Byte)) (wnum : ℤ) : Option Bool :=
  match filter with
  | none => some true
  | some filter => filterLoop filter (formatInt wnum) (filter.length + 1) 0

/-- `Swig_warning`: what is printed, if anything. -/
def swigWarning (st : ErrorState) (wnum : ℤ) (msg : List Byte) : Option (ErrorState × Option (ℤ × List Byte)) :=
  if st.silence then some (st, none)
  else
    let (wnum, msg) := warningNumber wnum msg
    (filterWarns st.filter wnum).map fun (wrn : Bool) =>
      if st.warnall ∨ wrn then ({ st with nwarning := st.nwarning + 1 }, some (wnum, msg)) else (st, none)

/-! ### What the filter stands for -/

inductive Sign | minus | plus
  deriving DecidableEq

def Sign.byte : Sign → Byte
  | .minus => chr '-'
  | .plus => chr '+'

/-- A number of a list, with its sign if it has one. -/
structure Item where
  sign : Option Sign
  digits : List Byte
  ne_nil : digits ≠ []
  all_digits : ∀ d ∈ digits, isdigit d

namespace Item

def text (i : Item) : List Byte := i.sign.toList.map Sign.byte ++ i.digits

def number (i : Item) : ℕ := digitsVal i.digits

/-- An unsigned number counts as `-`. -/
def entry (i : Item) : Sign × ℕ := (i.sign.getD .minus, i.number)

end Item

/-- The entries after one more number is added or removed, the last one first. -/
def applyItem (es : List (Sign × ℕ)) (op : Item × Bool) : List (Sign × ℕ) :=
  if op.2 then op.1.entry :: es else es.erase op.1.entry

/-- The sign of the entry for exactly this number that was added last. -/
def statusOf (es : List (Sign × ℕ)) (w : ℕ) : Option Sign := (es.find? fun e => e.2 = w).map Prod.fst

/-- A text of numbers. -/
structure WarnList where
  text : List Byte
  items : List Item
  tokens : warnTokens text = items.map Item.text

/-- The numbers of the calls, one after the other. -/
def history (calls : List (WarnList × Bool)) : List (Item × Bool) :=
  calls.flatMap fun call => call.1.items.map (·, call.2)

/-- The calls of `Swig_warnfilter`. -/
def warnfilters (calls : List (WarnList × Bool)) : ErrorState :=
  calls.foldl (fun st call => warnfilter st call.1.text call.2) .init

end Swig.Errors
