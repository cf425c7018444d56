import Swig.DOH.Sprintf

/-!
`DohvPrintf` (`fio.c`): the loop over the characters of the format.

The buffers of the source have their sizes here. What the source does outside of a buffer, or
with an argument that is not there, has no result, and neither has a format that `sprintf` does
not know. Floating point numbers and pointers are left out: they have no result either.
-/

namespace Swig.DOH

open Errors (formatInt digitsVal)

/-- An argument of the list. -/
inductive PrintfArg
  | int (v : ℤ)
  | null
  | chars (s : List Byte)
  /-- A DOH object, with the text that `Str` makes of it. -/
  | object (data : List Byte)
  deriving DecidableEq

/-- The value of `state`, with the number it has in the source. -/
inductive PrintfState
  /-- 0 -/
  | text
  /-- 10 -/
  | flags
  /-- 20 -/
  | width
  /-- 30 -/
  | argWidth
  /-- 40 -/
  | precision
  /-- 41 -/
  | precisionDigits
  /-- 50 -/
  | waiting
  /-- 60 -/
  | encoder
  deriving DecidableEq

/-- The locals of `DohvPrintf`. -/
structure Printf where
  state : PrintfState := .text
  newformat : List Byte := List.replicate 256 0
  /-- `fmt - newformat` -/
  fmt : ℕ := 0
  /-- `temp`, up to `w`. -/
  temp : List Byte := []
  widthval : ℤ := 0
  precval : ℤ := 0
  nbytes : ℤ := 0
  encoder : List Byte := []
  plevel : ℤ := 0
  /-- `ap` -/
  args : List PrintfArg
  /-- What is written to `so`. -/
  out : List Byte := []

/-- `fmt_codes` -/
def fmtCodes : List Byte := lit "dioxXucsSfeEgGpn"

/-- A C string in memory. -/
def cString (s : List Byte) : List Byte := s.takeWhile (· != 0)

/-- The conversion of a number to `int`. -/
def toInt (n : ℤ) : ℤ := n.bmod (2 ^ 32)

/-- `atoi`: of a number that an `int` does not hold there is no value. -/
def atoi (s : List Byte) : Option ℤ := if digitsVal s < 2 ^ 31 then some (digitsVal s) else none

namespace Printf

section

variable (q : Printf)

def goto (state : PrintfState) : Printf := { q with state := state }

/-- `*(fmt++) = c` -/
def put (c : Byte) : Option Printf :=
  if q.fmt < 256 then some { q with newformat := q.newformat.set q.fmt c, fmt := q.fmt + 1 } else none

/-- `*fmt = 0` -/
def close : Option Printf :=
  if q.fmt < 256 then some { q with newformat := q.newformat.set q.fmt 0 } else none

/-- `*(w++) = c` and `*(fmt++) = c` -/
def digit (c : Byte) : Option Printf :=
  if q.temp.length < 64 then { q with temp := q.temp ++ [c] }.put c else none

/-- `*w = 0` and `widthval = atoi(temp)` -/
def closeWidth : Option Printf :=
  if q.temp.length < 64 then (atoi q.temp).map fun v => { q with widthval := v } else none

/-- `*w = 0` and `precval = atoi(temp)` -/
def closePrecision : Option Printf :=
  if q.temp.length < 64 then (atoi q.temp).map fun v => { q with precval := v } else none

/-- The digits of an argument are copied from `temp`. -/
def puts (s : List Byte) : Option Printf := s.foldlM put q

/-- `widthval = va_arg(ap, int)` -/
def argWidth : Option Printf :=
  match q.args with
  | .int v :: args => ({ q with widthval := v, args := args }.puts (formatInt v)).map (goto · .argWidth)
  | _ => none

/-- `precval = va_arg(ap, int)` -/
def argPrecision : Option Printf :=
  match q.args with
  | .int v :: args => ({ q with precval := v, args := args }.puts (formatInt v)).map (goto · .waiting)
  | _ => none

/-! State 100 -/

def maxwidth : ℤ := if q.widthval < q.precval then q.precval else q.widthval

/-- `sprintf` into a buffer of so many bytes, and `Writen`. -/
def write (size : ℕ) (text : List Byte) : Option Printf :=
  if text.length < size then
    some { q with nbytes := toInt (q.nbytes + text.length), out := q.out ++ cString text, state := .text }
  else none

/-- The buffer for a string: `obuffer`, or one from `DohMalloc`. -/
def stringBuffer (maxwidth : ℤ) : Option ℕ :=
  if 2 ^ 31 ≤ maxwidth + 1 then none
  else if maxwidth + 1 < 512 then some 512
  else some (maxwidth + 1).toNat

/-- The buffer for a number. -/
def numberBuffer (maxwidth : ℤ) : Option ℕ :=
  if maxwidth < 512 then some 512
  else if 2 ^ 31 ≤ maxwidth + 1 then none
  else some (maxwidth + 1).toNat

/-- A string, with the length that counts for the buffer. -/
def writeString (s : List Byte) (len : ℕ) : Option Printf := do
  let maxwidth := toInt (q.maxwidth + (cString q.newformat).length + len)
  let q ← q.put (chr 's')
  let q ← q.close
  let size ← stringBuffer maxwidth
  let text ← sprintfString (cString q.newformat) (cString s)
  q.write size text

/-- A number. -/
def writeInt (c : Byte) (v : ℤ) : Option Printf := do
  let q ← q.put c
  let q ← q.close
  let size ← numberBuffer (toInt (q.maxwidth + (cString q.newformat).length + 64))
  let text ← sprintfInt (cString q.newformat) v
  q.write size text

/-- State 100. The encoder is called by its name, with the text. -/
def emit (encode : List Byte → List Byte → List Byte) (c : Byte) : Option Printf :=
  let encoded (s : List Byte) : List Byte := if q.encoder = [] then s else encode q.encoder s
  if c = chr 's' ∨ c = chr 'S' then
    match q.args with
    | .object data :: args => { q with args := args }.writeString (encoded data) (encoded data).length
    | .chars s :: args =>
        { q with args := args }.writeString (encoded (cString s)) (cString (encoded (cString s))).length
    | .null :: args => { q with args := args }.writeString (encoded []) (cString (encoded [])).length
    | _ => none
  else if c ∈ lit "dioxXuc" then
    match q.args with
    | .int v :: args => { q with args := args }.writeInt c v
    | _ => none
  else none

end

/-- One round of the loop; a formatting code is looked at twice, the second time in state 100. -/
def step (encode : List Byte → List Byte → List Byte) (q : Printf) (c : Byte) : Option Printf :=
  match q.state with
  | .text =>
      if c ≠ chr '%' then some { q with nbytes := toInt (q.nbytes + 1), out := q.out ++ [c] }
      else { q with fmt := 0, widthval := 0, precval := 0, encoder := [], state := .flags }.put c
  | .flags =>
      if isdigit c ∧ c ≠ chr '0' then { q with temp := [], state := .width }.digit c
      else if c ∈ fmtCodes then q.emit encode c
      else if c = chr '*' then q.argWidth
      else if c = chr '%' then
        some { q with nbytes := toInt (q.nbytes + 1), out := q.out ++ [c], fmt := 0, state := .text }
      else if c = chr '(' then some { q with plevel := q.plevel + 1, encoder := [], state := .encoder }
      else q.put c
  | .width =>
      if isdigit c then q.digit c
      else q.closeWidth.bind fun q =>
        if c ∈ fmtCodes then q.emit encode c
        else if c = chr '.' then { q with temp := [], state := .precision }.put c
        else some { q with state := .waiting }
  | .argWidth =>
      if c = chr '.' then { q with temp := [], state := .precision }.put c
      else if c ∈ fmtCodes then q.emit encode c
      else some { q with state := .waiting }
  | .precision =>
      if isdigit c ∧ c ≠ chr '0' then { q with state := .precisionDigits }.digit c
      else if c = chr '*' then q.argPrecision
      else if c ∈ fmtCodes then q.emit encode c
      else { q with state := .waiting }.put c
  | .precisionDigits =>
      if isdigit c then q.digit c
      else q.closePrecision.bind fun q =>
        if c ∈ fmtCodes then q.emit encode c else { q with state := .waiting }.put c
  | .waiting => if c ∈ fmtCodes then q.emit encode c else q.put c
  | .encoder =>
      if c = chr ')' ∧ q.plevel - 1 ≤ 0 then
        if q.encoder.length < 128 then some { q with plevel := q.plevel - 1, state := .flags } else none
      else if q.encoder.length < 128 then
        some { q with
          encoder := q.encoder ++ [c]
          plevel := if c = chr '(' then q.plevel + 1 else if c = chr ')' then q.plevel - 1 else q.plevel }
      else none

end Printf

/-- `DohvPrintf`: what is returned, and what is written. A directive that is left open writes nothing. -/
def dohvPrintf (encode : List Byte → List Byte → List Byte) (format : List Byte) (args : List PrintfArg) :
    Option (ℤ × List Byte) := do
  let q ← (cString format).foldlM (Printf.step encode) { args := args }
  if q.state = .text ∨ q.fmt < 256 then some (q.nbytes, q.out) else none

end Swig.DOH
