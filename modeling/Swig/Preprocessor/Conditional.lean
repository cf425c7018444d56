import Mathlib.Data.Int.Notation
import Swig.DOH.CType

/-!
The conditional directives of `Preprocessor_parse` (`cpp.c`, state 50), with
the flushing of the collected text that comes before each directive.

The nesting is kept in four scalars: `allow` says whether text is copied or
blanked, `level` counts the open conditionals, `startLevel` is the level at
which `allow` was last decided, and `mask` is cleared once a branch of that
conditional has been taken. `allow` and `mask` are only ever 0 or 1.
-/

namespace Swig.Preprocessor

/-- The result of `Preprocessor_expr`, its error flag and the message left for
`Preprocessor_expr_error`. -/
structure Evaluation where
  val : ℤ
  e : Bool
  msg : Option (List Byte)

/-- The rest of the preprocessor as the conditional directives use it, over
the state `W` it works on (the macro table and the operator stack). -/
structure Macros (W : Type) where
  /-- `Getattr(symbols, value)` is not null. -/
  isDefined : List Byte → W → Bool
  /-- `Preprocessor_replace`. -/
  replace : List Byte → W → List Byte × W
  /-- `Preprocessor_expr`. -/
  expr : List Byte → W → Evaluation × W

/-- `WARN_PP_EVALUATION` of `swigwarn.h`. -/
def warnPpEvaluation : ℕ := 202

inductive Diagnostic
  | error (line : ℤ) (text : List Byte)
  | warning (num : ℕ) (line : ℤ) (text : List Byte)
  deriving DecidableEq

/-- The part of the locals of `Preprocessor_parse` the conditionals work on. -/
structure Parser (W : Type) where
  ns : List Byte := []
  chunk : List Byte := []
  allow : Bool := true
  level : ℕ := 0
  mask : Bool := false
  startLevel : ℕ := 0
  condLines : Vector ℕ 256 := Vector.replicate 256 0
  diagnostics : List Diagnostic := []
  world : W

/-- The directives that open a conditional. -/
inductive Opening
  | ifdef
  | ifndef
  | if_
  deriving DecidableEq

inductive Conditional
  | opening (o : Opening)
  | else_
  | elif
  | endif
  deriving DecidableEq

/-- A directive as the scanner hands it over: the line it starts on
(`Getline(id)`), the text after its name, and the lines it spans. -/
structure Directive where
  line : ℕ
  value : List Byte
  cppLines : ℕ
  deriving DecidableEq

inductive Line
  | text (t : List Byte)
  | directive (id : Conditional) (d : Directive)
  deriving DecidableEq

/-- What a line of the input shows of the run: the flag at a text line, and
each controlling expression that is evaluated, with its outcome. -/
inductive Event
  | text (t : List Byte) (allow : Bool)
  | evaluated (line : ℕ) (outcome : Bool)
  deriving DecidableEq

variable {W : Type} (m : Macros W)

namespace Parser

/-- `cond_lines[i] = line`; there is no result when `i` is outside the array. -/
def setCondLine (p : Parser W) (i line : ℕ) : Option (Parser W) :=
  if h : i < 256 then some { p with condLines := p.condLines.set i line h } else none

def report (p : Parser W) (ds : List Diagnostic) : Parser W :=
  { p with diagnostics := p.diagnostics ++ ds }

end Parser

/-- Append `s2` to `s1`, or only its newlines when text is not allowed: those in
front of a null byte, which ends the C string. -/
def addline (s1 s2 : List Byte) (allow : Bool) : List Byte :=
  if allow then s1 ++ s2 else s1 ++ (s2.takeWhile (· != 0)).filter (· == 10)

def addChunk (p : Parser W) : Parser W :=
  if p.allow then
    let (echunk, w) := m.replace p.chunk p.world
    { p with ns := addline p.ns echunk p.allow, chunk := [], world := w }
  else
    { p with ns := addline p.ns p.chunk false, chunk := [] }

/-- Evaluate the controlling expression of `#if` or `#elif`. An expression
that cannot be evaluated counts as false and is reported. -/
def evaluate (d : Directive) (p : Parser W) : Bool × Parser W :=
  let (sval, w) := m.replace d.value p.world
  let (r, w) := m.expr sval w
  let p := { p with world := w }
  if r.e then
    let p := p.report [.warning warnPpEvaluation d.line (lit "Could not evaluate '" ++ d.value ++ lit "'\n")]
    match r.msg with
    | some msg =>
        (false, p.report [.warning warnPpEvaluation d.line (lit "Error: '" ++ msg ++ lit "'\n")])
    | none => (false, p)
  else
    (r.val != 0, p)

/-- The condition of an opening directive. -/
def Opening.evaluate (o : Opening) (d : Directive) (p : Parser W) : Bool × Parser W :=
  match o with
  | .ifdef => (m.isDefined d.value p.world, p)
  | .ifndef => (!m.isDefined d.value p.world, p)
  | .if_ => Preprocessor.evaluate m d p

/-- `#ifdef`, `#ifndef` and `#if`. -/
def parseOpening (o : Opening) (d : Directive) (p : Parser W) :
    Option (Parser W × List Event) := do
  let p ← p.setCondLine p.level d.line
  let p := { p with level := p.level + 1 }
  if p.allow then
    let (outcome, p) := o.evaluate m d p
    some ({ p with startLevel := p.level, allow := outcome, mask := true },
      [.evaluated d.line outcome])
  else
    some (p, [])

def parseElse (d : Directive) (p : Parser W) : Option (Parser W × List Event) :=
  if p.level = 0 then
    some (p.report [.error d.line (lit "Misplaced #else.\n")], [])
  else do
    let p ← p.setCondLine (p.level - 1) d.line
    if p.allow then
      some ({ p with allow := false, mask := false }, [])
    else if p.level = p.startLevel then
      some ({ p with allow := p.mask }, [])
    else
      some (p, [])

def parseEndif (d : Directive) (p : Parser W) : Option (Parser W × List Event) :=
  match p.level with
  | 0 => some (p.report [.error d.line (lit "Extraneous #endif.\n")], [])
  | level + 1 =>
      if level < p.startLevel then
        some ({ p with level := level, allow := true, startLevel := p.startLevel - 1 }, [])
      else
        some ({ p with level := level }, [])

def parseElif (d : Directive) (p : Parser W) : Option (Parser W × List Event) :=
  if p.level = 0 then
    some (p.report [.error d.line (lit "Misplaced #elif.\n")], [])
  else do
    let p ← p.setCondLine (p.level - 1) d.line
    if p.allow then
      some ({ p with allow := false, mask := false }, [])
    else if p.level = p.startLevel then
      let (outcome, p) := evaluate m d p
      some ({ p with allow := outcome && p.mask }, [.evaluated d.line outcome])
    else
      some (p, [])

def parseConditional : Conditional → Directive → Parser W → Option (Parser W × List Event)
  | .opening o => parseOpening m o
  | .else_ => parseElse
  | .endif => parseEndif
  | .elif => parseElif m

/-- A text line is collected in `chunk`. A directive first flushes the chunk
(state 0) and leaves one newline for each of its lines. -/
def step (p : Parser W) : Line → Option (Parser W × List Event)
  | .text t => some ({ p with chunk := p.chunk ++ t }, [.text t p.allow])
  | .directive id d => do
      let (p, ev) ← parseConditional m id d (addChunk m p)
      some ({ p with ns := p.ns ++ List.replicate d.cppLines 10 }, ev)

def run (p : Parser W) : List Line → Option (Parser W × List Event)
  | [] => some (p, [])
  | l :: ls => do
      let (p, ev) ← step m p l
      let (p, ev') ← run p ls
      some (p, ev ++ ev')

/-- The end of the input: the conditionals still open are reported from the
innermost on, and the last chunk is flushed. -/
def finish (p : Parser W) : Parser W :=
  let missing := ((p.condLines.toList.take p.level).reverse).map fun line =>
    .error (-1) (lit "Missing #endif for conditional starting on line " ++
      lit (toString line) ++ lit "\n")
  addChunk m { p.report missing with level := 0 }

def parse (w : W) (ls : List Line) : Option (Parser W × List Event) := do
  let (p, ev) ← run m { world := w } ls
  some (finish m p, ev)

end Swig.Preprocessor
