import Swig.Lib.Ledger
import Swig.Preprocessor.MacroReplace

/-!
`Preprocessor_parse` (`cpp.c`): the loop over the characters of the text.

Each state of the source has its own function of the character read. Where the
source gives the character back (`Ungetc`) and changes the state, the function of
the new state is called with it. The loops of `skip_tochar` and of the search for
`%enddef` are states of their own here. Files that are included are not modelled:
a step that follows one has no result.
-/

namespace Swig.Preprocessor

/-- The value of `state`, with the number it has in the source. -/
inductive ParseState
  /-- 0 -/
  | firstColumn
  /-- 1 -/
  | text
  /-- In `skip_tochar`, called in state 1. -/
  | literal (ch : Byte)
  | literalEscape (ch : Byte)
  /-- 30 -/
  | slash
  /-- 31 -/
  | lineComment
  /-- 32 -/
  | blockComment
  /-- 33 -/
  | blockStar
  /-- 40 -/
  | hash
  /-- 41 -/
  | name
  /-- 42 -/
  | beforeValue
  /-- 43 -/
  | value
  /-- In `skip_tochar`, called in state 43. -/
  | valueLiteral (ch : Byte)
  | valueLiteralEscape (ch : Byte)
  /-- 44 -/
  | valueEscape
  /-- 45 -/
  | valueSlash
  /-- 46 -/
  | valueLineComment
  /-- 47 -/
  | valueBlockComment
  /-- 48 -/
  | valueBlockStar
  /-- 100 -/
  | percent
  /-- 105 -/
  | block
  /-- 106 -/
  | blockPercent
  /-- 107 -/
  | embedded
  /-- 108 -/
  | embeddedEscape
  /-- 110 -/
  | swigName
  /-- 150 -/
  | define
  /-- In state 150, with a part of `statement` read. -/
  | defineWord (statement : List Byte)
  /-- In state 150, with all of `statement` read. -/
  | defineEnd (statement : List Byte)
  deriving DecidableEq

/-- The locals of `Preprocessor_parse`. -/
structure Locals (W : Type) extends Parser W where
  state : ParseState := .firstColumn
  decl : List Byte := []
  id : List Byte := []
  value : List Byte := []
  comment : List Byte := []
  cppLines : ℕ := 0
  dlevel : ℕ := 0
  startLine : ℕ := 0
  /-- `Getline(s)`. -/
  line : ℕ
  /-- `Getline(id)`. -/
  idLine : ℕ := 0
  /-- `Getline(value)`. -/
  valueLine : ℕ := 0

/-- The directives that are conditionals. -/
def conditional? (id : List Byte) : Option Conditional :=
  if id = lit "ifdef" then some (.opening .ifdef)
  else if id = lit "ifndef" then some (.opening .ifndef)
  else if id = lit "else" then some .else_
  else if id = lit "endif" then some .endif
  else if id = lit "if" then some (.opening .if_)
  else if id = lit "elif" then some .elif
  else none

/-- The bytes that `Printf` takes of a string, up to a null byte. -/
def cstr (s : List Byte) : List Byte := s.takeWhile (· != 0)

/-- The `%constant` line that is printed for a macro. -/
def constantLine (name v1 comment : List Byte) : List Byte :=
  lit "%constant " ++ cstr name ++ lit " = " ++ cstr v1 ++ lit ";" ++
    (if comment = [] then [] else lit " /*" ++ cstr comment ++ lit "*/") ++ lit "\n"

variable {W : Type} (t : MacroTable W)

namespace MacroTable

/-- `#define`: the name and the value of the `%constant` that is printed, if one is. -/
def constant (value : List Byte) (allow : Bool) (w : W) : Option (List Byte × List Byte) × W :=
  if allow then
    match t.define value false w with
    | (some m, w) =>
        if m.args = none ∧ m.value ≠ [] then
          let (v1, w) := t.replace m.value w
          (if t.checkppId v1 then none else some (m.name, v1), w)
        else (none, w)
    | (none, w) => (none, w)
  else (none, w)

/-- The directives other than `#define`. -/
def otherDirective (id : List Byte) (d : Directive) (p : Parser W) : Option (Parser W) :=
  match conditional? id with
  | some k => (parseConditional t.macros k d p).map (·.1)
  | none =>
      if id = lit "include" then if t.includeAll p.world && p.allow then none else some p
      else some { p with world := t.quiet id d.value p.allow p.world }

end MacroTable

namespace Locals

/-- `add_chunk`. -/
def flush (p : Locals W) : Locals W := { p with toParser := addChunk t.macros p.toParser }

/-- `addline` of the chunk as it is, and `Clear`. -/
def flushRaw (p : Locals W) : Locals W := { p with ns := addline p.ns p.chunk p.allow, chunk := [] }

/-- `Putc(c, chunk)`. -/
def put (p : Locals W) (c : Byte) : Locals W := { p with chunk := p.chunk ++ [c] }

/-- `Putc(c, value)`. -/
def putValue (p : Locals W) (c : Byte) : Locals W := { p with value := p.value ++ [c] }

/-- `Putc(c, comment)`. -/
def putComment (p : Locals W) (c : Byte) : Locals W := { p with comment := p.comment ++ [c] }

def goto (p : Locals W) (state : ParseState) : Locals W := { p with state := state }

/-- State 1. -/
def text (p : Locals W) (c : Byte) : Locals W :=
  if c = chr '%' then p.goto .percent
  else if c = chr '\n' then (p.put c).goto .firstColumn
  else if c = chr '"' ∨ c = chr '\'' then { p.put c with startLine := p.line, state := .literal c }
  else if c = chr '/' then (p.put c).goto .slash
  else (p.put c).goto .text

/-- State 0. The loop of `skip_whitespace` leaves the state as it is. -/
def firstColumn (p : Locals W) (c : Byte) : Locals W :=
  if c = chr '#' then { p.flush t with cppLines := 1, state := .hash }
  else if isspace c then (p.put c).goto .firstColumn
  else p.text c

/-- State 50. -/
def directive (p : Locals W) : Option (Locals W) :=
  let d : Directive := ⟨p.idLine, chop p.value, p.cppLines⟩
  if p.id = lit "define" then
    let (printed, w) := t.constant d.value p.allow p.world
    let line := printed.elim [] fun (name, v1) => constantLine name v1 p.comment
    let cppLines := p.cppLines - if printed.isSome then 1 else 0
    some { p with
      ns := p.ns ++ line ++ List.replicate cppLines (chr '\n'), world := w, state := .firstColumn }
  else
    (t.otherDirective p.id d p.toParser).map fun q =>
      { p with
        toParser := { q with ns := q.ns ++ List.replicate p.cppLines (chr '\n') }, state := .firstColumn }

/-- State 43. -/
def readValue (p : Locals W) (c : Byte) : Option (Locals W) :=
  if c = chr '\n' then p.directive t
  else if c = chr '/' then some (p.goto .valueSlash)
  else if c = chr '"' ∨ c = chr '\'' then some ((p.putValue c).goto (.valueLiteral c))
  else some ((p.putValue c).goto (if c = chr '\\' then .valueEscape else .value))

/-- State 42. -/
def beforeValue (p : Locals W) (c : Byte) : Option (Locals W) :=
  if isspace c then
    if c = chr '\n' then p.directive t else some (p.goto .beforeValue)
  else p.readValue t c

/-- State 41. -/
def name (p : Locals W) (c : Byte) : Option (Locals W) :=
  if isspace c || !isalpha c then
    let p := { p with value := [], comment := [] }
    if c = chr '\n' then p.directive t
    else if isspace c then some (p.goto .beforeValue)
    else p.beforeValue t c
  else some { p with id := p.id ++ [c], state := .name }

/-- State 40. -/
def hash (p : Locals W) (c : Byte) : Option (Locals W) :=
  if c = chr '\n' then some ((p.put c).goto .firstColumn)
  else if isspace c then some p
  else { p with id := [], idLine := p.line }.name t c

/-- State 44. -/
def valueEscape (p : Locals W) (c : Byte) : Option (Locals W) :=
  if c = chr '\n' then some { p.putValue c with cppLines := p.cppLines + 1, state := .value }
  else p.readValue t c

/-- State 45. -/
def valueSlash (p : Locals W) (c : Byte) : Option (Locals W) :=
  if c = chr '/' then some (p.goto .valueLineComment)
  else if c = chr '*' then some (p.goto .valueBlockComment)
  else if c = chr '\n' then { p.putValue (chr '/') with cppLines := p.cppLines + 1 }.directive t
  else some (((p.putValue (chr '/')).putValue c).goto .value)

/-- State 46. -/
def valueLineComment (p : Locals W) (c : Byte) : Option (Locals W) :=
  if c = chr '\n' then { p with cppLines := p.cppLines + 1 }.directive t
  else some (p.putComment c)

/-- State 48. -/
def valueBlockStar (p : Locals W) (c : Byte) : Locals W :=
  if c = chr '/' then p.goto .value
  else if c = chr '*' then p.putComment c
  else ((p.putComment (chr '*')).putComment c).goto .valueBlockComment

/-- State 100. -/
def percent (p : Locals W) (c : Byte) : Locals W :=
  if c = chr '\x7b' then
    { p.flush t with startLine := p.line, chunk := [chr '%', c], state := .block }
  else if c = chr '#' then ((p.flush t).put c).goto .embedded
  else if isidentifier c then { p with decl := [chr '%', c], state := .swigName }
  else ((p.put (chr '%')).put c).goto .text

/-- State 150. -/
def define (p : Locals W) (c : Byte) : Locals W :=
  (p.putValue c).goto (if c = chr '%' then .defineWord [] else .define)

/-- The inner loop of state 150. -/
def defineWord (statement : List Byte) (p : Locals W) (c : Byte) : Locals W :=
  let statement := statement ++ [c]
  (p.putValue c).goto <|
    if !statement.isPrefixOf (lit "enddef") && !statement.isPrefixOf (lit "define") then .define
    else if statement.length = 6 then .defineEnd statement
    else .defineWord statement

/-- The end of a `%define`: the value without `%enddef` is the macro. -/
def endDefine (p : Locals W) : Locals W :=
  let value := p.value.rdrop 7
  { p with
    value := value, ns := addline p.ns value false
    world := if p.allow then (t.define value true p.world).2 else p.world }

/-- State 150, behind a whole `statement`. -/
def defineEnd (statement : List Byte) (p : Locals W) (c : Byte) : Locals W :=
  if isspace c then
    if statement = lit "define" then { p with dlevel := p.dlevel + 1 }.define c
    else if p.dlevel - 1 = 0 then ({ p with dlevel := p.dlevel - 1 }.endDefine t).firstColumn t c
    else { p with dlevel := p.dlevel - 1 }.define c
  else p.define c

/-- State 110. -/
def swigName (p : Locals W) (c : Byte) : Option (Locals W) :=
  if isidchar c then some { p with decl := p.decl ++ [c] }
  else if p.decl ∈ [lit "%include", lit "%import", lit "%extern"] then
    if p.allow then none else some (p.text c)
  else if p.decl = lit "%line" then some (p.text c)
  else if p.decl = lit "%define" then
    let valueLine := if c = chr '\n' then p.line - 1 else p.line
    some ({ p.flush t with dlevel := p.dlevel + 1, value := [], valueLine := valueLine }.define c)
  else some ({ p with chunk := p.chunk ++ p.decl }.text c)

/-- One round of the loop. -/
def dispatch (p : Locals W) (c : Byte) : Option (Locals W) :=
  match p.state with
  | .firstColumn => some (p.firstColumn t c)
  | .text => some (p.text c)
  | .literal ch =>
      some ((p.put c).goto (if c = ch then .text else if c = chr '\\' then .literalEscape ch else .literal ch))
  | .literalEscape ch => some ((p.put c).goto (.literal ch))
  | .slash =>
      some { p.put c with
        startLine := p.line
        state := if c = chr '/' then .lineComment else if c = chr '*' then .blockComment else .text }
  | .lineComment => some ((p.put c).goto (if c = chr '\n' then .firstColumn else .lineComment))
  | .blockComment => some ((p.put c).goto (if c = chr '*' then .blockStar else .blockComment))
  | .blockStar =>
      some ((p.put c).goto (if c = chr '/' then .text else if c = chr '*' then .blockStar else .blockComment))
  | .hash => p.hash t c
  | .name => p.name t c
  | .beforeValue => p.beforeValue t c
  | .value => p.readValue t c
  | .valueLiteral ch =>
      some ((p.putValue c).goto
        (if c = ch then .value else if c = chr '\\' then .valueLiteralEscape ch else .valueLiteral ch))
  | .valueLiteralEscape ch => some ((p.putValue c).goto (.valueLiteral ch))
  | .valueEscape => p.valueEscape t c
  | .valueSlash => p.valueSlash t c
  | .valueLineComment => p.valueLineComment t c
  | .valueBlockComment => some (if c = chr '*' then p.goto .valueBlockStar else p.putComment c)
  | .valueBlockStar => some (p.valueBlockStar c)
  | .percent => some (p.percent t c)
  | .block => some ((p.put c).goto (if c = chr '%' then .blockPercent else .block))
  | .blockPercent =>
      some (if c = chr '\x7d' then (p.put c).flushRaw.goto .text else (p.put c).goto .block)
  | .embedded =>
      some (if c = chr '\n' then (p.put c).flushRaw.goto .firstColumn
        else (p.put c).goto (if c = chr '\\' then .embeddedEscape else .embedded))
  | .embeddedEscape => some ((p.put c).goto .embedded)
  | .swigName => p.swigName t c
  | .define => some (p.define c)
  | .defineWord statement => some (p.defineWord statement c)
  | .defineEnd statement => some (p.defineEnd t statement c)

/-- `Getc`, and a round of the loop. -/
def step (p : Locals W) (c : Byte) : Option (Locals W) :=
  { p with line := p.line + if c = chr '\n' then 1 else 0 }.dispatch t c

/-- What is reported at the end of the text for a construct that is still open. -/
def unterminated (p : Locals W) : List Diagnostic :=
  let report (text : String) (line : ℕ) : List Diagnostic :=
    [.error (-1) (lit text ++ lit (toString line) ++ lit "\n")]
  match p.state with
  | .define | .defineWord _ | .defineEnd _ => report "Missing %enddef for macro starting on line " p.valueLine
  | .block | .blockPercent => report "Unterminated %\x7b ... %\x7d block starting on line " p.startLine
  | .slash | .lineComment | .blockComment | .blockStar =>
      report "Unterminated comment starting on line " p.startLine
  | _ => []

/-- The literals that `skip_tochar` has not found the end of. -/
def unterminatedLiteral (p : Locals W) : List Diagnostic :=
  let report (text : String) : List Diagnostic :=
    [.error (-1) (lit text ++ lit (toString p.startLine) ++ lit "\n")]
  match p.state with
  | .literal ch | .literalEscape ch =>
      if ch = chr '"' then report "Unterminated string constant starting at line "
      else report "Unterminated character constant starting at line "
  | _ => []

end Locals

/-- The locals at the start of a text. -/
def Locals.start (w : W) (line : ℕ) : Locals W := { world := w, line := line }

/-- `Replace(s, "\015", "", DOH_REPLACE_ANY)`. -/
def dropReturns (s : List Byte) : List Byte := s.filter (· != 13)

namespace MacroTable

/-- `Preprocessor_parse` of a text that starts on the line. The conditionals that
are left open are reported and the last chunk is flushed by `finish`. -/
def parse (w : W) (line : ℕ) (s : List Byte) : Option (Parser W) := do
  let p ← Ledger.run (Locals.step t) (Locals.start w line) (dropReturns s)
  let p := { p with toParser := p.toParser.report p.unterminatedLiteral }
  let q := finish t.macros p.toParser
  some (q.report p.unterminated)

end MacroTable

end Swig.Preprocessor
