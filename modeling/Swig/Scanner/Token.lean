import Swig.DOH.Text

/-!
The scanner object: the stack of strings being scanned, the token text that
grows while a token is read, and the character-level operations.
-/

namespace Swig

/-- The `SWIG_TOKEN_*` codes; `eof` is the code 0 returned at the end of input. -/
inductive Token
  | eof
  | lparen | rparen | semi | lbrace | rbrace | lbracket | rbracket | backslash | endline
  | string | pound | colon | dcolon | dcolonstar | id | float | double
  | int | uint | long | ulong | char | period | at_ | dollar | codeblock | rstring
  | longlong | ulonglong | question | comment | illegal | error
  | comma | star | equal | equalto | notequal | plus | minus | and | land | or | lor | xor
  | lessthan | greaterthan | ltequal | gtequal | not | lnot | slash | percent
  | lshift | rshift | plusplus | minusminus | plusequal | minusequal | timesequal | divequal
  | andequal | orequal | xorequal | lsequal | rsequal | modequal | arrow | arrowstar
  deriving DecidableEq

/-- The scanner. The string being scanned (`str`) is the head of `scanobjs`;
`textLine` is the line number stored on the token text. -/
structure Scanner where
  text : List Byte
  textLine : ℤ
  scanobjs : List Text
  idstart : List Byte
  nexttoken : Option Token
  startLine : ℤ
  line : ℤ
  error : Option String
  errorLine : ℤ
  freezeLine : Bool
  /-- Messages given to `Swig_error`. -/
  reported : List String
  deriving DecidableEq

namespace Scanner

def newScanner : Scanner where
  text := []
  textLine := 0
  scanobjs := []
  idstart := []
  nexttoken := none
  startLine := 1
  line := 1
  error := none
  errorLine := 0
  freezeLine := false
  reported := []

def clear (s : Scanner) : Scanner :=
  { s with
    text := [], scanobjs := [], error := none, line := 1, nexttoken := none, startLine := 0 }

/-- `Scanner_push`: the string interrupted keeps the line reached so far. -/
def push (s : Scanner) (txt : Text) : Scanner :=
  { s with
    scanobjs := txt :: (match s.scanobjs with
      | [] => []
      | t :: ts => { t with line := s.line } :: ts)
    line := txt.line }

def pushtoken (s : Scanner) (nt : Token) (val : List Byte) : Scanner :=
  { s with nexttoken := some nt, text := val }

/-- The loop of `nextchar` over the stacked strings: exhausted ones are dropped. -/
def nextcharFrom (s : Scanner) : List Text → Byte × Scanner
  | [] => (0, { s with scanobjs := [] })
  | t :: ts =>
      match t.getc with
      | (none, _) => nextcharFrom
          { s with line := match ts with
              | [] => s.line
              | u :: _ => u.line } ts
      | (some nc, t') =>
          (nc, { s with
            scanobjs := t' :: ts
            line := if nc = chr '\n' ∧ ¬ s.freezeLine then s.line + 1 else s.line
            text := s.text ++ [nc] })

/-- `nextchar`: the next byte, which is also appended to the token text, or 0
at the end of all strings. -/
def nextchar (s : Scanner) : Byte × Scanner := nextcharFrom s s.scanobjs

/-- One round of the loop of `retract`; `l` is the length of the text on entry,
so that only the first round sees the last character. Stepping back with no
string left dereferences a null pointer. -/
def retractStep (l : ℕ) (s : Scanner) : Option Scanner :=
  match s.scanobjs with
  | [] => none
  | t :: ts => some
      { s with
        line := if s.text.getD (l - 1) 0 = chr '\n' ∧ ¬ s.freezeLine then s.line - 1 else s.line
        scanobjs := t.seek (-1) .cur :: ts
        text := s.text.dropLast }

def retractLoop (l : ℕ) : ℕ → Scanner → Option Scanner
  | 0, s => some s
  | n + 1, s => (retractStep l s).bind (retractLoop l n)

/-- `retract`: give back `n` characters; the assertion `n <= l` guards it. -/
def retract (s : Scanner) (n : ℕ) : Option Scanner :=
  if n ≤ s.text.length then retractLoop s.text.length n s else none

def setError (s : Scanner) (line : ℤ) (msg : String) : Scanner :=
  { s with error := some msg, errorLine := line }

def swigError (s : Scanner) (msg : String) : Scanner :=
  { s with reported := s.reported ++ [msg] }

/-- `Delitem(s->text, DOH_END)`. -/
def dropLastText (s : Scanner) : Scanner := { s with text := s.text.dropLast }

def putText (s : Scanner) (bs : List Byte) : Scanner := { s with text := s.text ++ bs }

/-- The text is emptied and takes the line of the string being scanned. -/
def restartText (s : Scanner) (bs : List Byte) : Scanner :=
  { s with
    text := bs
    textLine := match s.scanobjs with
      | [] => 0
      | t :: _ => t.line }

/-- Bytes left in all stacked strings. -/
def remaining (s : Scanner) : ℕ := (s.scanobjs.map fun t => t.rest.length).sum

end Scanner

end Swig
