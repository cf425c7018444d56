import Swig.Scanner.Token

/-!
The token recogniser `look` of the scanner, `get_escape` and `Scanner_token`.

`look` is a loop over a state number; here one round of the loop is `lookStep`
and the loop runs it on the number of rounds the remaining input allows.
`none` stands for a round that dereferences a null pointer or fails an
assertion.
-/

namespace Swig

namespace Scanner

/-- The states of `get_escape`: just after the backslash, in an octal escape
(10) and in a hexadecimal escape (20); the last two carry `result`, an `int`. -/
inductive EscState
  | s0
  | s10 (result : ℕ)
  | s20 (result : ℕ)
  deriving DecidableEq

/-- The single-character escapes of `get_escape`. -/
def simpleEscape (c : Byte) : Option Byte :=
  if c = chr 'n' then some 10
  else if c = chr 'r' then some 13
  else if c = chr 't' then some 9
  else if c = chr 'a' then some 7
  else if c = chr 'b' then some 8
  else if c = chr 'f' then some 12
  else if c = chr '\\' then some 92
  else if c = chr 'v' then some 11
  else if c = chr 'e' then some 27
  else if c = 39 then some 39
  else if c = 34 then some 34
  else none

/-- Value of a hexadecimal digit, `c - '0'` or `10 + tolower(c) - 'a'`. -/
def xdigitVal (c : Byte) : ℕ :=
  if isdigit c then digitVal c else 10 + (tolower c - chr 'a').toNat

/-- `get_escape`, one character at a time; `n` bounds the characters left. -/
def getEscapeLoop : ℕ → EscState → Scanner → Option Scanner
  | 0, _, s => some s
  | n + 1, st, s =>
      let (c, s) := nextchar s
      if c = 0 then some s
      else match st with
        | .s0 =>
            match simpleEscape c with
            | some b => some (s.dropLastText.putText [b])
            | none =>
                if c = chr '\n' then some s.dropLastText
                else if isdigit c then getEscapeLoop n (.s10 (digitVal c)) s.dropLastText
                else if c = chr 'x' then getEscapeLoop n (.s20 0) s.dropLastText
                else some (s.dropLastText.putText [chr '\\', c])
        | .s10 result =>
            if !isdigit c then
              (s.retract 1).map fun s => s.putText [UInt8.ofNat result]
            else getEscapeLoop n (.s10 ((result * 8 + digitVal c) % 2 ^ 32)) s.dropLastText
        | .s20 result =>
            if !isxdigit c then
              (s.retract 1).map fun s => s.putText [UInt8.ofNat result]
            else getEscapeLoop n (.s20 ((result * 16 + xdigitVal c) % 2 ^ 32)) s.dropLastText

def getEscape (s : Scanner) : Option Scanner := getEscapeLoop (s.remaining + 1) .s0 s

/-- The state numbers of `look`; `s99` is the illegal character. -/
inductive LookState
  | s0 | s1000 | s1 | s10 | s11 | s12 | s2 | s3 | s31 | s32 | s33 | s4 | s40 | s41 | s5 | s50
  | s60 | s61 | s7 | s75 | s8 | s81 | s82 | s820 | s83 | s84 | s85 | s86 | s87 | s870 | s88
  | s880 | s9 | s100 | s200 | s210 | s211 | s220 | s230 | s240 | s250 | s900 | s99
  deriving DecidableEq

/-- What a round of `look` ends with: a `return` or another round. -/
inductive LookResult
  | done (tok : Token) (s : Scanner)
  | more (st : LookState) (s : Scanner)
  deriving DecidableEq

open LookResult LookState

/-- Give the character back and return a token. -/
def giveBack (s : Scanner) (n : ℕ) (tok : Token) : Option LookResult :=
  (s.retract n).map (done tok)

/-- State 1000: the first character of a token. -/
def lookFirst (c : Byte) (s : Scanner) : LookResult :=
  if c = 0 then done .eof s
  else if c = chr '%' then more s4 s
  else if isalpha c || c == chr '_' || s.idstart.contains c then more s7 s
  else if c = chr '(' then done .lparen s
  else if c = chr ')' then done .rparen s
  else if c = chr ';' then done .semi s
  else if c = chr ',' then done .comma s
  else if c = chr '*' then more s220 s
  else if c = chr '}' then done .rbrace s
  else if c = chr '{' then done .lbrace s
  else if c = chr '=' then more s33 s
  else if c = chr '+' then more s200 s
  else if c = chr '-' then more s210 s
  else if c = chr '&' then more s31 s
  else if c = chr '|' then more s32 s
  else if c = chr '^' then more s230 s
  else if c = chr '<' then more s60 s
  else if c = chr '>' then more s61 s
  else if c = chr '~' then done .not s
  else if c = chr '!' then more s3 s
  else if c = chr '\\' then done .backslash s
  else if c = chr '[' then done .lbracket s
  else if c = chr ']' then done .rbracket s
  else if c = chr '@' then done .at_ s
  else if c = chr '$' then more s75 s
  else if c = chr '#' then done .pound s
  else if c = chr '?' then done .question s
  else if c = chr '/' then more s1 { s with startLine := s.line }
  else if c = 34 then more s2 { s with startLine := s.line, text := [] }
  else if c = chr ':' then more s5 s
  else if c = chr '0' then more s83 s
  else if c = 39 then more s9 { s with startLine := s.line, text := [] }
  else if c = 96 then more s900 { s with startLine := s.line, text := [] }
  else if c = chr '.' then more s100 s
  else if isdigit c then more s8 s
  else more s99 s

/-- A state that returns `tok` at the end of input, `tok₁` after the character
`c₁`, and otherwise gives the character back and returns `tok`. -/
def lookPair (c : Byte) (s : Scanner) (tok : Token) (cases : List (Byte × Token)) :
    Option LookResult :=
  if c = 0 then some (done tok s)
  else match cases.lookup c with
    | some tok₁ => some (done tok₁ s)
    | none => s.giveBack 1 tok

def isL (c : Byte) : Bool := c == chr 'l' || c == chr 'L'
def isU (c : Byte) : Bool := c == chr 'u' || c == chr 'U'
def isE (c : Byte) : Bool := c == chr 'e' || c == chr 'E'
def isF (c : Byte) : Bool := c == chr 'f' || c == chr 'F'

/-- One round of the loop of `look`. -/
def lookStep (st : LookState) (s : Scanner) : Option LookResult :=
  if st = s99 then some (done .illegal s)
  else
  let (c, s) := nextchar s
  match st with
  | s0 =>
      if c = 0 then some (done .eof s)
      else if c = chr '\n' then some (done .endline s)
      else if !isspace c then
        (s.retract 1).map fun s => more s1000 { s with text := [], textLine := s.line }
      else some (more s0 s)
  | s1000 => some (lookFirst c s)
  | s1 =>
      if c = 0 then some (done .eof s)
      else if c = chr '/' then some (more s10 (s.restartText (lit "//")))
      else if c = chr '*' then some (more s11 (s.restartText (lit "/*")))
      else if c = chr '=' then some (done .divequal s)
      else s.giveBack 1 .slash
  | s10 =>
      if c = 0 then some (done .error (s.swigError "Unterminated comment\n"))
      else if c = chr '\n' then s.giveBack 1 .comment
      else some (more s10 s)
  | s11 =>
      if c = 0 then some (done .error (s.swigError "Unterminated comment\n"))
      else if c = chr '*' then some (more s12 s)
      else some (more s11 s)
  | s12 =>
      if c = 0 then some (done .error (s.swigError "Unterminated comment\n"))
      else if c = chr '*' then some (more s12 s)
      else if c = chr '/' then some (done .comment s)
      else some (more s11 s)
  | s2 =>
      if c = 0 then some (done .error (s.swigError "Unterminated string\n"))
      else if c = 34 then some (done .string s.dropLastText)
      else if c = chr '\\' then (getEscape s.dropLastText).map (more s2)
      else some (more s2 s)
  | s3 => lookPair c s .lnot [(chr '=', .notequal)]
  | s31 => lookPair c s .and [(chr '&', .land), (chr '=', .andequal)]
  | s32 => lookPair c s .or [(chr '|', .lor), (chr '=', .orequal)]
  | s33 => lookPair c s .equal [(chr '=', .equalto)]
  | s4 =>
      if c = 0 then some (done .percent s)
      else if c = chr '{' then some (more s40 { s.restartText [] with startLine := s.line })
      else if s.idstart.contains (chr '%') && (isalpha c || c == chr '_') then some (more s7 s)
      else if c = chr '=' then some (done .modequal s)
      else s.giveBack 1 .percent
  | s40 =>
      if c = 0 then some (done .error (s.swigError "Unterminated block\n"))
      else if c = chr '%' then some (more s41 s)
      else some (more s40 s)
  | s41 =>
      if c = 0 then some (done .eof (s.setError s.startLine "Unterminated code block"))
      else if c = chr '}' then some (done .codeblock s.dropLastText.dropLastText)
      else some (more s40 s)
  | s5 =>
      if c = 0 then some (done .colon s)
      else if c = chr ':' then some (more s50 s)
      else s.giveBack 1 .colon
  | s50 => lookPair c s .dcolon [(chr '*', .dcolonstar)]
  | s60 =>
      if c = 0 then some (done .lessthan s)
      else if c = chr '<' then some (more s240 s)
      else if c = chr '=' then some (done .ltequal s)
      else s.giveBack 1 .lessthan
  | s61 =>
      if c = 0 then some (done .greaterthan s)
      else if c = chr '>' then some (more s250 s)
      else if c = chr '=' then some (done .gtequal s)
      else s.giveBack 1 .greaterthan
  | s7 =>
      if c = 0 then some (done .id s)
      else if isalnum c || c == chr '_' || c == chr '$' then some (more s7 s)
      else s.giveBack 1 .id
  | s75 =>
      if c = 0 then some (done .dollar s)
      else if isalnum c || c == chr '_' || c == chr '*' || c == chr '&' then some (more s7 s)
      else (s.retract 1).map fun s => done (if s.text.length = 1 then .dollar else .id) s
  | s8 =>
      if c = 0 then some (done .int s)
      else if c = chr '.' then some (more s81 s)
      else if isE c then some (more s82 s)
      else if isF c then some (done .float s.dropLastText)
      else if isdigit c then some (more s8 s)
      else if isL c then some (more s87 s)
      else if isU c then some (more s88 s)
      else s.giveBack 1 .int
  | s81 =>
      if c = 0 then some (done .double s)
      else if isdigit c then some (more s81 s)
      else if isE c then some (more s820 s)
      else if isF c then some (done .float s.dropLastText)
      else if isL c then some (done .double s.dropLastText)
      else s.giveBack 1 .double
  | s82 =>
      if c = 0 then s.giveBack 1 .int
      else if isdigit c || c == chr '-' || c == chr '+' then some (more s86 s)
      else s.giveBack 2 .int
  | s820 =>
      if c = 0 then s.giveBack 1 .double
      else if isdigit c || c == chr '-' || c == chr '+' then some (more s86 s)
      else s.giveBack 2 .double
  | s83 =>
      if c = 0 then some (done .int s)
      else if isdigit c then some (more s84 s)
      else if c = chr 'x' ∨ c = chr 'X' then some (more s85 s)
      else if c = chr '.' then some (more s81 s)
      else if isL c then some (more s87 s)
      else if isU c then some (more s88 s)
      else s.giveBack 1 .int
  | s84 =>
      if c = 0 then some (done .int s)
      else if isdigit c then some (more s84 s)
      else if isL c then some (more s87 s)
      else if isU c then some (more s88 s)
      else s.giveBack 1 .int
  | s85 =>
      if c = 0 then some (done .int s)
      else if isxdigit c then some (more s85 s)
      else if isL c then some (more s87 s)
      else if isU c then some (more s88 s)
      else s.giveBack 1 .int
  | s86 =>
      if c = 0 then some (done .double s)
      else if isdigit c then some (more s86 s)
      else if isF c then some (done .float s.dropLastText)
      else if isL c then some (done .double s.dropLastText)
      else s.giveBack 1 .double
  | s87 =>
      if c = 0 then some (done .long s)
      else if isU c then some (done .ulong s)
      else if isL c then some (more s870 s)
      else s.giveBack 1 .long
  | s870 =>
      if c = 0 then some (done .longlong s)
      else if isU c then some (done .ulonglong s)
      else s.giveBack 1 .longlong
  | s88 =>
      if c = 0 then some (done .uint s)
      else if isL c then some (more s880 s)
      else s.giveBack 1 .uint
  | s880 =>
      if c = 0 then some (done .ulong s)
      else if isL c then some (done .ulonglong s)
      else s.giveBack 1 .ulong
  | s9 =>
      if c = 0 then some (done .error (s.swigError "Unterminated character constant\n"))
      else if c = 39 then some (done .char s.dropLastText)
      else if c = chr '\\' then (getEscape s.dropLastText).map (more s9)
      else some (more s9 s)
  | s100 =>
      if c = 0 then some (done .eof s)
      else if isdigit c then some (more s81 s)
      else s.giveBack 1 .period
  | s200 => lookPair c s .plus [(chr '+', .plusplus), (chr '=', .plusequal)]
  | s210 =>
      if c = 0 then some (done .minus s)
      else if c = chr '-' then some (done .minusminus s)
      else if c = chr '=' then some (done .minusequal s)
      else if c = chr '>' then some (more s211 s)
      else s.giveBack 1 .minus
  | s211 => lookPair c s .arrow [(chr '*', .arrowstar)]
  | s220 => lookPair c s .star [(chr '=', .timesequal)]
  | s230 => lookPair c s .xor [(chr '=', .xorequal)]
  | s240 => lookPair c s .lshift [(chr '=', .lsequal)]
  | s250 => lookPair c s .rshift [(chr '=', .rsequal)]
  | s900 =>
      if c = 0 then some (done .error (s.swigError "Unterminated character constant\n"))
      else if c = 96 then some (done .rstring s.dropLastText)
      else some (more s900 s)
  | s99 => some (done .illegal s)

def lookLoop : ℕ → LookState → Scanner → Option (Token × Scanner)
  | 0, _, _ => none
  | n + 1, st, s =>
      (lookStep st s).bind fun
        | done tok s => some (tok, s)
        | more st s => lookLoop n st s

/-- `look`. Every round but the one from state 0 to state 1000 consumes a
character, so `remaining + 2` rounds are enough. -/
def look (s : Scanner) : Option (Token × Scanner) :=
  let s := { s with text := [], startLine := s.line }
  lookLoop (s.remaining + 2) s0 s

/-- `Scanner_token`. -/
def token (s : Scanner) : Option (Token × Scanner) :=
  match s.nexttoken with
  | some t => some (t, { s with nexttoken := none })
  | none =>
      (look { s with startLine := 0 }).map fun (t, s) =>
        (t, { s with textLine := if s.startLine = 0 then s.line else s.startLine })

end Scanner

end Swig
