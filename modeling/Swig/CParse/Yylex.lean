import Swig.Scanner.Look

/-!
The lexer of the parser (`cscanner.c`): `yylook` reads tokens of the scanner, and `yylex` tells
identifiers from keywords and directives and collects the names of operators.
-/

namespace Swig

namespace Scanner

/-- `Scanner_set_location`. -/
def setLocation (s : Scanner) (line : ℤ) : Scanner :=
  { s with
    line
    scanobjs := match s.scanobjs with
      | [] => []
      | t :: ts => { t with line } :: ts }

/-- The loop of `Scanner_skip_line`; the character behind a backslash is not looked at. -/
def skipLineLoop : ℕ → Scanner → Scanner
  | 0, s => s
  | n + 1, s =>
      let (c, s) := nextchar s
      if c = 0 then s
      else if c = chr '\\' then skipLineLoop n (nextchar s).2
      else if c = chr '\n' then s
      else skipLineLoop n s

/-- `Scanner_skip_line`. -/
def skipLine (s : Scanner) : Scanner := skipLineLoop (s.remaining + 1) { s with text := [], textLine := s.line }

/-- `Scanner_isoperator`: the codes from 100 on. -/
def isoperator : Token → Bool
  | .comma | .star | .equal | .equalto | .notequal | .plus | .minus | .and | .land | .or | .lor | .xor
  | .lessthan | .greaterthan | .ltequal | .gtequal | .not | .lnot | .slash | .percent
  | .lshift | .rshift | .plusplus | .minusminus | .plusequal | .minusequal | .timesequal | .divequal
  | .andequal | .orequal | .xorequal | .lsequal | .rsequal | .modequal | .arrow | .arrowstar => true
  | _ => false

end Scanner

namespace CParse

/-- The tokens of the grammar that the lexer returns; `eof` is 0. -/
inductive ParserToken
  | eof | illegal | nonid
  | id | hblock | pound | string | charconst
  | numInt | numFloat | numUnsigned | numLong | numUlong | numLonglong | numUlonglong
  | typeInt | typeDouble | typeVoid | typeChar | typeWchar | typeShort | typeLong | typeFloat
  | typeSigned | typeUnsigned | typeBool | typeComplex | typeTypedef | typeRaw
  | typeNonIsoInt8 | typeNonIsoInt16 | typeNonIsoInt32 | typeNonIsoInt64
  | lparen | rparen | semi | comma | star | rbrace | lbrace | equal | equalto | plus | minus | slash
  | and | land | or | lor | xor | not | lnot | notequalto | lbracket | rbracket | questionmark
  | lessthan | lessthanorequalto | lshift | greaterthan | greaterthanorequalto | rshift | period | modulo
  | colon | dcolon | dstar | dcnot
  | class_ | private_ | public_ | protected_ | friend | virtual | operator | coperator | throw | catch_
  | explicit | typename | template | deleteKw | using_ | namespace_
  | extern_ | constQual | static | struct_ | union_ | enum_ | sizeof | typedef | volatile | register
  | module_ | insert | name | rename | namewarn | include_ | constant | native | pragma | extend | fragment
  | inline_ | typemap | feature | except | import_ | echo | apply | clear | types | parms | varargs
  | swigtemplate | warn
  | parsetype | parseparm | parseparms
  deriving DecidableEq

/-- The types of numbers in `yylval.dtype`. -/
inductive NumType
  | int | double | ulong | long | uint | longlong | ulonglong
  deriving DecidableEq

/-- The member of `yylval` that was written last. -/
inductive Yylval
  | unset
  | id (s : List Byte)
  | str (s : List Byte)
  | type (t : List Byte)
  | dtype (type : NumType) (val : List Byte)
  | ivalue (n : ℤ)
  deriving DecidableEq

/-- The static variables of `cscanner.c`, without the names of files. -/
structure Lexer where
  scan : Scanner
  cplusplus : Bool
  numBrace : ℤ
  lastBrace : ℤ
  lastId : Bool
  renameActive : Bool
  expandingMacro : ℕ
  followLocators : Bool
  /-- The lines in the stack of locations. -/
  locs : List ℤ
  checkTypedef : Bool
  nextToken : Option ParserToken
  cparseLine : ℤ
  cparseStartLine : ℤ
  yylval : Yylval
  /-- Messages given to `Swig_warning`. -/
  warned : List String
  deriving DecidableEq

/-- Why a call does not return: the program was stopped (a null pointer, an assertion), or the
rounds allowed are over. -/
inductive Halt
  | crash
  | rounds
  deriving DecidableEq

/-- What a part of the lexer ends with: a token, or the next round. -/
inductive Lexed (L : Type)
  | token (l : ParserToken) (L : L)
  | again (L : L)

def ofScanner {α : Type} : Option α → Except Halt α
  | some a => .ok a
  | none => .error .crash

/-- A string object as a C string. -/
def cstr (s : List Byte) : List Byte := s.takeWhile (· != 0)

def bytesToString (s : List Byte) : String := String.ofList (s.map fun c => Char.ofNat c.toNat)

/-- `atoi` of a number that an `int` holds. -/
def atoi (s : List Byte) : ℤ :=
  let digits (s : List Byte) : ℤ := (s.takeWhile isdigit).foldl (fun n d => 10 * n + (d - chr '0').toNat) 0
  match s.dropWhile isspace with
  | 45 :: s => -digits s
  | 43 :: s => digits s
  | s => digits s

namespace Lexer

def swigError (L : Lexer) (msg : String) : Lexer := { L with scan := L.scan.swigError msg }

def swigWarning (L : Lexer) (msg : String) : Lexer := { L with warned := L.warned ++ [msg] }

/-! ### Locators -/

/-- The line in a locator, between the name of the file and the next mark. -/
def locatorLine (loc : List Byte) : ℤ :=
  let inside (c : Byte) : Bool := c != chr '@' && c != chr ','
  atoi ((((loc.drop 8).dropWhile inside).tail).takeWhile inside)

/-- `scanner_locator`. -/
def scannerLocator (L : Lexer) (loc : List Byte) : Lexer :=
  if !L.followLocators then
    let n := if loc = lit "/*@SWIG@*/" then L.expandingMacro - 1 else L.expandingMacro + 1
    { L with expandingMacro := n, scan := { L.scan with freezeLine := n != 0 } }
  else if loc[7]? = some (chr '@') then
    match L.locs with
    | [] => L
    | line :: locs => { L with scan := L.scan.setLocation line, cparseLine := line, locs }
  else
    { L with
      scan := L.scan.setLocation (locatorLine loc)
      cparseLine := locatorLine loc
      locs := L.cparseLine :: L.locs }

def isLocator (cmt : List Byte) : Bool := (lit "/*@SWIG").isPrefixOf cmt && cmt[cmt.length - 3]? == some (chr '@')

/-! ### `yylook` -/

/-- The tokens that `yylook` returns under another name only. -/
def parserToken : Token → Option ParserToken
  | .id => some .id
  | .lparen => some .lparen
  | .rparen => some .rparen
  | .semi => some .semi
  | .comma => some .comma
  | .star => some .star
  | .equal => some .equal
  | .equalto => some .equalto
  | .plus => some .plus
  | .minus => some .minus
  | .slash => some .slash
  | .and => some .and
  | .land => some .land
  | .or => some .or
  | .lor => some .lor
  | .xor => some .xor
  | .not => some .not
  | .lnot => some .lnot
  | .notequal => some .notequalto
  | .lbracket => some .lbracket
  | .rbracket => some .rbracket
  | .question => some .questionmark
  | .lessthan => some .lessthan
  | .ltequal => some .lessthanorequalto
  | .lshift => some .lshift
  | .greaterthan => some .greaterthan
  | .gtequal => some .greaterthanorequalto
  | .rshift => some .rshift
  | .period => some .period
  | .percent => some .modulo
  | .colon => some .colon
  | .dcolonstar => some .dstar
  | .int => some .numInt
  | .uint => some .numUnsigned
  | .long => some .numLong
  | .ulong => some .numUlong
  | .longlong => some .numLonglong
  | .ulonglong => some .numUlonglong
  | .double | .float => some .numFloat
  | _ => none

/-- `::`, with the token behind it. -/
def dcolon (L : Lexer) : Except Halt (Lexed Lexer) := do
  let (nexttok, scan) ← ofScanner L.scan.token
  match nexttok with
  | .star => return .token .dstar { L with scan }
  | .not => return .token .dcnot { L with scan }
  -- `Scanner_pushtoken` asserts that the token is not negative
  | .error => .error .crash
  | _ =>
      let L := { L with scan := scan.pushtoken nexttok scan.text }
      if !L.lastId then return .token .nonid { L with nextToken := some .dcolon }
      else return .token .dcolon L

/-- A round of the loop of `yylook`. -/
def yylookRound (L : Lexer) : Except Halt (Lexed Lexer) := do
  let (tok, scan) ← ofScanner L.scan.token
  if tok = .eof ∨ tok = .error then return .token .eof { L with scan }
  else
  let L := { L with scan, cparseStartLine := scan.startLine, cparseLine := scan.line }
  match tok with
  | .rbrace =>
      if L.numBrace - 1 < 0 then
        return .again (swigError { L with numBrace := 0 } "Syntax error. Extraneous '\x7d'\n")
      else return .token .rbrace { L with numBrace := L.numBrace - 1 }
  | .lbrace => return .token .lbrace { L with lastBrace := L.numBrace, numBrace := L.numBrace + 1 }
  | .dcolon => L.dcolon
  | .rstring => return .token .typeRaw { L with yylval := .type scan.text }
  | .string => return .token .string { L with yylval := .id (cstr scan.text) }
  | .char =>
      let L := { L with yylval := .str scan.text }
      return .token .charconst (if scan.text = [] then L.swigError "Empty character constant\n" else L)
  | .pound =>
      let scan := scan.skipLine
      return .token .pound { L with scan, yylval := .id (cstr scan.text) }
  | .codeblock => return .token .hblock { L with yylval := .str scan.text }
  | .comment => return .again (if isLocator scan.text then L.scannerLocator scan.text else L)
  | .endline | .backslash => return .again L
  | tok =>
      match parserToken tok with
      | some l => return .token l L
      | none => return .token .illegal (L.swigError ("Illegal token '" ++ bytesToString scan.text ++ "'.\n"))

/-- `yylook`. -/
def yylook : ℕ → Lexer → Except Halt (ParserToken × Lexer)
  | 0, _ => .error .rounds
  | n + 1, L => do
      match ← L.yylookRound with
      | .token l L => return (l, L)
      | .again L => yylook n L

/-! ### Operator names -/

/-- The tokens that end the name of an operator, with `termvalue`. -/
def terminator : Token → List Byte → Option (List Byte)
  | .lparen, _ => some (lit "(")
  | .codeblock, text => some text
  | .lbrace, _ => some [chr '{']
  | .semi, _ => some (lit ";")
  | .string, text => some (cstr text)
  | _, _ => none

def badOperator : String := "Syntax error. Bad operator name.\n"

/-- The end of the input is reported, but the loop is not left. -/
def reportEnd (tok : Token) (scan : Scanner) : Scanner :=
  if tok = .eof ∨ tok = .error then scan.swigError badOperator else scan

/-- The loop that collects a name that begins with an identifier. -/
def operatorLoop : ℕ → Bool → List Byte → Scanner → Except Halt (List Byte × Token × List Byte × Scanner)
  | 0, _, _, _ => .error .rounds
  | n + 1, needspace, s, scan => do
      let (nexttok, scan) ← ofScanner scan.token
      let scan := reportEnd nexttok scan
      match terminator nexttok scan.text with
      | some termvalue => return (s, nexttok, termvalue, scan)
      | none =>
          if nexttok = .id then operatorLoop n needspace (s ++ (if needspace then [chr ' '] else []) ++ scan.text) scan
          else operatorLoop n false (s ++ scan.text) scan

/-- The names that are no conversion operators. -/
def operatorNames : List (List Byte) :=
  [lit "new", lit "delete", lit "new[]", lit "delete[]", lit "and", lit "and_eq", lit "bitand", lit "bitor",
    lit "compl", lit "not", lit "not_eq", lit "or", lit "or_eq", lit "xor", lit "xor_eq"]

/-- The name `s` that `termtoken` ends: the type of a conversion operator is read again. -/
def endOperator (L : Lexer) (s : List Byte) (termtoken : Token) (termvalue : List Byte) : Lexed Lexer :=
  let L := { L with yylval := .str s }
  let t := cstr (s.drop 9)
  if !L.renameActive && !operatorNames.contains t then
    .token .coperator { L with scan := L.scan.push ⟨t ++ cstr termvalue, 0, L.cparseLine⟩ }
  else .token .operator { L with scan := L.scan.pushtoken termtoken termvalue }

/-- The tokens behind `operator`; where they are no operator, the comparisons go on. -/
def operatorName (fuel : ℕ) (L : Lexer) : Except Halt (Lexed Lexer) := do
  let s := lit "operator "
  let (nexttok, scan) ← ofScanner L.scan.token
  let L := { L with scan }
  if Scanner.isoperator nexttok then return .token .operator { L with yylval := .str (s ++ scan.text) }
  else match nexttok with
    | .lparen =>
        let (nexttok, scan) ← ofScanner scan.token
        let L := { L with scan }
        if nexttok ≠ .rparen then return .again (L.swigError badOperator)
        else return .token .operator { L with yylval := .str (s ++ lit "()") }
    | .lbracket =>
        let (nexttok, scan) ← ofScanner scan.token
        let L := { L with scan }
        if nexttok ≠ .rbracket then return .again (L.swigError badOperator)
        else return .token .operator { L with yylval := .str (s ++ lit "[]") }
    | .id =>
        let (s, termtoken, termvalue, scan) ← operatorLoop fuel true (s ++ scan.text) scan
        return endOperator { L with scan } s termtoken termvalue
    | _ => return .again L

/-! ### Words -/

/-- What is done with a word. -/
inductive Word
  | token (l : ParserToken)
  | typed (l : ParserToken) (type : List Byte)
  | valued (l : ParserToken) (n : ℤ)
  | line (l : ParserToken)
  | rename (l : ParserToken)
  | skip
  | ignored (warning : String)

def typeWords : List (List Byte × Word) :=
  [(lit "int", .typed .typeInt (lit "int")), (lit "double", .typed .typeDouble (lit "double")),
    (lit "void", .typed .typeVoid (lit "void")), (lit "char", .typed .typeChar (lit "char")),
    -- `NewSwigType` has no text for `T_WCHAR`
    (lit "wchar_t", .typed .typeWchar []),
    (lit "short", .typed .typeShort (lit "short")), (lit "long", .typed .typeLong (lit "long")),
    (lit "float", .typed .typeFloat (lit "float")), (lit "signed", .typed .typeSigned (lit "int")),
    (lit "unsigned", .typed .typeUnsigned (lit "unsigned int")), (lit "bool", .typed .typeBool (lit "bool")),
    (lit "__int8", .typed .typeNonIsoInt8 (lit "__int8")),
    (lit "__int16", .typed .typeNonIsoInt16 (lit "__int16")),
    (lit "__int32", .typed .typeNonIsoInt32 (lit "__int32")),
    (lit "__int64", .typed .typeNonIsoInt64 (lit "__int64"))]

/-- The C++ keywords before `operator`. -/
def cppWords : List (List Byte × Word) :=
  [(lit "and", .token .land), (lit "or", .token .lor), (lit "not", .token .lnot), (lit "class", .token .class_),
    (lit "private", .token .private_), (lit "public", .token .public_), (lit "protected", .token .protected_),
    (lit "friend", .token .friend), (lit "virtual", .token .virtual)]

/-- The C++ keywords after `operator`. -/
def cppWords' : List (List Byte × Word) :=
  [(lit "throw", .token .throw), (lit "try", .skip), (lit "catch", .token .catch_), (lit "inline", .skip),
    (lit "mutable", .skip), (lit "explicit", .token .explicit), (lit "export", .skip),
    (lit "typename", .token .typename), (lit "template", .line .template), (lit "delete", .token .deleteKw),
    (lit "using", .token .using_), (lit "namespace", .token .namespace_)]

def cWords : List (List Byte × Word) := [(lit "complex", .typed .typeComplex (lit "complex")), (lit "restrict", .skip)]

def miscWords : List (List Byte × Word) :=
  [(lit "extern", .token .extern_), (lit "const", .token .constQual), (lit "static", .token .static),
    (lit "struct", .token .struct_), (lit "union", .token .union_), (lit "enum", .token .enum_),
    (lit "sizeof", .token .sizeof), (lit "typedef", .valued .typedef 0), (lit "volatile", .token .volatile),
    (lit "register", .token .register), (lit "inline", .skip)]

def directives : List (List Byte × Word) :=
  [(lit "%module", .token .module_), (lit "%insert", .token .insert), (lit "%name", .token .name),
    (lit "%rename", .rename .rename), (lit "%namewarn", .rename .namewarn), (lit "%includefile", .token .include_),
    (lit "%val", .ignored "%val directive deprecated (ignored).\n"),
    (lit "%out", .ignored "%out directive deprecated (ignored).\n"),
    (lit "%constant", .token .constant), (lit "%typedef", .valued .typedef 1), (lit "%native", .token .native),
    (lit "%pragma", .token .pragma), (lit "%extend", .token .extend), (lit "%fragment", .token .fragment),
    (lit "%inline", .token .inline_), (lit "%typemap", .token .typemap), (lit "%feature", .rename .feature),
    (lit "%except", .token .except), (lit "%importfile", .token .import_), (lit "%echo", .token .echo),
    (lit "%apply", .token .apply), (lit "%clear", .token .clear), (lit "%types", .token .types),
    (lit "%parms", .token .parms), (lit "%varargs", .token .varargs), (lit "%template", .token .swigtemplate),
    (lit "%warn", .token .warn)]

def word (L : Lexer) : Word → Lexed Lexer
  | .token l => .token l L
  | .typed l type => .token l { L with yylval := .type type }
  | .valued l n => .token l { L with yylval := .ivalue n }
  | .line l => .token l { L with yylval := .ivalue L.cparseLine }
  | .rename l => .token l { L with renameActive := true }
  | .skip => .again L
  | .ignored warning => .again (L.swigWarning warning)

/-! ### `yylex` -/

variable (istypedef : List Byte → Bool)

/-- An identifier that is none of the words. -/
def unknown (L : Lexer) (yytext : List Byte) : Lexed Lexer :=
  if L.checkTypedef && istypedef yytext then .token .typeTypedef { L with yylval := .type yytext }
  else .token .id { L with yylval := .id yytext, lastId := true }

def lookWord (L : Lexer) (yytext : List Byte) (words : List (List Byte × Word)) : Lexed Lexer :=
  match words.lookup yytext with
  | some w => L.word w
  | none => L.unknown istypedef yytext

/-- The identifiers. `yytext` points to the text of the scanner, which holds the last token read
when the comparisons go on after `operator`. -/
def identifier (fuel : ℕ) (L : Lexer) : Except Halt (Lexed Lexer) := do
  let yytext := cstr L.scan.text
  if yytext.head? ≠ some (chr '%') then
    match typeWords.lookup yytext with
    | some w => return L.word w
    | none =>
        if L.cplusplus then
          match cppWords.lookup yytext with
          | some w => return L.word w
          | none =>
              if yytext = lit "operator" then
                match ← L.operatorName fuel with
                | .token l L => return .token l L
                | .again L => return L.lookWord istypedef (cstr L.scan.text) (cppWords' ++ miscWords)
              else return L.lookWord istypedef yytext (cppWords' ++ miscWords)
        else
          let L := if yytext = lit "class" then L.swigWarning "class keyword used, but not in C++ mode.\n" else L
          return L.lookWord istypedef yytext (cWords ++ miscWords)
  else return L.lookWord istypedef yytext directives

def numType : ParserToken → Option NumType
  | .numInt => some .int
  | .numFloat => some .double
  | .numUlong => some .ulong
  | .numLong => some .long
  | .numUnsigned => some .uint
  | .numLonglong => some .longlong
  | .numUlonglong => some .ulonglong
  | _ => none

/-- A call of `yylex` up to the call that it ends with. -/
def yylexRound (fuel : ℕ) (L : Lexer) : Except Halt (Lexed Lexer) :=
  match L.nextToken with
  | some l => return .token l { L with nextToken := none }
  | none => do
      let (l, L) ← yylook fuel L
      let L := { L with
        lastId := l = .nonid
        cparseStartLine := if L.cparseStartLine = 0 then L.cparseLine else L.cparseStartLine }
      match l with
      | .id => L.identifier istypedef fuel
      | .pound => return .again L
      | l =>
          match numType l with
          | some type => return .token l { L with yylval := .dtype type L.scan.text }
          | none => return .token l L

/-- `yylex`, in at most `fuel` rounds of each of its loops. -/
def yylex : ℕ → Lexer → Except Halt (ParserToken × Lexer)
  | 0, _ => .error .rounds
  | n + 1, L => do
      match ← L.yylexRound istypedef n with
      | .token l L => return (l, L)
      | .again L => yylex n L

end Lexer

end CParse

end Swig
