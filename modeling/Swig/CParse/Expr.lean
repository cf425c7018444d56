import Swig.SType.TypeStr
import Swig.CParse.CppTokens

/-!
The constant expressions of `parser.y`: the parse trees of `expr`, `valexpr`,
`exprnum` and `exprcompound`, and the text and the type that the actions give them.
-/

namespace Swig.CParse

open SType Lexing

/-! ### Type codes -/

def T_UCHAR : ℕ := 3
def T_INT : ℕ := 7
def T_UINT : ℕ := 8
def T_LONG : ℕ := 9
def T_ULONG : ℕ := 10
def T_LONGLONG : ℕ := 11
def T_ULONGLONG : ℕ := 12
def T_FLOAT : ℕ := 20
def T_DOUBLE : ℕ := 21
def T_LONGDOUBLE : ℕ := 22
def T_FLTCPLX : ℕ := 23
def T_DBLCPLX : ℕ := 24
def T_CHAR : ℕ := 29
def T_STRING : ℕ := 33

def promoteType (t : ℕ) : ℕ := if t ≤ T_UCHAR ∨ t = T_CHAR then T_INT else t

def promote (t1 t2 : ℕ) : ℕ := max (promoteType t1) (promoteType t2)

/-! ### Parse trees -/

/-- The tokens of `exprnum`. -/
inductive NumToken | int | float | unsigned | long | ulong | longlong | ulonglong
  deriving DecidableEq

/-- The type that `yylex` gives a number. -/
def NumToken.type : NumToken → ℕ
  | .int => T_INT
  | .float => T_DOUBLE
  | .unsigned => T_UINT
  | .long => T_LONG
  | .ulong => T_ULONG
  | .longlong => T_LONGLONG
  | .ulonglong => T_ULONGLONG

inductive UnaryOp | and | star | minus | plus | not | lnot
  deriving DecidableEq

inductive BinaryOp
  | plus | minus | star | slash | modulus | and | or | xor | lshift | rshift | land | lor | equalto | notequalto
  | greaterthanorequalto | lessthanorequalto
  deriving DecidableEq

/-- What stands behind the type of a cast. -/
inductive CastSuffix
  | none
  | pointer (p : SwigType)
  | and
  | pointerAnd (p : SwigType)
  deriving DecidableEq

/-- An expression. A type that is the name of an enum item has the scope and the name
of the item. -/
inductive Expr
  | num (token : NumToken) (text : List Byte)
  | type (t : SwigType) (enumitem : Option (List Byte × List Byte))
  | string (text : List Byte)
  | charconst (text : List Byte)
  | sizeof (t : SwigType) (declarator : SwigType)
  | paren (e : Expr)
  | cast (t : Expr) (suffix : CastSuffix) (e : Expr)
  | unary (op : UnaryOp) (e : Expr)
  | binary (op : BinaryOp) (a b : Expr)
  | cond (a b c : Expr)
  deriving DecidableEq

/-! ### Semantic actions -/

def UnaryOp.text : UnaryOp → List Byte
  | .and => lit "&"
  | .star => lit "*"
  | .minus => lit "-"
  | .plus => lit "+"
  | .not => lit "~"
  | .lnot => lit "!"

/-- The operator as it is written, with its blanks. -/
def BinaryOp.text : BinaryOp → List Byte
  | .plus => lit "+"
  | .minus => lit "-"
  | .star => lit "*"
  | .slash => lit "/"
  | .modulus => lit "%"
  | .and => lit "&"
  | .or => lit "|"
  | .xor => lit "^"
  | .lshift => lit " << "
  | .rshift => lit " >> "
  | .land => lit "&&"
  | .lor => lit "||"
  | .equalto => lit "=="
  | .notequalto => lit "!="
  | .greaterthanorequalto => lit " SWIG_GE "
  | .lessthanorequalto => lit " SWIG_LE "

def BinaryOp.type : BinaryOp → ℕ → ℕ → ℕ
  | .plus, a, b | .minus, a, b | .star, a, b | .slash, a, b | .modulus, a, b | .and, a, b | .or, a, b | .xor, a, b =>
      promote a b
  | .lshift, a, _ | .rshift, a, _ => promoteType a
  | _, _, _ => T_INT

/-- `$$.type`. -/
def Expr.typeCode : Expr → ℕ
  | .num token _ => token.type
  | .type _ _ => T_INT
  | .string _ => T_STRING
  | .charconst _ => T_CHAR
  | .sizeof _ _ => T_ULONG
  | .paren e => e.typeCode
  | .cast _ _ e => e.typeCode
  | .unary .lnot _ => T_INT
  | .unary _ e => e.typeCode
  | .binary op a b => op.type a.typeCode b.typeCode
  | .cond _ b c => promote b.typeCode c.typeCode

/-- The types for which the text of a cast is not made by `SwigType_str`. -/
def isFloatCode (type : ℕ) : Bool :=
  type == T_FLOAT || type == T_DOUBLE || type == T_LONGDOUBLE || type == T_FLTCPLX || type == T_DBLCPLX

/-- The text of the type of a cast, given the type and the text of the expression that
stands for it: `SwigType_str` and decimal points do not mix. -/
def CastSuffix.spell : CastSuffix → ℕ → List Byte → List Byte
  | .none, type, val => if isFloatCode type then val else str val []
  | .pointer p, _, val => str (push val p) []
  | .and, _, val => str (addReference val) []
  | .pointerAnd p, _, val => str (addReference (push val p)) []

/-- What is between a cast and its operand. -/
def CastSuffix.blank : CastSuffix → ℕ → List Byte
  | .none, type => if isFloatCode type then [] else lit " "
  | _, _ => lit " "

def sizeofText (t declarator : SwigType) : List Byte := str (push t declarator) []

/-- `$$.val`. -/
def Expr.val : Expr → List Byte
  | .num _ text => text
  | .type t none => t
  | .type _ (some (q, name)) => q ++ lit "::" ++ name
  | .string text => text
  | .charconst text => text
  | .sizeof t declarator => lit "sizeof(" ++ sizeofText t declarator ++ lit ")"
  | .paren e => lit "(" ++ e.val ++ lit ")"
  | .cast t suffix e =>
      if e.typeCode ≠ T_STRING then
        lit "(" ++ suffix.spell t.typeCode t.val ++ lit ")" ++ suffix.blank t.typeCode ++ e.val
      else e.val
  | .unary op e => op.text ++ e.val
  | .binary op a b => a.val ++ op.text ++ b.val
  | .cond a b c => a.val ++ lit "?" ++ b.val ++ lit ":" ++ c.val

/-! ### The tokens of the source -/

def UnaryOp.tokens (op : UnaryOp) : List (List Byte) := [op.text]

/-- The operator alone. -/
def BinaryOp.tokens (op : BinaryOp) : List (List Byte) := [op.text.filter (!isspace ·)]

/-- The tokens of an expression, with the names and the types as they are spelled. -/
def Expr.tokens : Expr → Option (List (List Byte))
  | .num _ text => some [text]
  | .type t enumitem => plainTokens (Expr.type t enumitem).val
  | .string _ => none
  | .charconst _ => none
  | .sizeof t declarator =>
      (plainTokens (sizeofText t declarator)).map fun ts => lit "sizeof" :: lit "(" :: ts ++ [lit ")"]
  | .paren e => e.tokens.map fun ts => lit "(" :: ts ++ [lit ")"]
  | .cast t suffix e =>
      (plainTokens (suffix.spell t.typeCode t.val)).bind fun type => e.tokens.map fun ts =>
        lit "(" :: type ++ lit ")" :: ts
  | .unary op e => e.tokens.map fun ts => op.tokens ++ ts
  | .binary op a b => a.tokens.bind fun as => b.tokens.map fun bs => as ++ op.tokens ++ bs
  | .cond a b c =>
      a.tokens.bind fun as => b.tokens.bind fun bs => c.tokens.map fun cs => as ++ lit "?" :: bs ++ lit ":" :: cs

end Swig.CParse
