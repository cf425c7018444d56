import Mathlib.Logic.Function.Basic
import Swig.Scanner.Token

/-!
The evaluator of controlling expressions (`expr.c`): an operator stack of 256
entries, a static stack pointer and the precedence table.

The input is the sequence of tokens the scanner delivers, each with its text.
An operator on the stack is kept as its token code in the `value` field, as in
the source. `long` has 64 bits, and its arithmetic wraps around.
-/

namespace Swig.Preprocessor

abbrev Long := BitVec 64

def Long.ofBool (b : Bool) : Long := if b then 1 else 0

/-! ### Operators -/

/-- `SWIG_TOKEN_NOT`, `SWIG_TOKEN_LNOT` and `EXPR_UMINUS`. -/
inductive UnaryOp
  | not
  | lnot
  | uminus
  deriving DecidableEq

inductive BinaryOp
  | star | equalto | notequal | plus | minus | and | land | or | lor | xor
  | lessthan | greaterthan | ltequal | gtequal | slash | percent | lshift | rshift
  deriving DecidableEq

def UnaryOp.code : UnaryOp → ℕ
  | .not => 117
  | .lnot => 118
  | .uminus => 100

def BinaryOp.code : BinaryOp → ℕ
  | .star => 102
  | .equalto => 104
  | .notequal => 105
  | .plus => 106
  | .minus => 107
  | .and => 108
  | .land => 109
  | .or => 110
  | .lor => 111
  | .xor => 112
  | .lessthan => 113
  | .greaterthan => 114
  | .ltequal => 115
  | .gtequal => 116
  | .slash => 119
  | .percent => 120
  | .lshift => 121
  | .rshift => 122

/-- The operator with a token code, if there is one. -/
def unaryOf (code : Long) : Option UnaryOp :=
  [.not, .lnot, .uminus].find? fun o => BitVec.ofNat 64 o.code == code

def binaryOf (code : Long) : Option BinaryOp :=
  [.star, .equalto, .notequal, .plus, .minus, .and, .land, .or, .lor, .xor, .lessthan,
    .greaterthan, .ltequal, .gtequal, .slash, .percent, .lshift, .rshift].find?
    fun o => BitVec.ofNat 64 o.code == code

/-- `init_precedence`; low values bind tighter. -/
def UnaryOp.prec : UnaryOp → ℕ
  | .not => 10
  | .uminus => 10
  | .lnot => 90

def BinaryOp.prec : BinaryOp → ℕ
  | .star | .slash | .percent => 20
  | .plus | .minus => 30
  | .lshift | .rshift => 40
  | .and => 50
  | .xor => 60
  | .or => 70
  | .equalto | .notequal | .lessthan | .greaterthan | .ltequal | .gtequal => 80
  | .land => 100
  | .lor => 110

/-- `prec[op]` for a code on the stack. -/
def precOf (code : Long) : ℕ :=
  match unaryOf code, binaryOf code with
  | some o, _ => o.prec
  | none, some o => o.prec
  | none, none => 0

def UnaryOp.apply : UnaryOp → Long → Long
  | .not, a => ~~~a
  | .lnot, a => .ofBool (a == 0)
  | .uminus, a => -a

/-- The binary operators; no result where the C operation is undefined. -/
def BinaryOp.apply : BinaryOp → Long → Long → Option Long
  | .star, a, b => some (a * b)
  | .equalto, a, b => some (.ofBool (a == b))
  | .notequal, a, b => some (.ofBool (a != b))
  | .plus, a, b => some (a + b)
  | .minus, a, b => some (a - b)
  | .and, a, b => some (a &&& b)
  | .land, a, b => some (.ofBool (a != 0 && b != 0))
  | .or, a, b => some (a ||| b)
  | .lor, a, b => some (.ofBool (a != 0 || b != 0))
  | .xor, a, b => some (a ^^^ b)
  | .lessthan, a, b => some (.ofBool (a.slt b))
  | .greaterthan, a, b => some (.ofBool (b.slt a))
  | .ltequal, a, b => some (.ofBool (a.sle b))
  | .gtequal, a, b => some (.ofBool (b.sle a))
  | .slash, a, b => if b = 0 ∨ (a = BitVec.intMin 64 ∧ b = -1) then none else some (a.sdiv b)
  | .percent, a, b => if b = 0 ∨ (a = BitVec.intMin 64 ∧ b = -1) then none else some (a.srem b)
  | .lshift, a, b => if b.toNat < 64 then some (a <<< b.toNat) else none
  | .rshift, a, b => if b.toNat < 64 then some (a.sshiftRight b.toNat) else none

/-! ### Numbers -/

/-- The value of a digit in a base up to 36. -/
def digitIn (base : ℕ) (c : Byte) : Option ℕ :=
  let d := if isdigit c then digitVal c
    else if islower c then (c - chr 'a').toNat + 10
    else if isupper c then (c - chr 'A').toNat + 10
    else base
  if d < base then some d else none

/-- The number made of the leading digits. -/
def digitsIn (base : ℕ) : ℕ → List Byte → ℕ
  | acc, [] => acc
  | acc, c :: cs =>
      match digitIn base c with
      | some d => digitsIn base (acc * base + d) cs
      | none => acc

/-- The base a literal announces and its digits. -/
def literalBase : List Byte → ℕ × List Byte
  | 48 :: x :: c :: cs =>
      if (x = chr 'x' ∨ x = chr 'X') ∧ (digitIn 16 c).isSome then (16, c :: cs)
      else (8, 48 :: x :: c :: cs)
  | 48 :: cs => (8, 48 :: cs)
  | cs => (10, cs)

/-- `strtol(s, 0, 0)`, which stops at `LONG_MIN` and `LONG_MAX`. -/
def strtol (s : List Byte) : Long :=
  let s := s.dropWhile isspace
  let (negative, s) := match s with
    | 45 :: s => (true, s)
    | 43 :: s => (false, s)
    | s => (false, s)
  let (base, digits) := literalBase s
  let n := digitsIn base 0 digits
  if negative then BitVec.ofInt 64 (-(min n (2 ^ 63) : ℕ)) else BitVec.ofNat 64 (min n (2 ^ 63 - 1))

/-! ### The stack -/

/-- `EXPR_TOP`, `EXPR_VALUE`, `EXPR_OP`, `EXPR_GROUP`; `unset` is the zero of a
static array. -/
inductive ExprOp
  | unset
  | top
  | value
  | op
  | group
  deriving DecidableEq

structure ExprVal where
  op : ExprOp := .unset
  value : Long := 0
  svalue : Option (List Byte) := none
  deriving DecidableEq

structure ExprState where
  stack : ℕ → ExprVal
  sp : ℕ
  errmsg : Option (List Byte)

def ExprState.initial : ExprState := { stack := fun _ => {}, sp := 0, errmsg := none }

inductive Stop
  /-- `*error = 1`, with the message in `errmsg`. -/
  | error
  | outOfBounds
  | assertion
  | undefined
  | abort
  deriving DecidableEq

structure Failure where
  reason : Stop
  state : ExprState

abbrev Eval := Except Failure

namespace ExprState

variable (st : ExprState)

def fail {α : Type} (msg : String) : Eval α :=
  .error ⟨.error, { st with errmsg := some (lit msg) }⟩

def stop {α : Type} (reason : Stop) : Eval α := .error ⟨reason, st⟩

def get (i : ℕ) : Eval ExprVal := if i < 256 then .ok (st.stack i) else st.stop .outOfBounds

def set (i : ℕ) (v : ExprVal) : Eval ExprState :=
  if i < 256 then .ok { st with stack := Function.update st.stack i v } else st.stop .outOfBounds

end ExprState

/-- `stack[sp - 2].value = v; sp -= 2`. -/
def storeBinary (st : ExprState) (v : Long) : Eval ExprState := do
  let left ← st.get (st.sp - 2)
  let st ← st.set (st.sp - 2) { left with value := v }
  pure { st with sp := st.sp - 2 }

/-- The comparison of two strings. -/
def reduceStrings (st : ExprState) (code : Long) (s : List Byte) : Eval ExprState := do
  let left ← st.get (st.sp - 2)
  match binaryOf code with
  | some .equalto => storeBinary st (.ofBool (strcmp (left.svalue.getD []) s == .eq))
  | some .notequal => storeBinary st (.ofBool (strcmp (left.svalue.getD []) s != .eq))
  | _ => st.fail "Syntax error: bad binary operator for strings"

def reduceNumbers (st : ExprState) (code : Long) : Eval ExprState := do
  let top ← st.get st.sp
  match unaryOf code, binaryOf code with
  | some o, _ => do
      let opv ← st.get (st.sp - 1)
      let st ← st.set (st.sp - 1) { opv with value := o.apply top.value }
      pure { st with sp := st.sp - 1 }
  | none, some o => do
      let left ← st.get (st.sp - 2)
      match o.apply left.value top.value with
      | some v => storeBinary st v
      | none => st.stop .undefined
  | none, none => st.fail "Syntax error: bad operator"

/-- The checks of `reduce_op` before it reduces. -/
def checkOperands (st : ExprState) (code : Long) (top : ExprVal) : Eval Unit :=
  if (unaryOf code).isSome then
    if top.svalue.isSome then
      st.fail "Syntax error: attempt to apply unary operator to string"
    else
      pure ()
  else if st.sp = 1 then
    st.fail "Missing left-hand side for binary operator"
  else if top.op ≠ .value then
    st.fail "Left-hand side of binary operator is not a value"
  else do
    let left ← st.get (st.sp - 2)
    if left.svalue.isNone ≠ top.svalue.isNone then
      st.fail "Can't mix strings and integers in expression"

/-- `reduce_op`: reduce the operator below the top of the stack. -/
def reduceOp (st : ExprState) : Eval ExprState :=
  if st.sp = 0 then
    st.stop .outOfBounds
  else do
    let opv ← st.get (st.sp - 1)
    if opv.op ≠ .op then
      st.stop .assertion
    else
      let top ← st.get st.sp
      if top.op ≠ .value then
        st.fail "Right-hand side is not value"
      else
        checkOperands st opv.value top
        let st ← match top.svalue with
          | some s => reduceStrings st opv.value s
          | none => reduceNumbers st opv.value
        let top ← st.get st.sp
        st.set st.sp { top with op := .value, svalue := none }

/-- Reduce while the entry below the top is an operator. Each reduction lowers
`sp`, so `sp` rounds suffice. -/
def reduceLoop : ℕ → ExprState → Eval ExprState
  | 0, st => .ok st
  | fuel + 1, st =>
      if st.sp = 0 then
        .ok st
      else do
        let below ← st.get (st.sp - 1)
        if below.op = .op then
          let st ← reduceOp st
          reduceLoop fuel st
        else
          .ok st

/-! ### The parser -/

abbrev ExprToken := Token × List Byte

/-- Push a binary operator and expect its right operand. -/
def pushBinary (st : ExprState) (o : BinaryOp) : Eval ExprState := do
  let v ← st.get (st.sp + 1)
  let st ← st.set (st.sp + 1) { v with op := .op, value := BitVec.ofNat 64 o.code }
  let v ← st.get (st.sp + 2)
  let st ← st.set (st.sp + 2) { v with op := .top, value := 0 }
  pure { st with sp := st.sp + 2 }

/-- Push a prefix operator and expect its operand. -/
def pushUnary (st : ExprState) (o : UnaryOp) : Eval ExprState := do
  let v ← st.get st.sp
  let st ← st.set st.sp { v with op := .op, value := BitVec.ofNat 64 o.code }
  let v ← st.get (st.sp + 1)
  let st ← st.set (st.sp + 1) { v with op := .top, svalue := none }
  pure { st with sp := st.sp + 1 }

def pushGroup (st : ExprState) : Eval ExprState := do
  let v ← st.get st.sp
  let st ← st.set st.sp { v with op := .group }
  let v ← st.get (st.sp + 1)
  let st ← st.set (st.sp + 1) { v with op := .top, value := 0, svalue := none }
  pure { st with sp := st.sp + 1 }

/-- An `EXPR_TOP` is on the stack: the start of an operand is expected. -/
def exprTop (st : ExprState) (t : ExprToken) : Eval ExprState :=
  match t.1 with
  | .int | .uint | .long | .ulong =>
      st.set st.sp { op := .value, value := strtol t.2, svalue := none }
  | .plus => .ok st
  | .minus => pushUnary st .uminus
  | .lnot => pushUnary st .lnot
  | .not => pushUnary st .not
  | .lparen => pushGroup st
  | .endline => .ok st
  | .string => do
      let v ← st.get st.sp
      st.set st.sp { v with op := .value, svalue := some t.2 }
  | .id => st.set st.sp { op := .value, value := 0, svalue := none }
  | _ => st.fail "Syntax error"

/-- The binary operator of a token. -/
def tokenBinary : Token → Option BinaryOp
  | .star => some .star
  | .equalto => some .equalto
  | .notequal => some .notequal
  | .plus => some .plus
  | .minus => some .minus
  | .and => some .and
  | .land => some .land
  | .or => some .or
  | .lor => some .lor
  | .xor => some .xor
  | .lessthan => some .lessthan
  | .greaterthan => some .greaterthan
  | .ltequal => some .ltequal
  | .gtequal => some .gtequal
  | .slash => some .slash
  | .percent => some .percent
  | .lshift => some .lshift
  | .rshift => some .rshift
  | _ => none

/-- A binary operator after a value: the operator below is reduced first if it
binds at least as tight. -/
def exprBinary (st : ExprState) (o : BinaryOp) : Eval ExprState :=
  if st.sp = 0 then
    pushBinary st o
  else do
    let below ← st.get (st.sp - 1)
    if below.op = .group then
      pushBinary st o
    else if below.op ≠ .op then
      st.fail "Syntax error: expected operator"
    else if precOf below.value ≤ o.prec then
      let st ← reduceOp st
      pushBinary st o
    else
      pushBinary st o

def exprRparen (st : ExprState) : Eval ExprState :=
  if st.sp = 0 then
    st.fail "Extra ')'"
  else do
    let st ← reduceLoop st.sp st
    if st.sp = 0 then
      st.fail "Extra ')'"
    else
      let below ← st.get (st.sp - 1)
      if below.op ≠ .group then
        st.fail "Extra ')'"
      else
        let top ← st.get st.sp
        let st ← st.set (st.sp - 1) { below with op := .value, value := top.value }
        pure { st with sp := st.sp - 1 }

/-- An `EXPR_VALUE` is on the stack: an operator is expected. -/
def exprValue (st : ExprState) (t : ExprToken) : Eval ExprState :=
  match tokenBinary t.1 with
  | some o => exprBinary st o
  | none => if t.1 = .rparen then exprRparen st else st.fail "Syntax error: expected operator"

/-- The end of the input after a value: everything is reduced. -/
def exprEnd (st : ExprState) : Eval ExprState := do
  let st ← reduceLoop st.sp st
  if st.sp = 0 then
    .ok st
  else
    let below ← st.get (st.sp - 1)
    if below.op = .group then st.fail "Missing ')'" else st.fail "Syntax error"

/-- One round of the loop, on the next token or at the end of the input. -/
def exprStep (st : ExprState) (t : ExprToken) : Eval ExprState := do
  let top ← st.get st.sp
  match top.op with
  | .top => exprTop st t
  | .value => exprValue st t
  | _ => st.stop .abort

def exprFinish (st : ExprState) : Eval ExprState := do
  let top ← st.get st.sp
  match top.op with
  | .top => st.fail "Expected an expression"
  | .value => exprEnd st
  | _ => st.stop .abort

/-- The tokens `expr_token` passes over. -/
def skipped (t : Token) : Bool := t == .backslash || t == .endline || t == .comment

def exprLoop (st : ExprState) : List ExprToken → Eval ExprState
  | [] => exprFinish st
  | t :: ts =>
      if skipped t.1 then exprLoop st ts
      else if t.1 = .eof then exprFinish st
      else do
        let st ← exprStep st t
        exprLoop st ts

/-- The result of `Preprocessor_expr` and the error code it stores. -/
structure ExprResult where
  value : ℤ
  error : ℤ
  deriving DecidableEq

def preprocessorExprLoop (st : ExprState) (ts : List ExprToken) : Eval ExprState := do
  let st := { st with sp := 0 }
  let v ← st.get 0
  let st ← st.set 0 { v with op := .top, value := 0 }
  exprLoop st ts

/-- `Preprocessor_expr`, started in the static state `st`. There is no result
where the C program is undefined, fails an assertion or aborts. -/
def preprocessorExpr (st : ExprState) (ts : List ExprToken) : Option (ExprResult × ExprState) :=
  match preprocessorExprLoop st ts with
  | .ok st => some (⟨((st.stack st.sp).value.truncate 32).toInt, 0⟩, st)
  | .error ⟨.error, st⟩ => some (⟨0, 1⟩, st)
  | .error _ => none

end Swig.Preprocessor
