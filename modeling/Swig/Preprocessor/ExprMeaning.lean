import Swig.Preprocessor.ExprGrouping

/-!
Controlling expressions with strings, and what their operations make of them.

An expression is evaluated at a position of the stack, with the strings the stack
holds. They matter because the evaluator does not clear them all: a parenthesis
takes over the string that was last left in its entry. An evaluation has no result
where two operands do not go together, or where an operation is undefined.
-/

namespace Swig.Preprocessor

open Swig.Lib
open OperatorPrecedence (stackSize)

/-- The operands of an expression, strings among them. -/
inductive Operand
  | number (text : List Byte)
  | identifier
  | string (text : List Byte)
  deriving DecidableEq

abbrev StringTree := OperatorPrecedence.Expr Operand UnaryOp BinaryOp

abbrev StringToken := OperatorPrecedence.Token Operand UnaryOp BinaryOp

abbrev StringEntry := OperatorPrecedence.Entry Operand UnaryOp BinaryOp

abbrev StringState := OperatorPrecedence.State Operand UnaryOp BinaryOp

/-- The `value` and the `svalue` of an operand. -/
structure Meaning where
  number : Long
  text : Option (List Byte)
  deriving DecidableEq

/-- Why an operation has no result. -/
inductive Mistake
  | mismatch
  | undefined
  deriving DecidableEq

/-- The `svalue` of each entry of the stack. -/
abbrev Strings := ℕ → Option (List Byte)

def Operand.meaning : Operand → Meaning
  | .number text => ⟨strtol text, none⟩
  | .identifier => ⟨0, none⟩
  | .string text => ⟨0, some text⟩

def UnaryOp.meaning (p : UnaryOp) (v : Meaning) : Except Mistake Long :=
  if v.text.isSome then .error .mismatch else .ok (p.apply v.number)

def BinaryOp.meaning (b : BinaryOp) (v w : Meaning) : Except Mistake Long :=
  match v.text, w.text with
  | none, none => (b.apply v.number w.number).elim (.error .undefined) .ok
  | some x, some y =>
      if b = .equalto then .ok (.ofBool (strcmp x y == .eq))
      else if b = .notequal then .ok (.ofBool (strcmp x y != .eq))
      else .error .mismatch
  | _, _ => .error .mismatch

/-- The meaning of an expression whose value goes to entry `n`, and the strings it leaves. -/
def evalAt : ℕ → StringTree → Strings → Except Mistake (Meaning × Strings)
  | n, .atom a, col => .ok (a.meaning, Function.update col n a.meaning.text)
  | n, .group e, col => do
      let (v, col) ← evalAt (n + 1) e (Function.update col (n + 1) none)
      -- the number is copied from inside, the string is the one of the entry
      .ok (⟨v.number, col n⟩, col)
  | n, .pre p e, col => do
      let (v, col) ← evalAt (n + 1) e (Function.update col (n + 1) none)
      let x ← p.meaning v
      .ok (⟨x, none⟩, Function.update col n none)
  | n, .bin l b r, col => do
      let (v, col) ← evalAt n l col
      let (w, col) ← evalAt (n + 2) r col
      let x ← b.meaning v w
      .ok (⟨x, none⟩, Function.update col n none)

/-- The strings after the open groups and operators, innermost first, are evaluated. -/
def evalStack : List StringEntry → Strings → Except Mistake Strings
  | [], col => .ok col
  | .group :: st, col => do
      let col ← evalStack st col
      .ok (Function.update col (stackSize st + 1) none)
  | .op (.pre _) :: st, col => do
      let col ← evalStack st col
      .ok (Function.update col (stackSize st + 1) none)
  | .op (.bin l _) :: st, col => do
      let col ← evalStack st col
      let (_, col) ← evalAt (stackSize st) l col
      .ok col

def evalState (s : StringState) (col : Strings) : Except Mistake Strings := do
  let col ← evalStack s.stack col
  match s.operand with
  | none => .ok col
  | some e => do
      let (_, col) ← evalAt (stackSize s.stack) e col
      .ok col

/-! ### Tokens -/

/-- A token where an operand is expected. -/
def operandSymbol (t : ExprToken) : Option StringToken :=
  match t.1 with
  | .int | .uint | .long | .ulong => some (.atom (.number t.2))
  | .id => some (.atom .identifier)
  | .string => some (.atom (.string t.2))
  | .minus => some (.pre .uminus)
  | .lnot => some (.pre .lnot)
  | .not => some (.pre .not)
  | .lparen => some .lparen
  | _ => none

/-- A token after an operand. -/
def operatorSymbol (t : ExprToken) : Option StringToken :=
  match tokenBinary t.1 with
  | some o => some (.bin o)
  | none => if t.1 = .rparen then some .rparen else none

/-- What a token does to the open groups and operators: at most one of these is
completed before a binary operator. A prefix `+` is passed over. -/
def advance (s : StringState) (t : ExprToken) : Option StringState :=
  match s.operand with
  | none => if t.1 = .plus then some s else (operandSymbol t).bind (OperatorPrecedence.step levels 1 s)
  | some _ => (operatorSymbol t).bind (OperatorPrecedence.step levels 1 s)

/-- All operators above the innermost open group are completed. -/
def settle (s : StringState) : StringState :=
  match s.operand with
  | none => s
  | some e =>
      let (e, st) := OperatorPrecedence.reduceAll e s.stack
      ⟨some e, st⟩

end Swig.Preprocessor
