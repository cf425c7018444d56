import Swig.Lib.OperatorPrecedence
import Swig.Preprocessor.Expr

/-!
What `Preprocessor_expr` computes: the value of a grouping of its tokens.

The operator stack is read as the state of the shift-reduce parser that makes
at most one reduction before it shifts a binary operator. The grouping found
that way is compared with the one `init_precedence` prescribes.
-/

namespace Swig.Preprocessor

open Swig.Lib

/-- The operands of an expression. -/
inductive Atom
  | number (text : List Byte)
  | identifier

abbrev ExprTree := OperatorPrecedence.Expr Atom UnaryOp BinaryOp

abbrev SynToken := OperatorPrecedence.Token Atom UnaryOp BinaryOp

/-- The precedence table, as levels. -/
def levels : OperatorPrecedence.Levels UnaryOp BinaryOp := ⟨UnaryOp.prec, BinaryOp.prec⟩

def Atom.value : Atom → Long
  | .number text => strtol text
  | .identifier => 0

/-- The value in machine-long arithmetic; there is none when a divisor is 0 or
a shift is out of range. -/
def evalTree : ExprTree → Option Long
  | .atom a => some a.value
  | .group e => evalTree e
  | .pre p e => (evalTree e).map p.apply
  | .bin l b r => do
      let x ← evalTree l
      let y ← evalTree r
      b.apply x y

/-- A token where an operand is expected. -/
def operandToken (t : ExprToken) : Option SynToken :=
  match t.1 with
  | .int | .uint | .long | .ulong => some (.atom (.number t.2))
  | .id => some (.atom .identifier)
  | .minus => some (.pre .uminus)
  | .lnot => some (.pre .lnot)
  | .not => some (.pre .not)
  | .lparen => some .lparen
  | _ => none

/-- A token after an operand. -/
def operatorToken (t : ExprToken) : Option SynToken :=
  match tokenBinary t.1 with
  | some o => some (.bin o)
  | none => if t.1 = .rparen then some .rparen else none

/-- Whether an operand is expected after a token. -/
def expectsOperand : SynToken → Bool
  | .atom _ => false
  | .rparen => false
  | .lparen => true
  | .pre _ => true
  | .bin _ => true

/-- The syntactic tokens of a token sequence. The tokens passed over by
`expr_token` and the prefix `+` do not count. -/
def readTokens : Bool → List ExprToken → Option (List SynToken)
  | _, [] => some []
  | operand, t :: ts =>
      if skipped t.1 then readTokens operand ts
      else if operand && t.1 == .plus then readTokens true ts
      else (if operand then operandToken t else operatorToken t).bind fun x =>
        (readTokens (expectsOperand x) ts).map (x :: ·)

/-! ### The stack as a parser state -/

abbrev ParserEntry := OperatorPrecedence.Entry Atom UnaryOp BinaryOp

abbrev ParserState := OperatorPrecedence.State Atom UnaryOp BinaryOp

open OperatorPrecedence (stackSize)

/-- The slots below the operand hold the open groups and operators. -/
def Holds (stack : ℕ → ExprVal) : List ParserEntry → Prop
  | [] => True
  | .group :: st => (stack (stackSize st)).op = .group ∧ Holds stack st
  | .op (.pre p) :: st =>
      ((stack (stackSize st)).op = .op ∧ (stack (stackSize st)).value = BitVec.ofNat 64 p.code) ∧
        Holds stack st
  | .op (.bin l b) :: st =>
      evalTree l = some (stack (stackSize st)).value ∧
        ((stack (stackSize st + 1)).op = .op ∧
          (stack (stackSize st + 1)).value = BitVec.ofNat 64 b.code) ∧
        Holds stack st

structure Represents (c : ExprState) (s : ParserState) : Prop where
  sp : c.sp = stackSize s.stack
  holds : Holds c.stack s.stack
  expects : s.operand = none → (c.stack c.sp).op = .top
  operand : ∀ e, s.operand = some e →
    (c.stack c.sp).op = .value ∧ evalTree e = some (c.stack c.sp).value
  svalue : ∀ i, (c.stack i).svalue = none

theorem Holds.congr {stack stack' : ℕ → ExprVal} {st : List ParserEntry}
    (h : Holds stack st) (heq : ∀ i < stackSize st, stack' i = stack i) : Holds stack' st := by
  induction st with
  | nil => trivial
  | cons x st ih =>
      simp only [OperatorPrecedence.stackSize_cons] at heq
      rcases x with _ | _ | ⟨l, b⟩
      · simp only [OperatorPrecedence.Entry.size] at heq
        have h0 := heq (stackSize st) (by omega)
        refine ⟨by rw [h0]; exact h.1, ih h.2 fun i hi => heq i (by omega)⟩
      · simp only [OperatorPrecedence.Entry.size, OperatorPrecedence.Frame.size] at heq
        have h0 := heq (stackSize st) (by omega)
        refine ⟨by rw [h0]; exact h.1, ih h.2 fun i hi => heq i (by omega)⟩
      · simp only [OperatorPrecedence.Entry.size, OperatorPrecedence.Frame.size] at heq
        have h0 := heq (stackSize st) (by omega)
        have h1 := heq (stackSize st + 1) (by omega)
        refine ⟨by rw [h0]; exact h.1, by rw [h1]; exact h.2.1,
          ih h.2.2 fun i hi => heq i (by omega)⟩

theorem unaryOf_unary (p : UnaryOp) : unaryOf (BitVec.ofNat 64 p.code) = some p := by
  cases p <;> rfl

theorem unaryOf_binary (b : BinaryOp) : unaryOf (BitVec.ofNat 64 b.code) = none := by
  cases b <;> rfl

theorem binaryOf_binary (b : BinaryOp) : binaryOf (BitVec.ofNat 64 b.code) = some b := by
  cases b <;> rfl

theorem precOf_unary (p : UnaryOp) : precOf (BitVec.ofNat 64 p.code) = p.prec := by
  rw [precOf, unaryOf_unary]

theorem precOf_binary (b : BinaryOp) : precOf (BitVec.ofNat 64 b.code) = b.prec := by
  rw [precOf, unaryOf_binary, binaryOf_binary]

theorem ok_bind {α β : Type} (a : α) (f : α → Eval β) : (Except.ok a >>= f) = f a := rfl

theorem ExprState.get_of_lt (c : ExprState) {i : ℕ} (h : i < 256) : c.get i = .ok (c.stack i) :=
  if_pos h

theorem ExprState.set_of_lt (c : ExprState) {i : ℕ} (h : i < 256) (v : ExprVal) :
    c.set i v = .ok { c with stack := Function.update c.stack i v } := if_pos h

theorem storeBinary_eq (c : ExprState) (h : c.sp - 2 < 256) (v : Long) :
    storeBinary c v = .ok { c with
      stack := Function.update c.stack (c.sp - 2) { c.stack (c.sp - 2) with value := v }
      sp := c.sp - 2 } := by
  simp only [storeBinary, c.get_of_lt h, c.set_of_lt h, ok_bind]
  rfl

/-- A reduction on the stack is the completion of the innermost operator. -/
theorem reduceOp_represents {c : ExprState} {e : ExprTree}
    {f : OperatorPrecedence.Frame Atom UnaryOp BinaryOp} {st : List ParserEntry}
    (h : Represents c ⟨some e, .op f :: st⟩) (hsp : c.sp < 256) {v : Long}
    (hv : evalTree (f.apply e) = some v) :
    ∃ c', reduceOp c = .ok c' ∧ Represents c' ⟨some (f.apply e), st⟩ := by
  obtain ⟨hsize, hholds, -, hoperand, hs⟩ := h
  obtain ⟨hop, hval⟩ := hoperand e rfl
  simp only [OperatorPrecedence.stackSize_cons] at hsize
  cases f with
  | pre p =>
      obtain ⟨⟨hop1, hcode⟩, hrest⟩ := hholds
      simp only [OperatorPrecedence.Entry.size, OperatorPrecedence.Frame.size] at hsize
      have hbelow : c.sp - 1 = stackSize st := by omega
      rw [← hbelow] at hop1 hcode
      have h1 : c.sp - 1 < 256 := by omega
      have hv' : v = p.apply (c.stack c.sp).value := by
        simp only [OperatorPrecedence.Frame.apply, evalTree, hval, Option.map_some,
          Option.some.injEq] at hv
        exact hv.symm
      refine ⟨{ c with
        stack := Function.update c.stack (c.sp - 1)
          { op := .value, value := v, svalue := none }
        sp := c.sp - 1 }, ?_, ?_⟩
      · simp [reduceOp, reduceNumbers, checkOperands, c.get_of_lt h1, c.get_of_lt hsp, hop, hop1,
          hs, hcode, unaryOf_unary, ok_bind, ExprState.set_of_lt, ExprState.get_of_lt,
          h1, hv', show c.sp ≠ 0 by omega]
      · refine ⟨hbelow, hrest.congr fun i hi => ?_, by simp, ?_, fun i => ?_⟩
        · exact Function.update_of_ne (by omega) _ _
        · rintro e' ⟨⟩
          simp [hv]
        · by_cases hi : i = c.sp - 1 <;> simp [hi, hs]
  | bin l b =>
      obtain ⟨hl, ⟨hop1, hcode⟩, hrest⟩ := hholds
      simp only [OperatorPrecedence.Entry.size, OperatorPrecedence.Frame.size] at hsize
      have hleft : c.sp - 2 = stackSize st := by omega
      have hbelow : c.sp - 1 = stackSize st + 1 := by omega
      rw [← hbelow] at hop1 hcode
      rw [← hleft] at hl
      have h1 : c.sp - 1 < 256 := by omega
      have h2 : c.sp - 2 < 256 := by omega
      have hv' : b.apply (c.stack (c.sp - 2)).value (c.stack c.sp).value = some v := by
        simpa [OperatorPrecedence.Frame.apply, evalTree, hval, hl] using hv
      refine ⟨{ c with
        stack := Function.update c.stack (c.sp - 2)
          { op := .value, value := v, svalue := none }
        sp := c.sp - 2 }, ?_, ?_⟩
      · simp [reduceOp, reduceNumbers, checkOperands, c.get_of_lt h1, c.get_of_lt hsp,
          c.get_of_lt h2, hop, hop1, hs, hcode, unaryOf_binary, binaryOf_binary, ok_bind,
          ExprState.set_of_lt, ExprState.get_of_lt, h2, hv', storeBinary_eq,
          show c.sp ≠ 0 by omega, show c.sp ≠ 1 by omega]
      · refine ⟨hleft, hrest.congr fun i hi => ?_, by simp, ?_, fun i => ?_⟩
        · exact Function.update_of_ne (by omega) _ _
        · rintro e' ⟨⟩
          simp [hv]
        · by_cases hi : i = c.sp - 2 <;> simp [hi, hs]

/-- What is on the stack below the operand decides how far the loops go. -/
theorem Represents.below {c : ExprState} {s : ParserState} (h : Represents c s) :
    (s.stack = [] ∧ c.sp = 0) ∨
      (∃ st, s.stack = .group :: st ∧ c.sp ≠ 0 ∧ (c.stack (c.sp - 1)).op = .group) ∨
      ∃ f st, s.stack = .op f :: st ∧ c.sp ≠ 0 ∧ (c.stack (c.sp - 1)).op = .op ∧
        precOf (c.stack (c.sp - 1)).value = f.level levels := by
  obtain ⟨operand, stack⟩ := s
  obtain ⟨hsize, hholds, -, -, -⟩ := h
  rcases stack with _ | ⟨_ | _ | ⟨l, b⟩, st⟩
  · exact .inl ⟨rfl, hsize⟩
  · have hsp : c.sp = stackSize st + 1 := by
      simp [OperatorPrecedence.stackSize_cons, OperatorPrecedence.Entry.size] at hsize
      omega
    refine .inr (.inl ⟨st, rfl, by omega, ?_⟩)
    rw [show c.sp - 1 = stackSize st by omega]
    exact hholds.1
  · next p =>
      have hsp : c.sp = stackSize st + 1 := by
        simp [OperatorPrecedence.stackSize_cons, OperatorPrecedence.Entry.size,
          OperatorPrecedence.Frame.size] at hsize
        omega
      refine .inr (.inr ⟨_, st, rfl, by omega, ?_, ?_⟩)
      · rw [show c.sp - 1 = stackSize st by omega]
        exact hholds.1.1
      · rw [show c.sp - 1 = stackSize st by omega, hholds.1.2, precOf_unary]
        rfl
  · have hsp : c.sp = stackSize st + 2 := by
      simp [OperatorPrecedence.stackSize_cons, OperatorPrecedence.Entry.size,
        OperatorPrecedence.Frame.size] at hsize
      omega
    refine .inr (.inr ⟨_, st, rfl, by omega, ?_, ?_⟩)
    · rw [show c.sp - 1 = stackSize st + 1 by omega]
      exact hholds.2.1.1
    · rw [show c.sp - 1 = stackSize st + 1 by omega, hholds.2.1.2, precOf_binary]
      rfl

/-- Expressions that have a value have parts with a value. -/
theorem hereditary_evalTree : OperatorPrecedence.Hereditary fun e : ExprTree => (evalTree e).isSome where
  group h := h
  pre h := by simpa [evalTree] using h
  left {l b r} h := by
    simp only [evalTree, Option.bind_eq_bind] at h
    cases hl : evalTree l with
    | none => simp [hl] at h
    | some x => rfl
  right {l b r} h := by
    simp only [evalTree, Option.bind_eq_bind] at h
    cases hr : evalTree r with
    | none => cases hl : evalTree l <;> simp [hl, hr] at h
    | some x => rfl

/-- All expressions of a parser state have a value. -/
def HasValue (e : ExprTree) : Prop := (evalTree e).isSome

theorem reduceLoop_represents {c : ExprState} {e : ExprTree} {stack : List ParserEntry}
    (h : Represents c ⟨some e, stack⟩) (hsp : c.sp < 256) {fuel : ℕ} (hfuel : c.sp ≤ fuel)
    (hv : HasValue (OperatorPrecedence.reduceAll e stack).1)
    (hall : ∀ x ∈ (OperatorPrecedence.reduceAll e stack).2, x.All HasValue) :
    ∃ c', reduceLoop fuel c = .ok c' ∧ c'.sp < 256 ∧
      Represents c' ⟨some (OperatorPrecedence.reduceAll e stack).1,
        (OperatorPrecedence.reduceAll e stack).2⟩ := by
  induction stack generalizing c e fuel with
  | nil =>
      obtain ⟨-, h0⟩ | ⟨st, hst, -⟩ | ⟨f, st, hst, -⟩ := h.below
      · refine ⟨c, ?_, hsp, h⟩
        cases fuel <;> simp [reduceLoop, h0]
      · cases hst
      · cases hst
  | cons x stack ih =>
      obtain ⟨hst, -⟩ | ⟨st, hst, h0, hop⟩ | ⟨f, st, hst, h0, hop, -⟩ := h.below
      · cases hst
      · obtain ⟨rfl, rfl⟩ := List.cons.inj hst
        refine ⟨c, ?_, hsp, h⟩
        cases fuel with
        | zero => rfl
        | succ fuel =>
            simp [reduceLoop, h0, c.get_of_lt (show c.sp - 1 < 256 by omega), ok_bind, hop]
      · obtain ⟨rfl, rfl⟩ := List.cons.inj hst
        obtain ⟨v, hv'⟩ := Option.isSome_iff_exists.mp
          (OperatorPrecedence.all_of_reduceAll hereditary_evalTree (f.apply e) stack hv
            hall).1
        obtain ⟨c', hred, hrep⟩ := reduceOp_represents h hsp hv'
        have hlt : c'.sp < c.sp := by
          rw [hrep.sp, h.sp, OperatorPrecedence.stackSize_cons]
          cases f <;> simp [OperatorPrecedence.Entry.size, OperatorPrecedence.Frame.size]
        cases fuel with
        | zero => omega
        | succ fuel =>
            have hfuel' : c'.sp ≤ fuel := by omega
            obtain ⟨c'', hloop, hlt', hrep'⟩ := ih hrep (by omega) hfuel' hv hall
            refine ⟨c'', ?_, hlt', hrep'⟩
            simp [reduceLoop, h0, c.get_of_lt (show c.sp - 1 < 256 by omega), ok_bind, hop, hred,
              hloop]

theorem pushBinary_represents {c : ExprState} {e : ExprTree} {st : List ParserEntry}
    (h : Represents c ⟨some e, st⟩) (hsp : c.sp + 2 < 256) (b : BinaryOp) :
    ∃ c', pushBinary c b = .ok c' ∧ Represents c' ⟨none, .op (.bin e b) :: st⟩ := by
  obtain ⟨hsize, hholds, -, hoperand, hs⟩ := h
  obtain ⟨-, hval⟩ := hoperand e rfl
  replace hsize : c.sp = stackSize st := hsize
  replace hholds : Holds c.stack st := hholds
  have h1 : c.sp + 1 < 256 := by omega
  refine ⟨{ c with
    stack := Function.update (Function.update c.stack (c.sp + 1)
      { op := .op, value := BitVec.ofNat 64 b.code, svalue := none }) (c.sp + 2)
      { op := .top, value := 0, svalue := none }
    sp := c.sp + 2 }, ?_, ?_⟩
  · simp [pushBinary, ExprState.get_of_lt, ExprState.set_of_lt, h1, hsp, ok_bind, hs]
  · refine ⟨?_, ⟨?_, ⟨?_, ?_⟩, hholds.congr fun i hi => ?_⟩, fun _ => by simp, by simp, fun i => ?_⟩
    · simp [OperatorPrecedence.Entry.size, OperatorPrecedence.Frame.size, hsize]
      omega
    · simp [← hsize, hval]
    · simp [← hsize]
    · simp [← hsize]
    · simp only
      rw [Function.update_of_ne (by omega), Function.update_of_ne (by omega)]
    · by_cases hi : i = c.sp + 2
      · simp [hi]
      · by_cases hi' : i = c.sp + 1 <;> simp [hi, hi', hs]

theorem pushUnary_represents {c : ExprState} {st : List ParserEntry}
    (h : Represents c ⟨none, st⟩) (hsp : c.sp + 1 < 256) (p : UnaryOp) :
    ∃ c', pushUnary c p = .ok c' ∧ Represents c' ⟨none, .op (.pre p) :: st⟩ := by
  obtain ⟨hsize, hholds, -, -, hs⟩ := h
  replace hsize : c.sp = stackSize st := hsize
  replace hholds : Holds c.stack st := hholds
  have h0 : c.sp < 256 := by omega
  refine ⟨{ c with
    stack := Function.update (Function.update c.stack c.sp
      { op := .op, value := BitVec.ofNat 64 p.code, svalue := none }) (c.sp + 1)
      { op := .top, value := (c.stack (c.sp + 1)).value, svalue := none }
    sp := c.sp + 1 }, ?_, ?_⟩
  · simp [pushUnary, ExprState.get_of_lt, ExprState.set_of_lt, h0, hsp, ok_bind, hs]
  · refine ⟨?_, ⟨⟨?_, ?_⟩, hholds.congr fun i hi => ?_⟩, fun _ => by simp, by simp, fun i => ?_⟩
    · simp [OperatorPrecedence.Entry.size, OperatorPrecedence.Frame.size, hsize]
      omega
    · simp [← hsize]
    · simp [← hsize]
    · simp only
      rw [Function.update_of_ne (by omega), Function.update_of_ne (by omega)]
    · by_cases hi : i = c.sp + 1
      · simp [hi]
      · by_cases hi' : i = c.sp <;> simp [hi', hi, hs]

theorem pushGroup_represents {c : ExprState} {st : List ParserEntry}
    (h : Represents c ⟨none, st⟩) (hsp : c.sp + 1 < 256) :
    ∃ c', pushGroup c = .ok c' ∧ Represents c' ⟨none, .group :: st⟩ := by
  obtain ⟨hsize, hholds, -, -, hs⟩ := h
  replace hsize : c.sp = stackSize st := hsize
  replace hholds : Holds c.stack st := hholds
  have h0 : c.sp < 256 := by omega
  refine ⟨{ c with
    stack := Function.update (Function.update c.stack c.sp
      { op := .group, value := (c.stack c.sp).value, svalue := none }) (c.sp + 1)
      { op := .top, value := 0, svalue := none }
    sp := c.sp + 1 }, ?_, ?_⟩
  · simp [pushGroup, ExprState.get_of_lt, ExprState.set_of_lt, h0, hsp, ok_bind, hs]
  · refine ⟨?_, ⟨?_, hholds.congr fun i hi => ?_⟩, fun _ => by simp, by simp, fun i => ?_⟩
    · simp [OperatorPrecedence.Entry.size, hsize]
      omega
    · simp [← hsize]
    · simp only
      rw [Function.update_of_ne (by omega), Function.update_of_ne (by omega)]
    · by_cases hi : i = c.sp + 1
      · simp [hi]
      · by_cases hi' : i = c.sp <;> simp [hi', hi, hs]

/-- An operand is stored in the entry that expects it. -/
theorem setOperand_represents {c : ExprState} {st : List ParserEntry}
    (h : Represents c ⟨none, st⟩) (hsp : c.sp < 256) (a : Atom) :
    ∃ c', c.set c.sp { op := .value, value := a.value, svalue := none } = .ok c' ∧
      Represents c' ⟨some (.atom a), st⟩ := by
  obtain ⟨hsize, hholds, -, -, hs⟩ := h
  replace hsize : c.sp = stackSize st := hsize
  replace hholds : Holds c.stack st := hholds
  refine ⟨_, c.set_of_lt hsp _, hsize, hholds.congr fun i hi => ?_, by simp, ?_, fun i => ?_⟩
  · exact Function.update_of_ne (by omega) _ _
  · rintro e ⟨⟩
    simp [evalTree]
  · by_cases hi : i = c.sp <;> simp [hi, hs]

/-- Before the shift, the operator below is reduced at most once. -/
theorem exprBinary_represents {c : ExprState} {e : ExprTree} {stack : List ParserEntry}
    (h : Represents c ⟨some e, stack⟩) (hsp : c.sp < 256) (b : BinaryOp)
    (hv : HasValue (OperatorPrecedence.reduce levels b 1 e stack).1)
    (hsize : stackSize (OperatorPrecedence.reduce levels b 1 e stack).2 + 2 < 256) :
    ∃ c', exprBinary c b = .ok c' ∧
      Represents c' ⟨none, .op (.bin (OperatorPrecedence.reduce levels b 1 e stack).1 b) ::
        (OperatorPrecedence.reduce levels b 1 e stack).2⟩ := by
  have hpush (hred : OperatorPrecedence.reduce levels b 1 e stack = (e, stack)) :
      ∃ c', pushBinary c b = .ok c' ∧
        Represents c' ⟨none, .op (.bin (OperatorPrecedence.reduce levels b 1 e stack).1 b) ::
          (OperatorPrecedence.reduce levels b 1 e stack).2⟩ := by
    rw [hred] at hsize ⊢
    exact pushBinary_represents h (by rw [h.sp]; exact hsize) b
  obtain ⟨hst, h0⟩ | ⟨st, hst, h0, hop⟩ | ⟨f, st, hst, h0, hop, hprec⟩ := h.below
  · replace hst : stack = [] := hst
    subst hst
    rw [exprBinary, if_pos h0]
    exact hpush rfl
  · replace hst : stack = .group :: st := hst
    subst hst
    simp only [exprBinary, if_neg h0, c.get_of_lt (show c.sp - 1 < 256 by omega), ok_bind, if_pos hop]
    exact hpush rfl
  · replace hst : stack = .op f :: st := hst
    subst hst
    simp only [exprBinary, if_neg h0, c.get_of_lt (show c.sp - 1 < 256 by omega), ok_bind, hop,
      hprec]
    by_cases hle : f.level levels ≤ levels.bin b
    · have hred : OperatorPrecedence.reduce levels b 1 e (.op f :: st) = (f.apply e, st) := by
        rw [OperatorPrecedence.reduce, if_pos hle, OperatorPrecedence.reduce]
      rw [hred] at hv hsize ⊢
      obtain ⟨v, hv'⟩ := Option.isSome_iff_exists.mp hv
      obtain ⟨c', hc', hrep⟩ := reduceOp_represents h hsp hv'
      obtain ⟨c'', hc'', hrep'⟩ := pushBinary_represents hrep (by rw [hrep.sp]; exact hsize) b
      have hle' : f.level levels ≤ b.prec := hle
      exact ⟨c'', by simp [hle', hc', ok_bind, hc''], hrep'⟩
    · have hred : OperatorPrecedence.reduce levels b 1 e (.op f :: st) = (e, .op f :: st) := by
        rw [OperatorPrecedence.reduce, if_neg hle]
      obtain ⟨c', hc', hrep⟩ := hpush hred
      have hle' : ¬f.level levels ≤ b.prec := hle
      exact ⟨c', by simp [hle', hc'], hrep⟩

theorem exprRparen_represents {c : ExprState} {e e' : ExprTree} {stack st : List ParserEntry}
    (h : Represents c ⟨some e, stack⟩) (hsp : c.sp < 256)
    (hred : OperatorPrecedence.reduceAll e stack = (e', .group :: st)) (hv : HasValue e')
    (hall : ∀ x ∈ st, x.All HasValue) :
    ∃ c', exprRparen c = .ok c' ∧ Represents c' ⟨some (.group e'), st⟩ := by
  obtain ⟨c1, hloop, hlt, hrep⟩ := reduceLoop_represents h hsp (Nat.le_refl _)
    (by rw [hred]; exact hv) (by rw [hred]; exact List.forall_mem_cons.mpr ⟨trivial, hall⟩)
  rw [hred] at hrep
  have h0 : c.sp ≠ 0 := by
    intro h0
    obtain ⟨hst, -⟩ | ⟨st', -, h0', -⟩ | ⟨f, st', -, h0', -⟩ := h.below
    · replace hst : stack = [] := hst
      subst hst
      cases hred
    · exact h0' h0
    · exact h0' h0
  obtain ⟨hst, -⟩ | ⟨st', hst, h1, hop⟩ | ⟨f, st', hst, -⟩ := hrep.below
  · cases hst
  · obtain ⟨-, rfl⟩ := List.cons.inj hst
    obtain ⟨hsize, hholds, -, hoperand, hs⟩ := hrep
    obtain ⟨-, hval⟩ := hoperand e' rfl
    replace hsize : c1.sp = 1 + stackSize st := by
      simpa [OperatorPrecedence.Entry.size] using hsize
    have h2 : c1.sp - 1 < 256 := by omega
    have hslot : c1.sp - 1 = stackSize st := by omega
    refine ⟨{ c1 with
      stack := Function.update c1.stack (c1.sp - 1)
        { op := .value, value := (c1.stack c1.sp).value, svalue := none }
      sp := c1.sp - 1 }, ?_, hslot, hholds.2.congr fun i hi => ?_, by simp, ?_, fun i => ?_⟩
    · simp [exprRparen, h0, hloop, ok_bind, h1, c1.get_of_lt h2, hop, c1.get_of_lt hlt,
        c1.set_of_lt h2, hs]
    · exact Function.update_of_ne (by omega) _ _
    · rintro e ⟨⟩
      simp [evalTree, hval]
    · by_cases hi : i = c1.sp - 1 <;> simp [hi, hs]
  · cases hst

/-- One token moves the stack as it moves the parser. -/
theorem exprStep_represents {c : ExprState} {s s' : ParserState} {t : ExprToken} {x : SynToken}
    (h : Represents c s) (hsp : stackSize s.stack < 256)
    (hstep : OperatorPrecedence.step levels 1 s x = some s') (hall : s'.All HasValue)
    (hsize : stackSize s'.stack < 256)
    (hx : (if s.operand.isNone then operandToken t else operatorToken t) = some x) :
    ∃ c', exprStep c t = .ok c' ∧ Represents c' s' := by
  obtain ⟨operand, stack⟩ := s
  have hc : c.sp < 256 := by rw [h.sp]; exact hsp
  rcases OperatorPrecedence.step_cases hstep with
    ⟨rfl, hstep⟩ | ⟨e, rfl, ⟨b, rfl, rfl⟩ | ⟨e', st, rfl, hred, rfl⟩⟩
  · have hexpr : exprStep c t = exprTop c t := by
      simp [exprStep, c.get_of_lt hc, ok_bind, h.expects rfl]
    rw [hexpr]
    replace hx : operandToken t = some x := hx
    rcases hstep with ⟨a, rfl, rfl⟩ | ⟨rfl, rfl⟩ | ⟨p, rfl, rfl⟩
    · have hset := setOperand_represents h hc a
      obtain ⟨tok, text⟩ := t
      have hop : exprTop c (tok, text) =
          c.set c.sp { op := .value, value := a.value, svalue := none } := by
        cases tok <;> simp [operandToken] at hx <;> subst hx <;> rfl
      rw [hop]
      exact hset
    · have hpush := pushGroup_represents h (by
        have := hsize
        rw [OperatorPrecedence.stackSize_cons, ← h.sp] at this
        simp only [OperatorPrecedence.Entry.size] at this
        omega)
      obtain ⟨tok, text⟩ := t
      cases tok <;> simp [operandToken] at hx
      exact hpush
    · have hpush := pushUnary_represents h (by
        have := hsize
        rw [OperatorPrecedence.stackSize_cons, ← h.sp] at this
        simp only [OperatorPrecedence.Entry.size, OperatorPrecedence.Frame.size] at this
        omega) p
      obtain ⟨tok, text⟩ := t
      cases tok <;> simp [operandToken] at hx <;> subst hx <;> exact hpush
  · have hexpr : exprStep c t = exprValue c t := by
      simp [exprStep, c.get_of_lt hc, ok_bind, (h.operand e rfl).1]
    rw [hexpr]
    replace hx : operatorToken t = some (.bin b) := hx
    have htok : tokenBinary t.1 = some b := by
      unfold operatorToken at hx
      split at hx
      · next o ho =>
          cases hx
          exact ho
      · split at hx <;> cases hx
    rw [exprValue, htok]
    refine exprBinary_represents h hc b ?_ ?_
    · exact (List.forall_mem_cons.mp hall.stack).1
    · rw [OperatorPrecedence.stackSize_cons] at hsize
      simp only [OperatorPrecedence.Entry.size, OperatorPrecedence.Frame.size] at hsize
      omega
  · have hexpr : exprStep c t = exprValue c t := by
      simp [exprStep, c.get_of_lt hc, ok_bind, (h.operand e rfl).1]
    rw [hexpr]
    replace hx : operatorToken t = some .rparen := hx
    have htok : tokenBinary t.1 = none ∧ t.1 = .rparen := by
      unfold operatorToken at hx
      split at hx
      · cases hx
      · next hnone =>
          split at hx
          · next hr => exact ⟨hnone, hr⟩
          · cases hx
    rw [exprValue, htok.1]
    simp only [htok.2, if_true]
    exact exprRparen_represents h hc hred
      (hereditary_evalTree.group (hall.operand (.group e') rfl)) hall.stack

/-- The prefix `+` and the tokens passed over leave the state alone. -/
theorem exprStep_plus {c : ExprState} {s : ParserState} (h : Represents c s)
    (hnone : s.operand = none) (hsp : stackSize s.stack < 256) {t : ExprToken}
    (ht : t.1 = .plus) : exprStep c t = .ok c := by
  have hc : c.sp < 256 := by rw [h.sp]; exact hsp
  simp [exprStep, c.get_of_lt hc, ok_bind, h.expects hnone, exprTop, ht]

theorem isNone_of_step {s s' : ParserState} {x : SynToken}
    (hstep : OperatorPrecedence.step levels 1 s x = some s') :
    s'.operand.isNone = expectsOperand x := by
  rcases OperatorPrecedence.step_cases hstep with
    ⟨-, ⟨a, rfl, rfl⟩ | ⟨rfl, rfl⟩ | ⟨p, rfl, rfl⟩⟩ | ⟨e, -, ⟨b, rfl, rfl⟩ | ⟨e', st, rfl, -, rfl⟩⟩
  all_goals rfl

/-- The loop computes the value of the grouping the parser finds. -/
theorem exprLoop_eq {ts : List ExprToken} {xs : List SynToken} {c : ExprState} {s : ParserState}
    {g : ExprTree} {v : Long} (h : Represents c s)
    (hread : readTokens s.operand.isNone ts = some xs)
    (hrun : OperatorPrecedence.run levels 1 s xs = some g) (hg : g.height < 256)
    (hv : evalTree g = some v) :
    ∃ c', exprLoop c ts = .ok c' ∧ (c'.stack c'.sp).value = v := by
  have hval : HasValue g := by simp [HasValue, hv]
  have hsize {s : ParserState} {xs : List SynToken}
      (hrun : OperatorPrecedence.run levels 1 s xs = some g) : stackSize s.stack < 256 :=
    Nat.lt_of_le_of_lt (s.stackSize_le.trans (OperatorPrecedence.height_le_of_run hrun)) hg
  induction ts generalizing xs c s with
  | nil =>
      obtain rfl := Option.some.inj hread
      have hc : c.sp < 256 := by rw [h.sp]; exact hsize hrun
      obtain ⟨operand, stack⟩ := s
      obtain ⟨e, he, hred⟩ := OperatorPrecedence.finish_eq_some hrun
      replace he : operand = some e := he
      subst he
      obtain ⟨c', hloop, -, hrep⟩ := reduceLoop_represents h hc (Nat.le_refl _)
        (by rw [hred]; exact hval) (by rw [hred]; simp)
      rw [hred] at hrep
      have h0 : c'.sp = 0 := hrep.sp
      refine ⟨c', ?_, ?_⟩
      · simp [exprLoop, exprFinish, c.get_of_lt hc, ok_bind, (h.operand e rfl).1, exprEnd, hloop, h0]
      · have := (hrep.operand g rfl).2
        rw [hv] at this
        exact (Option.some.inj this).symm
  | cons t ts ih =>
      rw [readTokens] at hread
      split at hread
      · next hskip =>
          obtain ⟨c', hc', hval'⟩ := ih h hread hrun
          exact ⟨c', by rw [exprLoop, if_pos hskip, hc'], hval'⟩
      · next hskip =>
          split at hread
          · next hplus =>
              obtain ⟨hnone, htok⟩ := (Bool.and_eq_true _ _).mp hplus
              have htok : t.1 = .plus := by simpa using htok
              have hstep := exprStep_plus h (Option.isNone_iff_eq_none.mp hnone) (hsize hrun) htok
              obtain ⟨c', hc', hval'⟩ := ih h (by rw [hnone]; exact hread) hrun
              exact ⟨c', by simp [exprLoop, htok, skipped, hstep, ok_bind, hc'], hval'⟩
          · obtain ⟨x, hx, hread⟩ := Option.bind_eq_some_iff.mp hread
            obtain ⟨xs', hxs', rfl⟩ := Option.map_eq_some_iff.mp hread
            obtain ⟨s', hs', hrun'⟩ := Option.bind_eq_some_iff.mp hrun
            have heof : t.1 ≠ .eof := by
              intro heof
              cases hnone : s.operand.isNone <;>
                simp [hnone, operandToken, operatorToken, tokenBinary, heof] at hx
            obtain ⟨c1, hc1, hrep⟩ := exprStep_represents h (hsize hrun) hs'
              (OperatorPrecedence.all_of_run hereditary_evalTree hrun' hval) (hsize hrun') hx
            obtain ⟨c', hc', hval'⟩ := ih hrep (by rw [isNone_of_step hs']; exact hxs') hrun'
            exact ⟨c', by simp [exprLoop, hskip, heof, hc1, ok_bind, hc'], hval'⟩

/-- No entry of the stack holds a string. -/
def Cleared (c : ExprState) : Prop := ∀ i, (c.stack i).svalue = none

/-- The code returns the value of the grouping found with one reduction before
each shift. -/
theorem preprocessorExpr_eq {c : ExprState} (hclear : Cleared c) {ts : List ExprToken}
    {xs : List SynToken} (hread : readTokens true ts = some xs) {g : ExprTree}
    (hparse : OperatorPrecedence.parse levels 1 xs = some g) (hg : g.height < 256) {v : Long}
    (hv : evalTree g = some v) :
    ∃ c', preprocessorExpr c ts = some (⟨(v.truncate 32).toInt, 0⟩, c') := by
  have hstart : Represents
      { c with
        sp := 0
        stack := Function.update c.stack 0 { op := .top, value := 0, svalue := none } }
      ⟨none, []⟩ := by
    refine ⟨rfl, trivial, by simp, by simp, fun i => ?_⟩
    by_cases hi : i = 0
    · simp [hi]
    · simpa [hi] using hclear i
  obtain ⟨c', hloop, hval⟩ := exprLoop_eq hstart hread hparse hg hv
  refine ⟨c', ?_⟩
  have heq : preprocessorExprLoop c ts = .ok c' := by
    rw [← hloop]
    simp only [preprocessorExprLoop, ExprState.get_of_lt _ (show 0 < 256 by omega), ok_bind,
      ExprState.set_of_lt _ (show 0 < 256 by omega)]
    have hclear0 : (c.stack 0).svalue = none := hclear 0
    rw [hclear0]
  rw [preprocessorExpr, heq]
  simp only [hval]

/-- A well-formed token sequence has one grouping `e` that respects the
precedence levels. From a cleared stack the code returns, without an error, the
value of a grouping `g` of the same tokens, as long as that is defined and fits
the stack; and `g` is `e` exactly when no left operand in `e` has more than one
operator open at its right edge. -/
theorem preprocessorExpr_groups_by_precedence_iff (ts : List ExprToken) (t : ExprTree)
    (h : readTokens true ts = some t.tokens) :
    ∃ e g : ExprTree,
      (e.Respects levels ∧ e.tokens = t.tokens ∧
        ∀ e' : ExprTree, e'.Respects levels → e'.tokens = t.tokens → e' = e) ∧
      g.tokens = t.tokens ∧ (g = e ↔ e.LeftOpen 1) ∧
      ∀ c, Cleared c → ∀ v, g.height < 256 → evalTree g = some v →
        ∃ c', preprocessorExpr c ts = some (⟨(v.truncate 32).toInt, 0⟩, c') := by
  obtain ⟨e, ⟨hr, htok⟩, huniq⟩ := OperatorPrecedence.existsUnique_respects (L := levels) t
  obtain ⟨g, hg⟩ := OperatorPrecedence.exists_parse (L := levels) (n := 1) t
  have hiff : g = e ↔ e.LeftOpen 1 := by
    rw [← OperatorPrecedence.parse_tokens_iff hr, htok, hg, Option.some.injEq]
  refine ⟨e, g, ⟨hr, htok, fun e' hr' ht' => huniq e' ⟨hr', ht'⟩⟩,
    OperatorPrecedence.tokens_parse hg, hiff, ?_⟩
  intro c hclear v hheight hv
  exact preprocessorExpr_eq hclear h hg hheight hv

/-- `2 * -3`, grouped as written. -/
theorem preprocessorExpr_groups_by_precedence_iff_two_times_minus_three :
    let ts : List ExprToken := [(.int, [50]), (.star, []), (.minus, []), (.int, [51])]
    let t : ExprTree := .bin (.atom (.number [50])) .star (.pre .uminus (.atom (.number [51])))
    readTokens true ts = some t.tokens ∧
      ∃ e g : ExprTree,
        (e.Respects levels ∧ e.tokens = t.tokens ∧
          ∀ e' : ExprTree, e'.Respects levels → e'.tokens = t.tokens → e' = e) ∧
        g.tokens = t.tokens ∧ (g = e ↔ e.LeftOpen 1) ∧
        ∀ c, Cleared c → ∀ v, g.height < 256 → evalTree g = some v →
          ∃ c', preprocessorExpr c ts = some (⟨(v.truncate 32).toInt, 0⟩, c') :=
  ⟨rfl, preprocessorExpr_groups_by_precedence_iff _ _ rfl⟩

/-- `1 - 2 * 3 - 4`: the grouping by precedence has the value -9; the code
returns -1, the value of `1 - (2 * 3 - 4)`. -/
theorem preprocessorExpr_one_minus_six_minus_four :
    let ts : List ExprToken := [(.int, [49]), (.minus, []), (.int, [50]), (.star, []),
      (.int, [51]), (.minus, []), (.int, [52])]
    let e : ExprTree := .bin (.bin (.atom (.number [49])) .minus
      (.bin (.atom (.number [50])) .star (.atom (.number [51])))) .minus (.atom (.number [52]))
    e.Respects levels ∧ readTokens true ts = some e.tokens ∧ e.height < 256 ∧
      evalTree e = some (-9) ∧
      (preprocessorExpr .initial ts).map Prod.fst = some ⟨-1, 0⟩ ∧
      ((-9 : Long).truncate 32).toInt ≠ -1 := by
  refine ⟨?_, rfl, by decide, by decide, by decide +kernel, by decide⟩
  simp [OperatorPrecedence.Expr.Respects, OperatorPrecedence.Expr.openFrames,
    OperatorPrecedence.Expr.leftEdge, OperatorPrecedence.Frame.level, levels, BinaryOp.prec]

end Swig.Preprocessor
