import Swig.Preprocessor.ExprMeaning

/-!
The operator stack carries the operands of an expression, with their meanings.

Each function of the evaluator does to the stack what the parser does to the open
groups and operators, as long as the operations it carries out have a result; where
one has none, the evaluator stops for that reason.
-/

namespace Swig.Preprocessor

open Swig.Lib
open OperatorPrecedence (stackSize)

variable {col0 : Strings}

/-! ### The stack -/

/-- The innermost open entry is a prefix operator: what is left in the entry of its
operand is not overwritten by a string. -/
def UnderPrefix (st : List StringEntry) : Prop := ∃ p st', st = .op (.pre p) :: st'

/-- The number in the entry of an operand. -/
def NumberIs (st : List StringEntry) (v : Meaning) (x : Long) : Prop :=
  v.text = none ∨ ¬UnderPrefix st → x = v.number

/-- The slots below the operand hold the open groups and operators. -/
def Carried (col0 : Strings) (stack : ℕ → ExprVal) : List StringEntry → Prop
  | [] => True
  | .group :: st => (stack (stackSize st)).op = .group ∧ Carried col0 stack st
  | .op (.pre p) :: st =>
      ((stack (stackSize st)).op = .op ∧ (stack (stackSize st)).value = BitVec.ofNat 64 p.code) ∧
        Carried col0 stack st
  | .op (.bin l b) :: st =>
      (∃ col v col', evalStack st col0 = .ok col ∧ evalAt (stackSize st) l col = .ok (v, col') ∧
        (stack (stackSize st)).svalue = v.text ∧ NumberIs st v (stack (stackSize st)).value) ∧
      ((stack (stackSize st + 1)).op = .op ∧
        (stack (stackSize st + 1)).value = BitVec.ofNat 64 b.code) ∧
      Carried col0 stack st

structure Carries (col0 : Strings) (c : ExprState) (s : StringState) : Prop where
  sp : c.sp = stackSize s.stack
  room : c.sp < 256
  carried : Carried col0 c.stack s.stack
  strings : evalState s col0 = .ok fun i => (c.stack i).svalue
  expects : s.operand = none → (c.stack c.sp).op = .top ∧ (¬UnderPrefix s.stack → (c.stack c.sp).value = 0)
  operand : ∀ e, s.operand = some e → (c.stack c.sp).op = .value ∧
    ∃ col v col', evalStack s.stack col0 = .ok col ∧ evalAt c.sp e col = .ok (v, col') ∧
      NumberIs s.stack v (c.stack c.sp).value

theorem Carried.congr {stack stack' : ℕ → ExprVal} {st : List StringEntry}
    (h : Carried col0 stack st) (heq : ∀ i < stackSize st, stack' i = stack i) : Carried col0 stack' st := by
  induction st with
  | nil => trivial
  | cons x st ih =>
      simp only [OperatorPrecedence.stackSize_cons] at heq
      rcases x with _ | _ | ⟨l, b⟩
      · simp only [OperatorPrecedence.Entry.size] at heq
        have h0 := heq (stackSize st) (by omega)
        exact ⟨by rw [h0]; exact h.1, ih h.2 fun i hi => heq i (by omega)⟩
      · simp only [OperatorPrecedence.Entry.size, OperatorPrecedence.Frame.size] at heq
        have h0 := heq (stackSize st) (by omega)
        exact ⟨by rw [h0]; exact h.1, ih h.2 fun i hi => heq i (by omega)⟩
      · simp only [OperatorPrecedence.Entry.size, OperatorPrecedence.Frame.size] at heq
        have h0 := heq (stackSize st) (by omega)
        have h1 := heq (stackSize st + 1) (by omega)
        exact ⟨by rw [h0]; exact h.1, by rw [h1]; exact h.2.1, ih h.2.2 fun i hi => heq i (by omega)⟩

theorem bind_eq_ok {ε α β : Type} {x : Except ε α} {f : α → Except ε β} {b : β} :
    (x >>= f) = .ok b ↔ ∃ a, x = .ok a ∧ f a = .ok b := by
  cases x with
  | error e =>
      constructor
      · nofun
      · rintro ⟨a, ha, -⟩
        cases ha
  | ok a =>
      constructor
      · intro h
        exact ⟨a, rfl, h⟩
      · rintro ⟨_, ⟨⟩, h⟩
        exact h

theorem bind_of_ok {ε α β : Type} (a : α) (f : α → Except ε β) : (Except.ok a >>= f) = f a := rfl

/-- The string of an operand is left in its entry. -/
theorem evalAt_text {n : ℕ} {e : StringTree} {col col' : Strings} {v : Meaning}
    (h : evalAt n e col = .ok (v, col')) : col' n = v.text := by
  cases e with
  | atom a =>
      cases h
      simp
  | group e =>
      obtain ⟨r, -, h⟩ := bind_eq_ok.mp h
      cases h
      rfl
  | pre p e =>
      obtain ⟨r, -, h⟩ := bind_eq_ok.mp h
      obtain ⟨x, -, h⟩ := bind_eq_ok.mp h
      cases h
      simp
  | bin l b r =>
      obtain ⟨vl, -, h⟩ := bind_eq_ok.mp h
      obtain ⟨vr, -, h⟩ := bind_eq_ok.mp h
      obtain ⟨x, -, h⟩ := bind_eq_ok.mp h
      cases h
      simp

theorem evalAt_group {n : ℕ} {e : StringTree} {col col' : Strings} {v : Meaning}
    (h : evalAt (n + 1) e (Function.update col (n + 1) none) = .ok (v, col')) :
    evalAt n (.group e) col = .ok (⟨v.number, col' n⟩, col') := by
  rw [evalAt, h]
  rfl

theorem evalAt_pre {n : ℕ} {p : UnaryOp} {e : StringTree} {col col' : Strings} {v : Meaning}
    (h : evalAt (n + 1) e (Function.update col (n + 1) none) = .ok (v, col')) :
    evalAt n (.pre p e) col = (p.meaning v).map fun x => (⟨x, none⟩, Function.update col' n none) := by
  rw [evalAt, h]
  rfl

theorem evalAt_bin {n : ℕ} {l r : StringTree} {b : BinaryOp} {col col' col'' : Strings} {v w : Meaning}
    (hl : evalAt n l col = .ok (v, col')) (hr : evalAt (n + 2) r col' = .ok (w, col'')) :
    evalAt n (.bin l b r) col = (b.meaning v w).map fun x => (⟨x, none⟩, Function.update col'' n none) := by
  simp only [evalAt, hl, bind_of_ok, hr]
  rfl

/-! ### Reductions -/

def Mistake.stop : Mistake → Stop
  | .mismatch => .error
  | .undefined => .undefined

/-- The evaluator goes on, or stops because an operation has no result. -/
def Obeys {α : Type} (r : Except Mistake α) (x : Eval ExprState) (R : ExprState → Prop) : Prop :=
  match r with
  | .ok _ => ∃ c, x = .ok c ∧ R c
  | .error m => ∃ c, x = .error ⟨m.stop, c⟩

/-- The evaluation of the stack and of the operand on it. -/
theorem Carries.evaluated {c : ExprState} {e : StringTree} {st : List StringEntry}
    (h : Carries col0 c ⟨some e, st⟩) :
    ∃ col v, evalStack st col0 = .ok col ∧ evalAt (stackSize st) e col = .ok (v, fun i => (c.stack i).svalue) ∧
      (c.stack c.sp).op = .value ∧ (c.stack c.sp).svalue = v.text ∧ NumberIs st v (c.stack c.sp).value := by
  obtain ⟨hop, col, v, col', hcol, hv, hnumber⟩ := h.operand e rfl
  have hsp : c.sp = stackSize st := h.sp
  have hstrings := h.strings
  rw [hsp] at hv
  have hcol : evalStack st col0 = .ok col := hcol
  have heval : evalState ⟨some e, st⟩ col0 = .ok col' := by
    simp only [evalState, hcol, bind_of_ok, hv]
  rw [heval] at hstrings
  obtain rfl : col' = fun i => (c.stack i).svalue := by
    cases hstrings
    rfl
  exact ⟨col, v, hcol, hv, hop, by rw [← evalAt_text hv, hsp], hnumber⟩

theorem evalState_some {e : StringTree} {st : List StringEntry} {col : Strings}
    (h : evalStack st col0 = .ok col) :
    evalState ⟨some e, st⟩ col0 = (evalAt (stackSize st) e col).map Prod.snd := by
  simp only [evalState, h]
  show (evalAt (stackSize st) e col >>= fun r => .ok r.2) = _
  cases evalAt (stackSize st) e col <;> rfl

/-- The entry of a completed operation. -/
theorem carries_reduced {c : ExprState} {e : StringTree} {st : List StringEntry} {col : Strings}
    {x : Long} (hroom : stackSize st < 256) (hcarried : Carried col0 c.stack st)
    (hcol : evalStack st col0 = .ok col)
    (hv : evalAt (stackSize st) e col =
      .ok (⟨x, none⟩, Function.update (fun i => (c.stack i).svalue) (stackSize st) none)) :
    Carries col0
      { c with
        stack := Function.update c.stack (stackSize st) { op := .value, value := x, svalue := none }
        sp := stackSize st }
      ⟨some e, st⟩ := by
  refine ⟨rfl, hroom, hcarried.congr fun i hi => ?_, ?_, nofun, ?_⟩
  · exact Function.update_of_ne (by omega) _ _
  · rw [evalState_some hcol, hv]
    simp only [Except.map]
    congr 1
    funext i
    by_cases hi : i = stackSize st <;> simp [hi]
  · rintro e' ⟨⟩
    refine ⟨by simp, col, _, _, hcol, hv, fun _ => by simp⟩

theorem reduceOp_unary {c : ExprState} {e : StringTree} {p : UnaryOp} {st : List StringEntry}
    (h : Carries col0 c ⟨some e, .op (.pre p) :: st⟩) :
    Obeys (evalState ⟨some (.pre p e), st⟩ col0) (reduceOp c)
      fun c' => Carries col0 c' ⟨some (.pre p e), st⟩ := by
  obtain ⟨col, w, hcol, hw, hop, htext, hnumber⟩ := h.evaluated
  have hroom := h.room
  have hsize := h.sp
  have hcarried := h.carried
  simp only [OperatorPrecedence.stackSize_cons, OperatorPrecedence.Entry.size,
    OperatorPrecedence.Frame.size] at hsize hw
  obtain ⟨⟨hop1, hcode⟩, hrest⟩ := hcarried
  obtain ⟨colS, hcolS, hupd⟩ := bind_eq_ok.mp hcol
  cases hupd
  have hbelow : c.sp - 1 = stackSize st := by omega
  have h1 : stackSize st < 256 := by omega
  rw [Nat.add_comm] at hw
  have hmeaning := evalAt_pre (p := p) hw
  rw [evalState_some hcolS, hmeaning, UnaryOp.meaning]
  cases hwtext : w.text with
  | some s =>
      rw [hwtext] at htext
      refine ⟨{ c with errmsg := some (lit "Syntax error: attempt to apply unary operator to string") }, ?_⟩
      simp [reduceOp, checkOperands, c.get_of_lt h1, c.get_of_lt hroom, hop, hop1, htext, hcode,
        unaryOf_unary, ok_bind, hbelow, show c.sp ≠ 0 by omega, ExprState.fail, Mistake.stop]
      rfl
  | none =>
      rw [hwtext] at htext
      have hx : (c.stack c.sp).value = w.number := hnumber (.inl hwtext)
      refine ⟨_, ?_, carries_reduced (by omega) hrest hcolS (x := p.apply w.number) ?_⟩
      · simp [reduceOp, reduceNumbers, checkOperands, c.get_of_lt h1, c.get_of_lt hroom, hop, hop1,
          htext, hcode, unaryOf_unary, ok_bind, ExprState.set_of_lt, ExprState.get_of_lt, h1, hx, hbelow,
          show c.sp ≠ 0 by omega]
      · rw [hmeaning, UnaryOp.meaning, hwtext]
        rfl

theorem reduceOp_binary {c : ExprState} {l e : StringTree} {b : BinaryOp} {st : List StringEntry}
    (h : Carries col0 c ⟨some e, .op (.bin l b) :: st⟩) :
    Obeys (evalState ⟨some (.bin l b e), st⟩ col0) (reduceOp c)
      fun c' => Carries col0 c' ⟨some (.bin l b e), st⟩ := by
  obtain ⟨col, w, hcol, hw, hop, htext, hnumber⟩ := h.evaluated
  have hroom := h.room
  have hsize := h.sp
  have hcarried := h.carried
  simp only [OperatorPrecedence.stackSize_cons, OperatorPrecedence.Entry.size,
    OperatorPrecedence.Frame.size] at hsize hw
  obtain ⟨⟨colS, v, colL, hcolS, hv, hltext, hlnumber⟩, ⟨hop1, hcode⟩, hrest⟩ := hcarried
  rw [evalStack, hcolS, bind_of_ok, hv] at hcol
  cases hcol
  have hbelow : c.sp - 1 = stackSize st + 1 := by omega
  have hleft : c.sp - 2 = stackSize st := by omega
  have h1 : stackSize st + 1 < 256 := by omega
  have h2 : stackSize st < 256 := by omega
  rw [Nat.add_comm] at hw
  have hmeaning := evalAt_bin (b := b) hv hw
  rw [evalState_some hcolS, hmeaning]
  have hok {z : Long} (hb : b.meaning v w = .ok z)
      (hred : reduceOp c = .ok { c with
        stack := Function.update c.stack (stackSize st) { op := .value, value := z, svalue := none }
        sp := stackSize st }) :
      Obeys (((b.meaning v w).map fun x => ((⟨x, none⟩ : Meaning),
        Function.update (fun i => (c.stack i).svalue) (stackSize st) none)).map Prod.snd) (reduceOp c)
        fun c' => Carries col0 c' ⟨some (.bin l b e), st⟩ := by
    rw [hb] at hmeaning ⊢
    exact ⟨_, hred, carries_reduced h2 hrest hcolS hmeaning⟩
  have hstop {m : Mistake} {d : ExprState} (hb : b.meaning v w = .error m)
      (hred : reduceOp c = .error ⟨m.stop, d⟩) :
      Obeys (((b.meaning v w).map fun x => ((⟨x, none⟩ : Meaning),
        Function.update (fun i => (c.stack i).svalue) (stackSize st) none)).map Prod.snd) (reduceOp c)
        fun c' => Carries col0 c' ⟨some (.bin l b e), st⟩ := by
    rw [hb]
    exact ⟨d, hred⟩
  cases hvtext : v.text with
  | none =>
      rw [hvtext] at hltext
      have hx : (c.stack (stackSize st)).value = v.number := hlnumber (.inl hvtext)
      cases hwtext : w.text with
      | none =>
          rw [hwtext] at htext
          have hy : (c.stack c.sp).value = w.number := hnumber (.inl hwtext)
          cases hb : b.apply v.number w.number with
          | none =>
              refine hstop (m := .undefined) (d := c) ?_ ?_
              · rw [BinaryOp.meaning, hvtext, hwtext, hb]
                rfl
              · simp [reduceOp, reduceNumbers, checkOperands, c.get_of_lt h1, c.get_of_lt hroom,
                  c.get_of_lt h2, hop, hop1, hltext, htext, hcode, unaryOf_binary, binaryOf_binary,
                  ok_bind, hbelow, hleft, hx, hy, hb, show c.sp ≠ 0 by omega, show c.sp ≠ 1 by omega,
                  ExprState.stop, Mistake.stop]
                rfl
          | some z =>
              refine hok (z := z) ?_ ?_
              · rw [BinaryOp.meaning, hvtext, hwtext, hb]
                rfl
              · simp [reduceOp, reduceNumbers, checkOperands, c.get_of_lt h1, c.get_of_lt hroom,
                  c.get_of_lt h2, hop, hop1, hltext, htext, hcode, unaryOf_binary, binaryOf_binary,
                  ok_bind, ExprState.set_of_lt, ExprState.get_of_lt, h2, hx, hy, hb, hbelow, hleft,
                  storeBinary_eq, show c.sp ≠ 0 by omega, show c.sp ≠ 1 by omega]
      | some y =>
          rw [hwtext] at htext
          refine hstop (m := .mismatch)
            (d := { c with errmsg := some (lit "Can't mix strings and integers in expression") }) ?_ ?_
          · rw [BinaryOp.meaning, hvtext, hwtext]
          · simp [reduceOp, checkOperands, c.get_of_lt h1, c.get_of_lt hroom, c.get_of_lt h2, hop, hop1,
              hltext, htext, hcode, unaryOf_binary, ok_bind, hbelow, hleft, show c.sp ≠ 0 by omega,
              show c.sp ≠ 1 by omega, ExprState.fail, Mistake.stop]
            rfl
  | some x =>
      rw [hvtext] at hltext
      cases hwtext : w.text with
      | none =>
          rw [hwtext] at htext
          refine hstop (m := .mismatch)
            (d := { c with errmsg := some (lit "Can't mix strings and integers in expression") }) ?_ ?_
          · rw [BinaryOp.meaning, hvtext, hwtext]
          · simp [reduceOp, checkOperands, c.get_of_lt h1, c.get_of_lt hroom, c.get_of_lt h2, hop, hop1,
              hltext, htext, hcode, unaryOf_binary, ok_bind, hbelow, hleft, show c.sp ≠ 0 by omega,
              show c.sp ≠ 1 by omega, ExprState.fail, Mistake.stop]
            rfl
      | some y =>
          rw [hwtext] at htext
          have hmean : b.meaning v w = if b = .equalto then .ok (.ofBool (strcmp x y == .eq))
              else if b = .notequal then .ok (.ofBool (strcmp x y != .eq)) else .error .mismatch := by
            rw [BinaryOp.meaning, hvtext, hwtext]
          have hred : reduceStrings c (BitVec.ofNat 64 b.code) y =
              if b = .equalto then storeBinary c (.ofBool (strcmp x y == .eq))
              else if b = .notequal then storeBinary c (.ofBool (strcmp x y != .eq))
              else c.fail "Syntax error: bad binary operator for strings" := by
            rw [reduceStrings, hleft, c.get_of_lt h2, ok_bind, hltext, binaryOf_binary]
            cases b <;> rfl
          have hstore (z : Long) (hb : b.meaning v w = .ok z)
              (hred : reduceStrings c (BitVec.ofNat 64 b.code) y = storeBinary c z) := hok hb (by
            simp [reduceOp, hred, checkOperands, c.get_of_lt h1, c.get_of_lt hroom,
              c.get_of_lt h2, hop, hop1, hltext, htext, hcode, unaryOf_binary,
              ok_bind, ExprState.set_of_lt, ExprState.get_of_lt, h2, hbelow, hleft,
              storeBinary_eq, show c.sp ≠ 0 by omega, show c.sp ≠ 1 by omega])
          by_cases hequal : b = .equalto
          · rw [if_pos hequal] at hmean hred
            exact hstore _ hmean hred
          · rw [if_neg hequal] at hmean hred
            by_cases hnotequal : b = .notequal
            · rw [if_pos hnotequal] at hmean hred
              exact hstore _ hmean hred
            · rw [if_neg hnotequal] at hmean hred
              refine hstop (d := { c with
                errmsg := some (lit "Syntax error: bad binary operator for strings") }) hmean ?_
              simp [reduceOp, hred, checkOperands, c.get_of_lt h1, c.get_of_lt hroom,
                c.get_of_lt h2, hop, hop1, hltext, htext, hcode, unaryOf_binary, ok_bind, hbelow, hleft,
                show c.sp ≠ 0 by omega, show c.sp ≠ 1 by omega, ExprState.fail, Mistake.stop]
              rfl

/-- A reduction on the stack is the completion of the innermost operator. -/
theorem reduceOp_carries {c : ExprState} {e : StringTree}
    {f : OperatorPrecedence.Frame Operand UnaryOp BinaryOp} {st : List StringEntry}
    (h : Carries col0 c ⟨some e, .op f :: st⟩) :
    Obeys (evalState ⟨some (f.apply e), st⟩ col0) (reduceOp c)
      fun c' => Carries col0 c' ⟨some (f.apply e), st⟩ := by
  cases f with
  | pre p => exact reduceOp_unary h
  | bin l b => exact reduceOp_binary h

/-! ### Pushes -/

theorem evalState_none (st : List StringEntry) : evalState ⟨none, st⟩ col0 = evalStack st col0 := by
  simp only [evalState]
  cases evalStack st col0 <;> rfl

theorem evalState_bin (e : StringTree) (b : BinaryOp) (st : List StringEntry) :
    evalState ⟨none, .op (.bin e b) :: st⟩ col0 = evalState ⟨some e, st⟩ col0 := by
  rw [evalState_none]
  rfl

theorem evalState_group (st : List StringEntry) :
    evalState ⟨none, .group :: st⟩ col0 =
      (evalState ⟨none, st⟩ col0).map fun col => Function.update col (stackSize st + 1) none := by
  rw [evalState_none, evalState_none, evalStack]
  cases evalStack st col0 <;> rfl

theorem evalState_pre (p : UnaryOp) (st : List StringEntry) :
    evalState ⟨none, .op (.pre p) :: st⟩ col0 =
      (evalState ⟨none, st⟩ col0).map fun col => Function.update col (stackSize st + 1) none := by
  rw [evalState_none, evalState_none, evalStack]
  cases evalStack st col0 <;> rfl

theorem pushBinary_carries {c : ExprState} {e : StringTree} {st : List StringEntry}
    (h : Carries col0 c ⟨some e, st⟩) (hsp : stackSize st + 2 < 256) (b : BinaryOp) :
    ∃ c', pushBinary c b = .ok c' ∧ Carries col0 c' ⟨none, .op (.bin e b) :: st⟩ := by
  obtain ⟨col, v, hcol, hv, hop, htext, hnumber⟩ := h.evaluated
  have hsize : c.sp = stackSize st := h.sp
  have hcarried := h.carried
  have h1 : stackSize st + 1 < 256 := by omega
  refine ⟨{ c with
    stack := Function.update (Function.update c.stack (stackSize st + 1)
      { c.stack (stackSize st + 1) with op := .op, value := BitVec.ofNat 64 b.code }) (stackSize st + 2)
      { c.stack (stackSize st + 2) with op := .top, value := 0 }
    sp := stackSize st + 2 }, ?_, ?_⟩
  · simp [pushBinary, ExprState.get_of_lt, ExprState.set_of_lt, h1, hsp, hsize, ok_bind]
  · refine ⟨?_, hsp, ⟨⟨col, v, _, hcol, hv, ?_, ?_⟩, ⟨?_, ?_⟩, hcarried.congr fun i hi => ?_⟩, ?_, ?_,
      by rintro _ ⟨⟩⟩
    · simp only [OperatorPrecedence.stackSize_cons, OperatorPrecedence.Entry.size,
        OperatorPrecedence.Frame.size]
      omega
    · simpa [hsize] using htext
    · simpa [hsize] using hnumber
    · simp
    · simp
    · dsimp only at hi ⊢
      rw [Function.update_of_ne (by omega), Function.update_of_ne (by omega)]
    · rw [evalState_bin, h.strings]
      congr 1
      funext i
      by_cases hi : i = stackSize st + 2
      · simp [hi]
      · by_cases hi' : i = stackSize st + 1 <;> simp [hi, hi']
    · intro _
      simp

theorem pushUnary_carries {c : ExprState} {st : List StringEntry}
    (h : Carries col0 c ⟨none, st⟩) (hsp : stackSize st + 1 < 256) (p : UnaryOp) :
    ∃ c', pushUnary c p = .ok c' ∧ Carries col0 c' ⟨none, .op (.pre p) :: st⟩ := by
  have hsize : c.sp = stackSize st := h.sp
  have hcarried := h.carried
  have h0 : stackSize st < 256 := by omega
  refine ⟨{ c with
    stack := Function.update (Function.update c.stack (stackSize st)
      { c.stack (stackSize st) with op := .op, value := BitVec.ofNat 64 p.code }) (stackSize st + 1)
      { c.stack (stackSize st + 1) with op := .top, svalue := none }
    sp := stackSize st + 1 }, ?_, ?_⟩
  · simp [pushUnary, ExprState.get_of_lt, ExprState.set_of_lt, h0, hsp, hsize, ok_bind]
  · refine ⟨?_, hsp, ⟨⟨?_, ?_⟩, hcarried.congr fun i hi => ?_⟩, ?_, ?_, by rintro _ ⟨⟩⟩
    · simp only [OperatorPrecedence.stackSize_cons, OperatorPrecedence.Entry.size,
        OperatorPrecedence.Frame.size]
      omega
    · simp
    · simp
    · dsimp only at hi ⊢
      rw [Function.update_of_ne (by omega), Function.update_of_ne (by omega)]
    · rw [evalState_pre, h.strings]
      simp only [Except.map]
      congr 1
      funext i
      by_cases hi : i = stackSize st + 1
      · simp [hi]
      · by_cases hi' : i = stackSize st <;> simp [hi', hi]
    · intro _
      exact ⟨by simp, fun hprefix => absurd ⟨p, st, rfl⟩ hprefix⟩

theorem pushGroup_carries {c : ExprState} {st : List StringEntry}
    (h : Carries col0 c ⟨none, st⟩) (hsp : stackSize st + 1 < 256) :
    ∃ c', pushGroup c = .ok c' ∧ Carries col0 c' ⟨none, .group :: st⟩ := by
  have hsize : c.sp = stackSize st := h.sp
  have hcarried := h.carried
  have h0 : stackSize st < 256 := by omega
  refine ⟨{ c with
    stack := Function.update (Function.update c.stack (stackSize st)
      { c.stack (stackSize st) with op := .group }) (stackSize st + 1)
      { op := .top, value := 0, svalue := none }
    sp := stackSize st + 1 }, ?_, ?_⟩
  · simp [pushGroup, ExprState.get_of_lt, ExprState.set_of_lt, h0, hsp, hsize, ok_bind]
  · refine ⟨?_, hsp, ⟨?_, hcarried.congr fun i hi => ?_⟩, ?_, ?_, by rintro _ ⟨⟩⟩
    · simp only [OperatorPrecedence.stackSize_cons, OperatorPrecedence.Entry.size]
      omega
    · simp
    · dsimp only at hi ⊢
      rw [Function.update_of_ne (by omega), Function.update_of_ne (by omega)]
    · rw [evalState_group, h.strings]
      simp only [Except.map]
      congr 1
      funext i
      by_cases hi : i = stackSize st + 1
      · simp [hi]
      · by_cases hi' : i = stackSize st <;> simp [hi', hi]
    · intro _
      simp

/-- An operand is stored in the entry that expects it. -/
theorem setOperand_carries {c : ExprState} {st : List StringEntry} (h : Carries col0 c ⟨none, st⟩)
    (a : Operand) {x : Long} (hx : NumberIs st a.meaning x) :
    ∃ c', c.set c.sp { op := .value, value := x, svalue := a.meaning.text } = .ok c' ∧
      Carries col0 c' ⟨some (.atom a), st⟩ := by
  have hsize : c.sp = stackSize st := h.sp
  have hroom := h.room
  have hcol : evalStack st col0 = .ok fun i => (c.stack i).svalue := by
    rw [← evalState_none]
    exact h.strings
  refine ⟨_, c.set_of_lt h.room _, hsize, hroom, h.carried.congr fun i hi => ?_, ?_, nofun, ?_⟩
  · exact Function.update_of_ne (by dsimp only at hi; omega) _ _
  · rw [evalState_some hcol, evalAt]
    simp only [Except.map]
    congr 1
    funext i
    by_cases hi : i = stackSize st
    · simp [hi, hsize]
    · simp [hi, hsize]
  · rintro e ⟨⟩
    exact ⟨by simp, _, _, _, hcol, rfl, by simpa using hx⟩

end Swig.Preprocessor
