import Swig.Preprocessor.ExprCarries

/-!
How `Preprocessor_expr` ends, read off the expression.

The state of the parser after each token says what the evaluator does there: it stops
where an operation that the state completes has no result, and where the state does
not fit the stack.
-/

namespace Swig.Preprocessor

open Swig.Lib
open OperatorPrecedence (stackSize)

variable {col0 : Strings} {c : ExprState}

/-- The evaluator gets to the state, unless an operation of it has no result or it does
not fit the stack. -/
def Reaches (col0 : Strings) (x : Eval ExprState) (s : StringState) : Prop :=
  match evalState s col0 with
  | .error m => ∃ c, x = .error ⟨m.stop, c⟩
  | .ok _ =>
      if stackSize s.stack < 256 then ∃ c, x = .ok c ∧ Carries col0 c s
      else ∃ c, x = .error ⟨.outOfBounds, c⟩

theorem reaches_of_obeys {x : Eval ExprState} {s : StringState} (hsize : stackSize s.stack < 256)
    (h : Obeys (evalState s col0) x fun c => Carries col0 c s) : Reaches col0 x s := by
  unfold Reaches
  unfold Obeys at h
  cases hs : evalState s col0 with
  | error m =>
      rw [hs] at h
      exact h
  | ok col =>
      rw [hs] at h
      exact (if_pos hsize).mpr h

/-- What is on the stack below the operand decides how far the loops go. -/
theorem Carries.below {s : StringState} (h : Carries col0 c s) :
    (s.stack = [] ∧ c.sp = 0) ∨
      (∃ st, s.stack = .group :: st ∧ c.sp ≠ 0 ∧ (c.stack (c.sp - 1)).op = .group) ∨
      ∃ f st, s.stack = .op f :: st ∧ c.sp ≠ 0 ∧ (c.stack (c.sp - 1)).op = .op ∧
        precOf (c.stack (c.sp - 1)).value = f.level levels := by
  obtain ⟨operand, stack⟩ := s
  have hsize : c.sp = stackSize stack := h.sp
  have hcarried : Carried col0 c.stack stack := h.carried
  rcases stack with _ | ⟨_ | _ | ⟨l, b⟩, st⟩
  · exact .inl ⟨rfl, hsize⟩
  · have hsp : c.sp = stackSize st + 1 := by
      simp [OperatorPrecedence.stackSize_cons, OperatorPrecedence.Entry.size] at hsize
      omega
    refine .inr (.inl ⟨st, rfl, by omega, ?_⟩)
    rw [show c.sp - 1 = stackSize st by omega]
    exact hcarried.1
  · next p =>
      have hsp : c.sp = stackSize st + 1 := by
        simp [OperatorPrecedence.stackSize_cons, OperatorPrecedence.Entry.size,
          OperatorPrecedence.Frame.size] at hsize
        omega
      refine .inr (.inr ⟨_, st, rfl, by omega, ?_, ?_⟩)
      · rw [show c.sp - 1 = stackSize st by omega]
        exact hcarried.1.1
      · rw [show c.sp - 1 = stackSize st by omega, hcarried.1.2, precOf_unary]
        rfl
  · have hsp : c.sp = stackSize st + 2 := by
      simp [OperatorPrecedence.stackSize_cons, OperatorPrecedence.Entry.size,
        OperatorPrecedence.Frame.size] at hsize
      omega
    refine .inr (.inr ⟨_, st, rfl, by omega, ?_, ?_⟩)
    · rw [show c.sp - 1 = stackSize st + 1 by omega]
      exact hcarried.2.1.1
    · rw [show c.sp - 1 = stackSize st + 1 by omega, hcarried.2.1.2, precOf_binary]
      rfl

/-! ### Pushes -/

theorem pushBinary_reaches {e : StringTree} {st : List StringEntry} (h : Carries col0 c ⟨some e, st⟩)
    (b : BinaryOp) : Reaches col0 (pushBinary c b) ⟨none, .op (.bin e b) :: st⟩ := by
  have hsize : c.sp = stackSize st := h.sp
  have hcons : stackSize (.op (.bin e b) :: st) = stackSize st + 2 := by
    rw [OperatorPrecedence.stackSize_cons, Nat.add_comm]
    rfl
  unfold Reaches
  rw [evalState_bin, h.strings]
  simp only [hcons]
  split
  · next hlt => exact pushBinary_carries h hlt b
  · next hge =>
      by_cases h1 : stackSize st + 1 < 256
      · refine ⟨{ c with
          stack := Function.update c.stack (stackSize st + 1)
            { c.stack (stackSize st + 1) with op := .op, value := BitVec.ofNat 64 b.code } }, ?_⟩
        simp [pushBinary, ExprState.get, ExprState.set_of_lt, h1, hsize, hge, ok_bind, ExprState.stop]
        rfl
      · refine ⟨c, ?_⟩
        simp [pushBinary, ExprState.get, h1, hsize, ExprState.stop]
        rfl

theorem pushUnary_reaches {st : List StringEntry} (h : Carries col0 c ⟨none, st⟩) (p : UnaryOp) :
    Reaches col0 (pushUnary c p) ⟨none, .op (.pre p) :: st⟩ := by
  have hsize : c.sp = stackSize st := h.sp
  have hroom : stackSize st < 256 := hsize ▸ h.room
  have hcons : stackSize (.op (.pre p) :: st : List StringEntry) = stackSize st + 1 := by
    rw [OperatorPrecedence.stackSize_cons, Nat.add_comm]
    rfl
  unfold Reaches
  rw [evalState_pre, h.strings]
  simp only [hcons, Except.map]
  split
  · next hlt => exact pushUnary_carries h hlt p
  · next hge =>
      refine ⟨{ c with
        stack := Function.update c.stack (stackSize st)
          { c.stack (stackSize st) with op := .op, value := BitVec.ofNat 64 p.code } }, ?_⟩
      simp [pushUnary, ExprState.get, ExprState.set_of_lt, hroom, hsize, hge, ok_bind, ExprState.stop]
      rfl

theorem pushGroup_reaches {st : List StringEntry} (h : Carries col0 c ⟨none, st⟩) :
    Reaches col0 (pushGroup c) ⟨none, .group :: st⟩ := by
  have hsize : c.sp = stackSize st := h.sp
  have hroom : stackSize st < 256 := hsize ▸ h.room
  have hcons : stackSize (.group :: st : List StringEntry) = stackSize st + 1 := by
    rw [OperatorPrecedence.stackSize_cons, Nat.add_comm]
    rfl
  unfold Reaches
  rw [evalState_group, h.strings]
  simp only [hcons, Except.map]
  split
  · next hlt => exact pushGroup_carries h hlt
  · next hge =>
      refine ⟨{ c with
        stack := Function.update c.stack (stackSize st)
          { c.stack (stackSize st) with op := .group } }, ?_⟩
      simp [pushGroup, ExprState.get, ExprState.set_of_lt, hroom, hsize, hge, ok_bind, ExprState.stop]
      rfl

/-! ### Reductions -/

/-- The completion of an operator keeps the mistake of what is below and inside. -/
theorem evalState_apply_error {e : StringTree} {f : OperatorPrecedence.Frame Operand UnaryOp BinaryOp}
    {st : List StringEntry} {m : Mistake} (h : evalState ⟨some e, .op f :: st⟩ col0 = .error m) :
    evalState ⟨some (f.apply e), st⟩ col0 = .error m := by
  cases hst : evalStack st col0 with
  | error m' =>
      have hleft : evalState ⟨some e, .op f :: st⟩ col0 = .error m' := by
        cases f <;> simp only [evalState, evalStack, hst] <;> rfl
      rw [hleft] at h
      cases h
      simp only [evalState, hst]
      rfl
  | ok col =>
      rw [evalState_some hst]
      cases f with
      | pre p =>
          have hpre : evalStack (.op (.pre p) :: st) col0 =
              .ok (Function.update col (stackSize st + 1) none) := by
            rw [evalStack, hst]
            rfl
          rw [evalState_some hpre, OperatorPrecedence.stackSize_cons, OperatorPrecedence.Entry.size,
            OperatorPrecedence.Frame.size, Nat.add_comm] at h
          rw [OperatorPrecedence.Frame.apply, evalAt]
          cases hv : evalAt (stackSize st + 1) e (Function.update col (stackSize st + 1) none) with
          | error m' =>
              rw [hv] at h
              cases h
              rfl
          | ok r =>
              rw [hv] at h
              cases h
      | bin l b =>
          rw [OperatorPrecedence.Frame.apply, evalAt]
          cases hl : evalAt (stackSize st) l col with
          | error m' =>
              have hleft : evalStack (.op (.bin l b) :: st) col0 = .error m' := by
                rw [evalStack, hst, bind_of_ok, hl]
                rfl
              have : evalState ⟨some e, .op (.bin l b) :: st⟩ col0 = .error m' := by
                simp only [evalState, hleft]
                rfl
              rw [this] at h
              cases h
              rfl
          | ok r =>
              have hbin : evalStack (.op (.bin l b) :: st) col0 = .ok r.2 := by
                rw [evalStack, hst, bind_of_ok, hl]
                rfl
              rw [evalState_some hbin, OperatorPrecedence.stackSize_cons, OperatorPrecedence.Entry.size,
                OperatorPrecedence.Frame.size, Nat.add_comm] at h
              simp only [bind_of_ok]
              cases hv : evalAt (stackSize st + 2) e r.2 with
              | error m' =>
                  rw [hv] at h
                  cases h
                  rfl
              | ok r' =>
                  rw [hv] at h
                  cases h

theorem evalState_reduceAll_error {e : StringTree} {st : List StringEntry} {m : Mistake}
    (h : evalState ⟨some e, st⟩ col0 = .error m) :
    evalState ⟨some (OperatorPrecedence.reduceAll e st).1, (OperatorPrecedence.reduceAll e st).2⟩ col0 =
      .error m := by
  induction st generalizing e with
  | nil => exact h
  | cons x st ih =>
      cases x with
      | group => exact h
      | op f => exact ih (evalState_apply_error h)

theorem reduceLoop_carries {e : StringTree} {stack : List StringEntry}
    (h : Carries col0 c ⟨some e, stack⟩) {fuel : ℕ} (hfuel : c.sp ≤ fuel) :
    Obeys (evalState ⟨some (OperatorPrecedence.reduceAll e stack).1,
        (OperatorPrecedence.reduceAll e stack).2⟩ col0) (reduceLoop fuel c)
      fun c' => Carries col0 c' ⟨some (OperatorPrecedence.reduceAll e stack).1,
        (OperatorPrecedence.reduceAll e stack).2⟩ := by
  induction stack generalizing c e fuel with
  | nil =>
      obtain ⟨-, h0⟩ | ⟨st, hst, -⟩ | ⟨f, st, hst, -⟩ := h.below
      · rw [OperatorPrecedence.reduceAll, h.strings]
        refine ⟨c, ?_, h⟩
        cases fuel <;> simp [reduceLoop, h0]
      · cases hst
      · cases hst
  | cons x stack ih =>
      have hroom := h.room
      obtain ⟨hst, -⟩ | ⟨st, hst, h0, hop⟩ | ⟨f, st, hst, h0, hop, -⟩ := h.below
      · cases hst
      · obtain ⟨rfl, rfl⟩ := List.cons.inj hst
        rw [OperatorPrecedence.reduceAll, h.strings]
        refine ⟨c, ?_, h⟩
        cases fuel with
        | zero => rfl
        | succ fuel =>
            simp [reduceLoop, h0, c.get_of_lt (show c.sp - 1 < 256 by omega), ok_bind, hop]
      · obtain ⟨rfl, rfl⟩ := List.cons.inj hst
        cases fuel with
        | zero => omega
        | succ fuel =>
            have hloop : reduceLoop (fuel + 1) c = reduceOp c >>= reduceLoop fuel := by
              simp [reduceLoop, h0, c.get_of_lt (show c.sp - 1 < 256 by omega), ok_bind, hop]
            have hred := reduceOp_carries h
            rw [hloop, OperatorPrecedence.reduceAll]
            cases hev : evalState ⟨some (f.apply e), stack⟩ col0 with
            | error m =>
                rw [hev] at hred
                obtain ⟨c', hc'⟩ := hred
                rw [evalState_reduceAll_error hev, hc']
                exact ⟨c', rfl⟩
            | ok col =>
                rw [hev] at hred
                obtain ⟨c', hc', hcarries⟩ := hred
                have hlt : c'.sp < c.sp := by
                  rw [hcarries.sp, h.sp, OperatorPrecedence.stackSize_cons]
                  cases f <;> simp [OperatorPrecedence.Entry.size, OperatorPrecedence.Frame.size]
                rw [hc', ok_bind]
                exact ih hcarries (by omega)

/-! ### Tokens -/

/-- Before the shift, the operator below is reduced at most once. -/
theorem exprBinary_reaches {e : StringTree} {stack : List StringEntry}
    (h : Carries col0 c ⟨some e, stack⟩) (b : BinaryOp) :
    Reaches col0 (exprBinary c b) ⟨none, .op (.bin (OperatorPrecedence.reduce levels b 1 e stack).1 b) ::
      (OperatorPrecedence.reduce levels b 1 e stack).2⟩ := by
  have hroom := h.room
  obtain ⟨hst, h0⟩ | ⟨st, hst, h0, hop⟩ | ⟨f, st, hst, h0, hop, hprec⟩ := h.below
  · replace hst : stack = [] := hst
    subst hst
    rw [exprBinary, if_pos h0]
    exact pushBinary_reaches h b
  · replace hst : stack = .group :: st := hst
    subst hst
    simp only [exprBinary, if_neg h0, c.get_of_lt (show c.sp - 1 < 256 by omega), ok_bind, if_pos hop]
    exact pushBinary_reaches h b
  · replace hst : stack = .op f :: st := hst
    subst hst
    simp only [exprBinary, if_neg h0, c.get_of_lt (show c.sp - 1 < 256 by omega), ok_bind, hop, hprec,
      reduceCtorEq, if_false, ne_eq, not_true_eq_false]
    by_cases hle : f.level levels ≤ levels.bin b
    · have hred : OperatorPrecedence.reduce levels b 1 e (.op f :: st) = (f.apply e, st) := by
        rw [OperatorPrecedence.reduce, if_pos hle, OperatorPrecedence.reduce]
      have hle' : f.level levels ≤ b.prec := hle
      rw [hred, if_pos hle']
      have hreduced := reduceOp_carries h
      unfold Obeys at hreduced
      cases hev : evalState ⟨some (f.apply e), st⟩ col0 with
      | error m =>
          rw [hev] at hreduced
          obtain ⟨c', hc'⟩ := hreduced
          unfold Reaches
          rw [evalState_bin, hev, hc']
          exact ⟨c', rfl⟩
      | ok col =>
          rw [hev] at hreduced
          obtain ⟨c', hc', hcarries⟩ := hreduced
          rw [hc', ok_bind]
          exact pushBinary_reaches hcarries b
    · have hred : OperatorPrecedence.reduce levels b 1 e (.op f :: st) = (e, .op f :: st) := by
        rw [OperatorPrecedence.reduce, if_neg hle]
      have hle' : ¬f.level levels ≤ b.prec := hle
      rw [hred, if_neg hle']
      exact pushBinary_reaches h b

/-- A closed parenthesis has the strings of what is inside. -/
theorem evalState_close (e : StringTree) (st : List StringEntry) :
    evalState ⟨some (.group e), st⟩ col0 = evalState ⟨some e, .group :: st⟩ col0 := by
  cases hst : evalStack st col0 with
  | error m =>
      simp only [evalState, evalStack, hst]
      rfl
  | ok col =>
      have hgroup : evalStack (.group :: st) col0 = .ok (Function.update col (stackSize st + 1) none) := by
        rw [evalStack, hst]
        rfl
      rw [evalState_some hst, evalState_some hgroup, OperatorPrecedence.stackSize_cons,
        OperatorPrecedence.Entry.size, Nat.add_comm, evalAt]
      cases evalAt (stackSize st + 1) e (Function.update col (stackSize st + 1) none) <;> rfl

/-- The parenthesis that is closed takes the number inside and keeps the string of its entry. -/
theorem close_carries {e : StringTree} {st : List StringEntry} (h : Carries col0 c ⟨some e, .group :: st⟩) :
    Carries col0 { c with
      stack := Function.update c.stack (c.sp - 1)
        { c.stack (c.sp - 1) with op := .value, value := (c.stack c.sp).value }
      sp := c.sp - 1 } ⟨some (.group e), st⟩ := by
  obtain ⟨col, v, hcol, hv, hop, htext, hnumber⟩ := h.evaluated
  have hroom := h.room
  have hcarried := h.carried.2
  have hsize : c.sp = 1 + stackSize st := by
    have hsp := h.sp
    rw [OperatorPrecedence.stackSize_cons] at hsp
    exact hsp
  have hslot : c.sp - 1 = stackSize st := by omega
  obtain ⟨colS, hcolS, hupd⟩ := bind_eq_ok.mp hcol
  cases hupd
  rw [OperatorPrecedence.stackSize_cons, OperatorPrecedence.Entry.size, Nat.add_comm] at hv
  have hx : (c.stack c.sp).value = v.number :=
    hnumber (.inr (by rintro ⟨p, st', hst⟩; cases hst))
  refine ⟨hslot, Nat.lt_of_le_of_lt (Nat.sub_le _ _) hroom, hcarried.congr fun i hi => ?_, ?_, by rintro ⟨⟩, ?_⟩
  · exact Function.update_of_ne (by omega) _ _
  · rw [evalState_close, h.strings]
    congr 1
    funext i
    by_cases hi : i = c.sp - 1
    · simp [hi]
    · simp [hi]
  · rintro e' ⟨⟩
    have hgroup := evalAt_group hv
    rw [← hslot] at hgroup
    exact ⟨by simp, colS, _, _, hcolS, hgroup, fun _ => by simpa using hx⟩

/-- The evaluator stops with an error, at the latest when the operations of the state
have a result. -/
def Fails (col0 : Strings) (x : Eval ExprState) (s : StringState) : Prop :=
  match evalState s col0 with
  | .error m => ∃ c, x = .error ⟨m.stop, c⟩
  | .ok _ => ∃ c, x = .error ⟨.error, c⟩

/-- A closing parenthesis completes all operators up to the open one. -/
theorem exprRparen_reaches {e e' : StringTree} {stack st : List StringEntry}
    (h : Carries col0 c ⟨some e, stack⟩) (hred : OperatorPrecedence.reduceAll e stack = (e', .group :: st)) :
    Reaches col0 (exprRparen c) ⟨some (.group e'), st⟩ := by
  have hloop := reduceLoop_carries h (Nat.le_refl _)
  rw [hred] at hloop
  have h0 : c.sp ≠ 0 := by
    intro h0
    obtain ⟨hst, -⟩ | ⟨st', -, h0', -⟩ | ⟨f, st', -, h0', -⟩ := h.below
    · replace hst : stack = [] := hst
      subst hst
      cases hred
    · exact h0' h0
    · exact h0' h0
  unfold Obeys at hloop
  unfold Reaches
  rw [evalState_close]
  cases hev : evalState ⟨some e', .group :: st⟩ col0 with
  | error m =>
      rw [hev] at hloop
      obtain ⟨c', hc'⟩ := hloop
      refine ⟨c', ?_⟩
      rw [exprRparen, if_neg h0, hc']
      rfl
  | ok col =>
      rw [hev] at hloop
      obtain ⟨c', hc', hcarries⟩ := hloop
      have hroom := hcarries.room
      obtain ⟨hst, -⟩ | ⟨st', -, h1, hop⟩ | ⟨f, st', hst, -⟩ := hcarries.below
      · cases hst
      · have hclose := close_carries hcarries
        have h2 : c'.sp - 1 < 256 := by omega
        have hsize : stackSize st < 256 := by
          rw [← show c'.sp - 1 = stackSize st from hclose.sp]
          exact h2
        refine (if_pos hsize).mpr ⟨_, ?_, hclose⟩
        simp [exprRparen, h0, hc', ok_bind, h1, c'.get_of_lt h2, hop, c'.get_of_lt hroom, c'.set_of_lt h2]
      · cases hst

/-- Without an open parenthesis it is an error. -/
theorem exprRparen_fails {e e' : StringTree} {stack : List StringEntry}
    (h : Carries col0 c ⟨some e, stack⟩) (hred : OperatorPrecedence.reduceAll e stack = (e', [])) :
    Fails col0 (exprRparen c) ⟨some e', []⟩ := by
  have hloop := reduceLoop_carries h (Nat.le_refl _)
  rw [hred] at hloop
  unfold Obeys at hloop
  unfold Fails
  by_cases h0 : c.sp = 0
  · obtain ⟨hst, -⟩ | ⟨st', -, h0', -⟩ | ⟨f, st', -, h0', -⟩ := h.below
    · replace hst : stack = [] := hst
      subst hst
      cases hred
      rw [h.strings, exprRparen, if_pos h0]
      exact ⟨_, rfl⟩
    · exact absurd h0 h0'
    · exact absurd h0 h0'
  · cases hev : evalState ⟨some e', []⟩ col0 with
    | error m =>
        rw [hev] at hloop
        obtain ⟨c', hc'⟩ := hloop
        refine ⟨c', ?_⟩
        rw [exprRparen, if_neg h0, hc']
        rfl
    | ok col =>
        rw [hev] at hloop
        obtain ⟨c', hc', hcarries⟩ := hloop
        have hzero : c'.sp = 0 := hcarries.sp
        refine ⟨{ c' with errmsg := some (lit "Extra ')'") }, ?_⟩
        simp [exprRparen, h0, hc', ok_bind, hzero, ExprState.fail]

/-- Where an operand is expected. -/
theorem exprTop_reaches {st : List StringEntry} (h : Carries col0 c ⟨none, st⟩) {t : ExprToken}
    {x : StringToken} (hx : operandSymbol t = some x) {s' : StringState}
    (hstep : OperatorPrecedence.step levels 1 ⟨none, st⟩ x = some s') :
    Reaches col0 (exprTop c t) s' := by
  obtain ⟨tok, text⟩ := t
  have hroom := h.room
  have hsize : c.sp = stackSize st := h.sp
  have hoperand (a : Operand) {v : Long} (hv : NumberIs st a.meaning v) :
      Reaches col0 (c.set c.sp { op := .value, value := v, svalue := a.meaning.text }) ⟨some (.atom a), st⟩ := by
    obtain ⟨c', hc', hcarries⟩ := setOperand_carries h a hv
    unfold Reaches
    rw [hcarries.strings, hc']
    exact (if_pos (hsize ▸ hroom)).mpr ⟨c', rfl, hcarries⟩
  have hstring (text : List Byte) : NumberIs st (Operand.string text).meaning (c.stack c.sp).value := by
    rintro (hnone | hprefix)
    · cases hnone
    · exact (h.expects rfl).2 hprefix
  cases tok <;> simp only [operandSymbol, Option.some.injEq, reduceCtorEq] at hx <;> subst hx <;>
    simp only [OperatorPrecedence.step, Option.some.injEq] at hstep <;> subst hstep
  all_goals
    first
    | exact pushUnary_reaches h _
    | exact pushGroup_reaches h
    | exact hoperand (.number text) fun _ => rfl
    | exact hoperand .identifier fun _ => rfl
    | skip
  have htop : exprTop c (.string, text) =
      c.set c.sp { op := .value, value := (c.stack c.sp).value, svalue := some text } := by
    simp [exprTop, c.get_of_lt hroom, ok_bind]
  rw [htop]
  exact hoperand (.string text) (hstring text)

theorem exprTop_fails {t : ExprToken} (hskip : skipped t.1 = false) (hplus : t.1 ≠ .plus)
    (hx : operandSymbol t = none) : ∃ c', exprTop c t = .error ⟨.error, c'⟩ := by
  obtain ⟨tok, text⟩ := t
  cases tok <;>
    first
    | exact ⟨{ c with errmsg := some (lit "Syntax error") }, rfl⟩
    | exact absurd rfl hplus
    | (simp [operandSymbol] at hx; done)
    | simp [skipped] at hskip

/-- One token moves the stack as it moves the parser. -/
theorem exprStep_reaches {s s' : StringState} (h : Carries col0 c s) {t : ExprToken}
    (hs : advance s t = some s') : Reaches col0 (exprStep c t) s' := by
  obtain ⟨operand, st⟩ := s
  have hroom := h.room
  cases operand with
  | none =>
      have hexpr : exprStep c t = exprTop c t := by
        simp [exprStep, c.get_of_lt hroom, ok_bind, (h.expects rfl).1]
      simp only [advance] at hs
      rw [hexpr]
      split at hs
      · next hplus =>
          cases hs
          unfold Reaches
          rw [h.strings]
          refine (if_pos (h.sp ▸ hroom)).mpr ⟨c, ?_, h⟩
          simp [exprTop, hplus]
      · obtain ⟨x, hx, hstep⟩ := Option.bind_eq_some_iff.mp hs
        exact exprTop_reaches h hx hstep
  | some e =>
      have hexpr : exprStep c t = exprValue c t := by
        simp [exprStep, c.get_of_lt hroom, ok_bind, (h.operand e rfl).1]
      rw [hexpr, exprValue]
      obtain ⟨x, hx, hstep⟩ := Option.bind_eq_some_iff.mp hs
      cases hb : tokenBinary t.1 with
      | some b =>
          rw [operatorSymbol, hb] at hx
          cases hx
          cases hstep
          exact exprBinary_reaches h b
      | none =>
          rw [operatorSymbol, hb] at hx
          dsimp only at hx
          split at hx
          · next hparen =>
              cases hx
              simp only [hparen, if_true]
              simp only [OperatorPrecedence.step] at hstep
              split at hstep
              · next e' st' hred =>
                  cases hstep
                  exact exprRparen_reaches h hred
              · cases hstep
          · cases hx

/-- What the evaluator has to complete before it reports that a token cannot stand where
it does. -/
def atMistake (s : StringState) (t : ExprToken) : StringState := if t.1 = .rparen then settle s else s

theorem reduceAll_snd_cases (e : StringTree) (st : List StringEntry) :
    (OperatorPrecedence.reduceAll e st).2 = [] ∨ ∃ st', (OperatorPrecedence.reduceAll e st).2 = .group :: st' := by
  induction st generalizing e with
  | nil => exact .inl rfl
  | cons x st ih =>
      cases x with
      | group => exact .inr ⟨st, rfl⟩
      | op f => exact ih _

theorem exprStep_fails {s : StringState} (h : Carries col0 c s) {t : ExprToken}
    (hskip : skipped t.1 = false) (hs : advance s t = none) :
    Fails col0 (exprStep c t) (atMistake s t) := by
  obtain ⟨operand, st⟩ := s
  have hroom := h.room
  cases operand with
  | none =>
      have hexpr : exprStep c t = exprTop c t := by
        simp [exprStep, c.get_of_lt hroom, ok_bind, (h.expects rfl).1]
      have hsame : atMistake ⟨none, st⟩ t = ⟨none, st⟩ := by
        rw [atMistake]
        split <;> rfl
      simp only [advance] at hs
      unfold Fails
      rw [hexpr, hsame, h.strings]
      split at hs
      · cases hs
      · next hplus =>
          refine exprTop_fails hskip hplus ?_
          cases hx : operandSymbol t with
          | none => rfl
          | some x =>
              exfalso
              rw [hx, Option.bind_some] at hs
              obtain ⟨tok, text⟩ := t
              cases tok <;> simp only [operandSymbol, Option.some.injEq, reduceCtorEq] at hx <;> subst hx <;>
                cases hs
  | some e =>
      have hexpr : exprStep c t = exprValue c t := by
        simp [exprStep, c.get_of_lt hroom, ok_bind, (h.operand e rfl).1]
      replace hs : (operatorSymbol t).bind (OperatorPrecedence.step levels 1 ⟨some e, st⟩) = none := hs
      rw [hexpr, exprValue]
      unfold operatorSymbol at hs
      cases hb : tokenBinary t.1 with
      | some b =>
          rw [hb] at hs
          cases hs
      | none =>
          rw [hb] at hs
          by_cases hparen : t.1 = .rparen
          · simp only [hparen, if_true, Option.bind_some, OperatorPrecedence.step] at hs
            have hat : atMistake ⟨some e, st⟩ t =
                ⟨some (OperatorPrecedence.reduceAll e st).1, (OperatorPrecedence.reduceAll e st).2⟩ := by
              rw [atMistake, if_pos hparen]
              rfl
            simp only [hparen, if_true]
            rcases reduceAll_snd_cases e st with hnil | ⟨st', hgroup⟩
            · rw [hat, hnil]
              exact exprRparen_fails h (Prod.ext rfl hnil)
            · exfalso
              have hred : OperatorPrecedence.reduceAll e st =
                  ((OperatorPrecedence.reduceAll e st).1, .group :: st') := Prod.ext rfl hgroup
              rw [hred] at hs
              cases hs
          · have hat : atMistake ⟨some e, st⟩ t = ⟨some e, st⟩ := if_neg hparen
            unfold Fails
            rw [hat, h.strings]
            simp only [hparen, if_false]
            exact ⟨_, rfl⟩

/-- The end of the input: all operators are completed. -/
theorem exprFinish_ends {s : StringState} (h : Carries col0 c s) :
    (∃ e, settle s = ⟨some e, []⟩ ∧ Obeys (evalState ⟨some e, []⟩ col0) (exprFinish c)
        fun c' => Carries col0 c' ⟨some e, []⟩) ∨
      (∀ e, settle s ≠ ⟨some e, []⟩) ∧ Fails col0 (exprFinish c) (settle s) := by
  obtain ⟨operand, st⟩ := s
  have hroom := h.room
  cases operand with
  | none =>
      refine .inr ⟨by rintro _ ⟨⟩, ?_⟩
      have hfinish : exprFinish c = c.fail "Expected an expression" := by
        simp [exprFinish, c.get_of_lt hroom, ok_bind, (h.expects rfl).1]
      unfold Fails
      rw [show settle ⟨none, st⟩ = ⟨none, st⟩ from rfl, h.strings, hfinish]
      exact ⟨_, rfl⟩
  | some e =>
      have hfinish : exprFinish c = exprEnd c := by
        simp [exprFinish, c.get_of_lt hroom, ok_bind, (h.operand e rfl).1]
      have hloop := reduceLoop_carries h (Nat.le_refl _)
      have hsettle : settle ⟨some e, st⟩ =
          ⟨some (OperatorPrecedence.reduceAll e st).1, (OperatorPrecedence.reduceAll e st).2⟩ := rfl
      rw [hfinish, hsettle]
      rcases reduceAll_snd_cases e st with hnil | ⟨st', hgroup⟩
      · rw [hnil] at hloop ⊢
        refine .inl ⟨_, rfl, ?_⟩
        unfold Obeys at hloop ⊢
        cases hev : evalState ⟨some (OperatorPrecedence.reduceAll e st).1, []⟩ col0 with
        | error m =>
            rw [hev] at hloop
            obtain ⟨c', hc'⟩ := hloop
            refine ⟨c', ?_⟩
            rw [exprEnd, hc']
            rfl
        | ok col =>
            rw [hev] at hloop
            obtain ⟨c', hc', hcarries⟩ := hloop
            have hzero : c'.sp = 0 := hcarries.sp
            refine ⟨c', ?_, hcarries⟩
            simp [exprEnd, hc', ok_bind, hzero]
      · rw [hgroup] at hloop ⊢
        refine .inr ⟨by rintro _ ⟨⟩, ?_⟩
        unfold Obeys at hloop
        unfold Fails
        cases hev : evalState ⟨some (OperatorPrecedence.reduceAll e st).1, .group :: st'⟩ col0 with
        | error m =>
            rw [hev] at hloop
            obtain ⟨c', hc'⟩ := hloop
            refine ⟨c', ?_⟩
            rw [exprEnd, hc']
            rfl
        | ok col =>
            rw [hev] at hloop
            obtain ⟨c', hc', hcarries⟩ := hloop
            have hroom' := hcarries.room
            obtain ⟨hst, -⟩ | ⟨st'', hst, h1, hop⟩ | ⟨f, st'', hst, -⟩ := hcarries.below
            · cases hst
            · refine ⟨{ c' with errmsg := some (lit "Missing ')'") }, ?_⟩
              simp [exprEnd, hc', ok_bind, h1, c'.get_of_lt (show c'.sp - 1 < 256 by omega), hop,
                ExprState.fail]
            · cases hst

end Swig.Preprocessor
