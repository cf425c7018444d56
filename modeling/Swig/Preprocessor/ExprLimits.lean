import Swig.Preprocessor.ExprVerdict

/-!
The limits of the evaluator: the 256 entries of its stack, which nothing checks, and
the operators whose operands it does not check.
-/

namespace Swig.Preprocessor

open Swig.Lib
open OperatorPrecedence (stackSize)

variable {col0 : Strings} {c : ExprState}

/-! ### The entries that are used -/

/-- The indices that `reduce_op` uses. -/
def reduceIndices (st : ExprState) : List ℤ :=
  (st.sp - 1 : ℤ) ::
    if st.sp = 0 ∨ (st.stack (st.sp - 1)).op ≠ .op then []
    else (st.sp : ℤ) ::
      if (st.stack st.sp).op ≠ .value ∨ (unaryOf (st.stack (st.sp - 1)).value).isSome ∨ st.sp = 1 then []
      else [(st.sp - 2 : ℤ)]

/-- The loop over `reduce_op`. -/
def loopIndices : ℕ → ExprState → List ℤ
  | 0, _ => []
  | fuel + 1, st =>
      if st.sp = 0 then []
      else (st.sp - 1 : ℤ) ::
        if (st.stack (st.sp - 1)).op = .op then
          reduceIndices st ++ match reduceOp st with
            | .ok st' => loopIndices fuel st'
            | .error _ => []
        else []

/-- The start of an operand. -/
def topIndices (st : ExprState) (t : ExprToken) : List ℤ :=
  match t.1 with
  | .int | .uint | .long | .ulong | .string | .id => [(st.sp : ℤ)]
  | .minus | .lnot | .not | .lparen => [(st.sp : ℤ), (st.sp + 1 : ℤ)]
  | _ => []

/-- The push of a binary operator and of the entry of its right operand. -/
def pushIndices (st : ExprState) : List ℤ := [(st.sp + 1 : ℤ), (st.sp + 2 : ℤ)]

def binaryIndices (st : ExprState) (o : BinaryOp) : List ℤ :=
  if st.sp = 0 then pushIndices st
  else (st.sp - 1 : ℤ) ::
    if (st.stack (st.sp - 1)).op = .group then pushIndices st
    else if (st.stack (st.sp - 1)).op ≠ .op then []
    else if precOf (st.stack (st.sp - 1)).value ≤ o.prec then
      reduceIndices st ++ match reduceOp st with
        | .ok st' => pushIndices st'
        | .error _ => []
    else pushIndices st

def rparenIndices (st : ExprState) : List ℤ :=
  if st.sp = 0 then []
  else loopIndices st.sp st ++ match reduceLoop st.sp st with
    | .ok st' =>
        if st'.sp = 0 then []
        else (st'.sp - 1 : ℤ) :: if (st'.stack (st'.sp - 1)).op ≠ .group then [] else [(st'.sp : ℤ)]
    | .error _ => []

/-- A round on a token: the entry on top, and what its kind makes of the token. -/
def stepIndices (st : ExprState) (t : ExprToken) : List ℤ :=
  (st.sp : ℤ) ::
    match (st.stack st.sp).op with
    | .top => topIndices st t
    | .value => match tokenBinary t.1 with
      | some o => binaryIndices st o
      | none => if t.1 = .rparen then rparenIndices st else []
    | _ => []

/-- The round at the end of the tokens. -/
def finishIndices (st : ExprState) : List ℤ :=
  (st.sp : ℤ) ::
    match (st.stack st.sp).op with
    | .value => loopIndices st.sp st ++ match reduceLoop st.sp st with
      | .ok st' => if st'.sp = 0 then [(st'.sp : ℤ)] else [(st'.sp - 1 : ℤ)]
      | .error _ => []
    | _ => []

def exprIndices (st : ExprState) : List ExprToken → List ℤ
  | [] => finishIndices st
  | t :: ts =>
      if skipped t.1 then exprIndices st ts
      else if t.1 = .eof then finishIndices st
      else stepIndices st t ++ match exprStep st t with
        | .ok st' => exprIndices st' ts
        | .error _ => []

/-- The indices that a call uses, up to the first outside the stack. -/
def indicesUsed (c : ExprState) (ts : List ExprToken) : List ℤ :=
  0 :: exprIndices { c with
    sp := 0
    stack := Function.update c.stack 0 { c.stack 0 with op := .top, value := 0 } } ts

def InStack (i : ℤ) : Prop := 0 ≤ i ∧ i ≤ 255

theorem inStack_of_lt {n : ℕ} (h : n < 256) : InStack n := ⟨by omega, by omega⟩

theorem reduceIndices_inStack {e : StringTree} {f : OperatorPrecedence.Frame Operand UnaryOp BinaryOp}
    {st : List StringEntry} (h : Carries col0 c ⟨some e, .op f :: st⟩) :
    ∀ i ∈ reduceIndices c, InStack i := by
  have hroom := h.room
  have hsize := h.sp
  have hcarried := h.carried
  simp only [OperatorPrecedence.stackSize_cons, OperatorPrecedence.Entry.size] at hsize
  have hpos : 0 < c.sp := by
    cases f <;> simp only [OperatorPrecedence.Frame.size] at hsize <;> omega
  have hbinary : (unaryOf (c.stack (c.sp - 1)).value).isSome = false → 2 ≤ c.sp := by
    intro hnone
    cases f with
    | pre p =>
        simp only [OperatorPrecedence.Frame.size] at hsize
        have hcode := hcarried.1.2
        rw [show stackSize st = c.sp - 1 by omega] at hcode
        rw [hcode, unaryOf_unary] at hnone
        cases hnone
    | bin l b =>
        simp only [OperatorPrecedence.Frame.size] at hsize
        omega
  intro i hi
  rw [reduceIndices] at hi
  rcases List.mem_cons.mp hi with rfl | hi
  · exact ⟨by omega, by omega⟩
  · split at hi
    · cases hi
    · rcases List.mem_cons.mp hi with rfl | hi
      · exact inStack_of_lt hroom
      · split at hi
        · cases hi
        · next hnot =>
            simp only [not_or, Bool.not_eq_true] at hnot
            have := hbinary hnot.2.1
            rw [List.mem_singleton.mp hi]
            exact ⟨by omega, by omega⟩

theorem loopIndices_inStack {e : StringTree} {stack : List StringEntry}
    (h : Carries col0 c ⟨some e, stack⟩) (fuel : ℕ) : ∀ i ∈ loopIndices fuel c, InStack i := by
  induction fuel generalizing c e stack with
  | zero => nofun
  | succ fuel ih =>
      have hroom := h.room
      intro i hi
      rw [loopIndices] at hi
      split at hi
      · cases hi
      · next hpos =>
          rcases List.mem_cons.mp hi with rfl | hi
          · exact ⟨by omega, by omega⟩
          · obtain ⟨-, h0⟩ | ⟨st, -, -, hop⟩ | ⟨f, st, hst, -, hop, -⟩ := h.below
            · exact absurd h0 hpos
            · rw [hop] at hi
              simp at hi
            · replace hst : stack = .op f :: st := hst
              subst hst
              rw [if_pos hop] at hi
              rcases List.mem_append.mp hi with hi | hi
              · exact reduceIndices_inStack h i hi
              · have hred := reduceOp_carries h
                unfold Obeys at hred
                cases hev : evalState ⟨some (f.apply e), st⟩ col0 with
                | error m =>
                    rw [hev] at hred
                    obtain ⟨c', hc'⟩ := hred
                    rw [hc'] at hi
                    cases hi
                | ok col =>
                    rw [hev] at hred
                    obtain ⟨c', hc', hcarries⟩ := hred
                    rw [hc'] at hi
                    exact ih hcarries i hi

theorem pushIndices_inStack_iff {o : Option StringTree} {st : List StringEntry} (h : Carries col0 c ⟨o, st⟩) :
    (∀ i ∈ pushIndices c, InStack i) ↔ stackSize st + 2 < 256 := by
  have hsize : c.sp = stackSize st := h.sp
  simp only [pushIndices, List.mem_cons, List.not_mem_nil, or_false, forall_eq_or_imp, forall_eq, InStack]
  omega

theorem size_bin (e : StringTree) (b : BinaryOp) (st : List StringEntry) :
    stackSize (.op (.bin e b) :: st) = stackSize st + 2 := by
  rw [OperatorPrecedence.stackSize_cons, Nat.add_comm]
  rfl

/-- Before the shift of a binary operator the entries are there; the shift takes two more. -/
theorem binaryIndices_inStack_iff {e : StringTree} {stack : List StringEntry}
    (h : Carries col0 c ⟨some e, stack⟩) (b : BinaryOp) :
    (∀ i ∈ binaryIndices c b, InStack i) ↔
      ((∃ col, evalState ⟨some (OperatorPrecedence.reduce levels b 1 e stack).1,
        (OperatorPrecedence.reduce levels b 1 e stack).2⟩ col0 = .ok col) →
          stackSize (OperatorPrecedence.reduce levels b 1 e stack).2 + 2 < 256) := by
  have hroom := h.room
  have hpush : (∀ i ∈ pushIndices c, InStack i) ↔
      ((∃ col, evalState ⟨some e, stack⟩ col0 = .ok col) → stackSize stack + 2 < 256) := by
    rw [pushIndices_inStack_iff h]
    exact ⟨fun hlt _ => hlt, fun himp => himp ⟨_, h.strings⟩⟩
  have hbelow (hpos : c.sp ≠ 0) : InStack (c.sp - 1 : ℤ) := ⟨by omega, by omega⟩
  rw [binaryIndices]
  obtain ⟨hst, h0⟩ | ⟨st, hst, h0, hop⟩ | ⟨f, st, hst, h0, hop, hprec⟩ := h.below
  · replace hst : stack = [] := hst
    subst hst
    rw [if_pos h0]
    exact hpush
  · replace hst : stack = .group :: st := hst
    subst hst
    rw [if_neg h0, if_pos hop, List.forall_mem_cons]
    exact (and_iff_right (hbelow h0)).trans hpush
  · replace hst : stack = .op f :: st := hst
    subst hst
    rw [if_neg h0, List.forall_mem_cons, and_iff_right (hbelow h0)]
    simp only [hop, hprec, reduceCtorEq, if_false, ne_eq, not_true_eq_false]
    have hlevel : f.level levels ≤ levels.bin b ↔ f.level levels ≤ b.prec := Iff.rfl
    by_cases hle : f.level levels ≤ b.prec
    · have hred : OperatorPrecedence.reduce levels b 1 e (.op f :: st) = (f.apply e, st) := by
        rw [OperatorPrecedence.reduce, if_pos (hlevel.mpr hle), OperatorPrecedence.reduce]
      rw [if_pos hle, hred, List.forall_mem_append, and_iff_right (reduceIndices_inStack h)]
      have hreduced := reduceOp_carries h
      unfold Obeys at hreduced
      cases hev : evalState ⟨some (f.apply e), st⟩ col0 with
      | error m =>
          rw [hev] at hreduced
          obtain ⟨c', hc'⟩ := hreduced
          rw [hc']
          refine iff_of_true (fun i hi => absurd hi List.not_mem_nil) ?_
          rintro ⟨col, ⟨⟩⟩
      | ok col =>
          rw [hev] at hreduced
          obtain ⟨c', hc', hcarries⟩ := hreduced
          rw [hc']
          dsimp only
          rw [pushIndices_inStack_iff hcarries]
          exact ⟨fun hlt _ => hlt, fun himp => himp ⟨col, rfl⟩⟩
    · have hred : OperatorPrecedence.reduce levels b 1 e (.op f :: st) = (e, .op f :: st) := by
        rw [OperatorPrecedence.reduce, if_neg (mt hlevel.mp hle)]
      rw [if_neg hle, hred]
      exact hpush

theorem rparenIndices_inStack {e : StringTree} {stack : List StringEntry}
    (h : Carries col0 c ⟨some e, stack⟩) : ∀ i ∈ rparenIndices c, InStack i := by
  intro i hi
  rw [rparenIndices] at hi
  split at hi
  · cases hi
  · rcases List.mem_append.mp hi with hi | hi
    · exact loopIndices_inStack h c.sp i hi
    · have hloop := reduceLoop_carries h (Nat.le_refl _)
      unfold Obeys at hloop
      cases hev : evalState ⟨some (OperatorPrecedence.reduceAll e stack).1,
          (OperatorPrecedence.reduceAll e stack).2⟩ col0 with
      | error m =>
          rw [hev] at hloop
          obtain ⟨c', hc'⟩ := hloop
          rw [hc'] at hi
          cases hi
      | ok col =>
          rw [hev] at hloop
          obtain ⟨c', hc', hcarries⟩ := hloop
          have hroom := hcarries.room
          rw [hc'] at hi
          dsimp only at hi
          split at hi
          · cases hi
          · rcases List.mem_cons.mp hi with rfl | hi
            · exact ⟨by omega, by omega⟩
            · split at hi
              · cases hi
              · rw [List.mem_singleton.mp hi]
                exact inStack_of_lt hroom

theorem finishIndices_inStack {s : StringState} (h : Carries col0 c s) : ∀ i ∈ finishIndices c, InStack i := by
  obtain ⟨operand, stack⟩ := s
  have hroom := h.room
  intro i hi
  rw [finishIndices] at hi
  rcases List.mem_cons.mp hi with rfl | hi
  · exact inStack_of_lt hroom
  · cases operand with
    | none =>
        rw [(h.expects rfl).1] at hi
        cases hi
    | some e =>
        rw [(h.operand e rfl).1] at hi
        rcases List.mem_append.mp hi with hi | hi
        · exact loopIndices_inStack h c.sp i hi
        · have hloop := reduceLoop_carries h (Nat.le_refl _)
          unfold Obeys at hloop
          cases hev : evalState ⟨some (OperatorPrecedence.reduceAll e stack).1,
              (OperatorPrecedence.reduceAll e stack).2⟩ col0 with
          | error m =>
              rw [hev] at hloop
              obtain ⟨c', hc'⟩ := hloop
              rw [hc'] at hi
              cases hi
          | ok col =>
              rw [hev] at hloop
              obtain ⟨c', hc', hcarries⟩ := hloop
              have hroom := hcarries.room
              rw [hc'] at hi
              dsimp only at hi
              split at hi
              · rw [List.mem_singleton.mp hi]
                exact inStack_of_lt hroom
              · rw [List.mem_singleton.mp hi]
                exact ⟨by omega, by omega⟩

theorem stepIndices_none {st : List StringEntry} (h : Carries col0 c ⟨none, st⟩) (t : ExprToken) :
    stepIndices c t = (c.sp : ℤ) :: topIndices c t := by
  rw [stepIndices, (h.expects rfl).1]

theorem stepIndices_some {e : StringTree} {st : List StringEntry} (h : Carries col0 c ⟨some e, st⟩)
    (t : ExprToken) : stepIndices c t = (c.sp : ℤ) :: match tokenBinary t.1 with
      | some o => binaryIndices c o
      | none => if t.1 = .rparen then rparenIndices c else [] := by
  rw [stepIndices, (h.operand e rfl).1]

/-- A round uses entries of the stack exactly if the state it leads to fits. -/
theorem stepIndices_inStack_iff {s s' : StringState} (h : Carries col0 c s) {t : ExprToken}
    (hs : advance s t = some s') :
    (∀ i ∈ stepIndices c t, InStack i) ↔
      ((∃ col, evalState s' col0 = .ok col) → stackSize s'.stack < 256) := by
  obtain ⟨operand, st⟩ := s
  have hroom := h.room
  have hsize : c.sp = stackSize st := h.sp
  cases operand with
  | none =>
      rw [stepIndices_none h, List.forall_mem_cons, and_iff_right (inStack_of_lt hroom)]
      have hstay (htop : topIndices c t = [] ∨ topIndices c t = [(c.sp : ℤ)])
          (hstack : s'.stack = st) : (∀ i ∈ topIndices c t, InStack i) ↔
            ((∃ col, evalState s' col0 = .ok col) → stackSize s'.stack < 256) := by
        refine iff_of_true ?_ fun _ => by rw [hstack, ← hsize]; exact hroom
        rcases htop with htop | htop
        · rw [htop]
          exact fun i hi => absurd hi List.not_mem_nil
        · rw [htop, List.forall_mem_singleton]
          exact inStack_of_lt hroom
      have hgrow (htop : topIndices c t = [(c.sp : ℤ), (c.sp + 1 : ℤ)])
          (hstack : stackSize s'.stack = stackSize st + 1) (hok : ∃ col, evalState s' col0 = .ok col) :
          (∀ i ∈ topIndices c t, InStack i) ↔
            ((∃ col, evalState s' col0 = .ok col) → stackSize s'.stack < 256) := by
        rw [htop, List.forall_mem_cons, and_iff_right (inStack_of_lt hroom), List.forall_mem_singleton, hstack,
          InStack]
        constructor
        · intro hin _
          omega
        · intro himp
          have := himp hok
          omega
      simp only [advance] at hs
      split at hs
      · next hplus =>
          cases hs
          exact hstay (.inl (by rw [topIndices, hplus])) rfl
      · obtain ⟨x, hx, hstep⟩ := Option.bind_eq_some_iff.mp hs
        obtain ⟨tok, text⟩ := t
        cases tok <;> simp only [operandSymbol, Option.some.injEq, reduceCtorEq] at hx <;> subst hx <;>
          cases hstep
        all_goals
          first
          | exact hstay (.inr rfl) rfl
          | (refine hgrow rfl (by rw [OperatorPrecedence.stackSize_cons, Nat.add_comm]; rfl) ?_
             first
             | exact ⟨_, by rw [evalState_pre, h.strings]; rfl⟩
             | exact ⟨_, by rw [evalState_group, h.strings]; rfl⟩)
  | some e =>
      rw [stepIndices_some h, List.forall_mem_cons, and_iff_right (inStack_of_lt hroom)]
      obtain ⟨x, hx, hstep⟩ := Option.bind_eq_some_iff.mp hs
      cases hb : tokenBinary t.1 with
      | some b =>
          rw [operatorSymbol, hb] at hx
          cases hx
          cases hstep
          dsimp only
          rw [binaryIndices_inStack_iff h, evalState_bin, size_bin]
      | none =>
          rw [operatorSymbol, hb] at hx
          dsimp only at hx
          split at hx
          · next hparen =>
              cases hx
              dsimp only
              rw [if_pos hparen]
              refine iff_of_true (rparenIndices_inStack h) ?_
              rintro ⟨col, hcol⟩
              have hreach := exprStep_reaches h hs
              unfold Reaches at hreach
              rw [hcol] at hreach
              simp only [OperatorPrecedence.step] at hstep
              split at hstep
              · next e' st' hred =>
                  cases hstep
                  have hle : stackSize st' + 1 ≤ stackSize st := by
                    have := OperatorPrecedence.stackSize_reduceAll_le e st
                    rw [hred, OperatorPrecedence.stackSize_cons] at this
                    simp only [OperatorPrecedence.Entry.size] at this
                    omega
                  dsimp only
                  omega
              · cases hstep
          · cases hx

/-- A token that cannot stand where it does uses entries of the stack only. -/
theorem stepIndices_inStack {s : StringState} (h : Carries col0 c s) {t : ExprToken}
    (hs : advance s t = none) : ∀ i ∈ stepIndices c t, InStack i := by
  obtain ⟨operand, st⟩ := s
  cases operand with
  | none =>
      rw [stepIndices_none h, List.forall_mem_cons, and_iff_right (inStack_of_lt h.room)]
      simp only [advance] at hs
      split at hs
      · cases hs
      · obtain ⟨tok, text⟩ := t
        cases tok <;>
          first
          | (cases hs; done)
          | (intro i hi; cases hi)
  | some e =>
      rw [stepIndices_some h, List.forall_mem_cons, and_iff_right (inStack_of_lt h.room)]
      cases hb : tokenBinary t.1 with
      | some b =>
          replace hs : (operatorSymbol t).bind (OperatorPrecedence.step levels 1 ⟨some e, st⟩) = none := hs
          rw [operatorSymbol, hb] at hs
          cases hs
      | none =>
          dsimp only
          split
          · exact rparenIndices_inStack h
          · exact fun i hi => absurd hi List.not_mem_nil

theorem stackSize_settle_le (s : StringState) : stackSize (settle s).stack ≤ stackSize s.stack := by
  obtain ⟨operand, st⟩ := s
  cases operand with
  | none => exact Nat.le_refl _
  | some e => exact OperatorPrecedence.stackSize_reduceAll_le e st

theorem stackSize_atMistake_le (s : StringState) (t : ExprToken) :
    stackSize (atMistake s t).stack ≤ stackSize s.stack := by
  rw [atMistake]
  split
  · exact stackSize_settle_le s
  · exact Nat.le_refl _

theorem exprIndices_inStack_iff {s : StringState} (h : Carries col0 c s) (ts : List ExprToken) :
    (∀ i ∈ exprIndices c ts, InStack i) ↔
      ∀ s' ∈ statesFrom s ts, (∃ col, evalState s' col0 = .ok col) → stackSize s'.stack < 256 := by
  induction ts generalizing c s with
  | nil =>
      refine iff_of_true (finishIndices_inStack h) ?_
      rw [statesFrom, List.forall_mem_singleton]
      exact fun _ => Nat.lt_of_le_of_lt (stackSize_settle_le s) (h.sp ▸ h.room)
  | cons t ts ih =>
      rw [exprIndices, statesFrom]
      split
      · exact ih h
      · next hskip =>
          have hskip : skipped t.1 = false := by simpa using hskip
          split
          · refine iff_of_true (finishIndices_inStack h) ?_
            rw [List.forall_mem_singleton]
            exact fun _ => Nat.lt_of_le_of_lt (stackSize_settle_le s) (h.sp ▸ h.room)
          · rw [List.forall_mem_append]
            cases hs : advance s t with
            | none =>
                have hfails := exprStep_fails h hskip hs
                unfold Fails at hfails
                have hstop : ∃ f, exprStep c t = .error f := by
                  cases hev : evalState (atMistake s t) col0 with
                  | error m =>
                      rw [hev] at hfails
                      exact ⟨_, hfails.choose_spec⟩
                  | ok col =>
                      rw [hev] at hfails
                      exact ⟨_, hfails.choose_spec⟩
                obtain ⟨f, hf⟩ := hstop
                rw [hf]
                refine iff_of_true ⟨stepIndices_inStack h hs, fun i hi => absurd hi List.not_mem_nil⟩ ?_
                rw [List.forall_mem_singleton]
                exact fun _ => Nat.lt_of_le_of_lt (stackSize_atMistake_le s t) (h.sp ▸ h.room)
            | some s' =>
                have hreach := exprStep_reaches h hs
                unfold Reaches at hreach
                rw [stepIndices_inStack_iff h hs]
                dsimp only
                rw [List.forall_mem_cons]
                cases hev : evalState s' col0 with
                | error m =>
                    rw [hev] at hreach
                    obtain ⟨c', hc'⟩ := hreach
                    rw [hc']
                    have hnone : ¬∃ col, (Except.error m : Except Mistake Strings) = .ok col := by
                      rintro ⟨col, hcol⟩
                      cases hcol
                    refine iff_of_true ⟨fun hok => absurd hok hnone, fun i hi => absurd hi List.not_mem_nil⟩
                      ⟨fun hok => absurd hok hnone, fun s'' hs'' hok => ?_⟩
                    rw [evalState_of_mem_statesFrom hev hs''] at hok
                    exact absurd hok hnone
                | ok col =>
                    rw [hev] at hreach
                    dsimp only at hreach
                    refine and_congr_right fun hlt => ?_
                    rw [if_pos (hlt ⟨col, rfl⟩)] at hreach
                    obtain ⟨c', hc', hcarries⟩ := hreach
                    rw [hc']
                    exact ih hcarries

theorem incomplete_eq_undefined_iff (r : Except Mistake Strings) : (match r with
    | .ok _ => Ending.error
    | .error m => m.ending) = .undefined ↔ r = .error .undefined := by
  have hending (m : Mistake) : m.ending = .undefined ↔ m = .undefined := by cases m <;> simp [Mistake.ending]
  cases r with
  | error m => simp [hending]
  | ok col => simp

theorem endAt_eq_undefined_iff (s : StringState) :
    endAt col0 s = .undefined ↔ evalState (settle s) col0 = .error .undefined := by
  have hending (m : Mistake) : m.ending = .undefined ↔ m = .undefined := by cases m <;> simp [Mistake.ending]
  unfold endAt
  generalize settle s = s'
  obtain ⟨operand, st⟩ := s'
  cases operand with
  | none => exact incomplete_eq_undefined_iff _
  | some e =>
      cases st with
      | cons x st => exact incomplete_eq_undefined_iff _
      | nil =>
          have hstate : evalState ⟨some e, []⟩ col0 = (evalAt 0 e col0).map Prod.snd := evalState_some rfl
          rw [hstate]
          dsimp only
          cases evalAt 0 e col0 with
          | error m => simp [hending, Except.map]
          | ok r => simp [Except.map]

theorem ending_eq_undefined_iff {s : StringState} {ts : List ExprToken}
    (hfits : ∀ s' ∈ statesFrom s ts, (∃ col, evalState s' col0 = .ok col) → stackSize s'.stack < 256) :
    ending col0 s ts = .undefined ↔ ∃ s' ∈ statesFrom s ts, evalState s' col0 = .error .undefined := by
  have hending (m : Mistake) : m.ending = .undefined ↔ m = .undefined := by cases m <;> simp [Mistake.ending]
  induction ts generalizing s with
  | nil =>
      rw [ending, endAt_eq_undefined_iff, statesFrom]
      simp
  | cons t ts ih =>
      rw [statesFrom] at hfits ⊢
      rw [ending]
      split
      · next hskip =>
          rw [if_pos hskip] at hfits
          exact ih hfits
      · next hskip =>
          rw [if_neg hskip] at hfits
          split
          · rw [endAt_eq_undefined_iff]
            simp
          · next heof =>
              rw [if_neg heof] at hfits
              cases hs : advance s t with
              | none =>
                  dsimp only
                  simp only [List.mem_singleton, exists_eq_left]
                  cases evalState (atMistake s t) col0 with
                  | error m => simp [hending]
                  | ok col => simp
              | some s' =>
                  rw [hs] at hfits
                  dsimp only at hfits ⊢
                  obtain ⟨hhead, htail⟩ := List.forall_mem_cons.mp hfits
                  simp only [List.exists_mem_cons_iff]
                  cases hev : evalState s' col0 with
                  | error m =>
                      simp only [hending, Except.error.injEq]
                      constructor
                      · exact .inl
                      · rintro (hm | ⟨s'', hs'', hm⟩)
                        · exact hm
                        · rw [evalState_of_mem_statesFrom hev hs''] at hm
                          cases hm
                          rfl
                  | ok col =>
                      have hlt : stackSize s'.stack < 256 := hhead ⟨col, hev⟩
                      simp only [hlt, if_true, ih htail, reduceCtorEq, false_or]

theorem mistake_ending_ne_outOfBounds (m : Mistake) : m.ending ≠ .outOfBounds := by
  cases m <;> nofun

theorem endAt_ne_outOfBounds (s : StringState) : endAt col0 s ≠ .outOfBounds := by
  unfold endAt
  split
  · split
    · nofun
    · exact mistake_ending_ne_outOfBounds _
  · split
    · nofun
    · exact mistake_ending_ne_outOfBounds _

/-- A call whose states fit the stack does not leave it. -/
theorem ending_ne_outOfBounds {s : StringState} {ts : List ExprToken}
    (hfits : ∀ s' ∈ statesFrom s ts, (∃ col, evalState s' col0 = .ok col) → stackSize s'.stack < 256) :
    ending col0 s ts ≠ .outOfBounds := by
  induction ts generalizing s with
  | nil => exact endAt_ne_outOfBounds s
  | cons t ts ih =>
      rw [statesFrom] at hfits
      rw [ending]
      split
      · next hskip =>
          rw [if_pos hskip] at hfits
          exact ih hfits
      · next hskip =>
          rw [if_neg hskip] at hfits
          split
          · exact endAt_ne_outOfBounds s
          · next heof =>
              rw [if_neg heof] at hfits
              cases hs : advance s t with
              | none =>
                  dsimp only
                  split
                  · rintro ⟨⟩
                  · exact mistake_ending_ne_outOfBounds _
              | some s' =>
                  rw [hs] at hfits
                  dsimp only at hfits ⊢
                  obtain ⟨hhead, htail⟩ := List.forall_mem_cons.mp hfits
                  cases hev : evalState s' col0 with
                  | error m => exact mistake_ending_ne_outOfBounds m
                  | ok col =>
                      have hlt : stackSize s'.stack < 256 := hhead ⟨col, hev⟩
                      simp only [hlt, if_true]
                      exact ih htail

theorem reason_of_endingOf {x : Eval ExprState} : endingOf x = some .undefined ↔ ∃ c, x = .error ⟨.undefined, c⟩ := by
  cases x with
  | ok c => simp [endingOf]
  | error f =>
      obtain ⟨reason, c⟩ := f
      cases reason <;> simp [endingOf]

/-- The operations that C leaves undefined: division by 0 and of the least number by -1, and
shifts by a negative count or by 64 and more. -/
theorem apply_eq_none_iff (b : BinaryOp) (x y : Long) :
    b.apply x y = none ↔
      ((b = .slash ∨ b = .percent) ∧ (y = 0 ∨ (x = BitVec.intMin 64 ∧ y = -1))) ∨
        ((b = .lshift ∨ b = .rshift) ∧ (y.toInt < 0 ∨ 64 ≤ y.toInt)) := by
  have hshift : ¬ y.toNat < 64 ↔ y.toInt < 0 ∨ 64 ≤ y.toInt := by
    rw [BitVec.toInt_eq_toNat_cond]
    have := y.isLt
    split <;> omega
  cases b <;> simp [BinaryOp.apply, hshift, ← or_iff_not_imp_left]

end Swig.Preprocessor
