import Swig.Preprocessor.ExprOutcome

/-!
Whole calls of `Preprocessor_expr`.

The tokens take the parser through a list of states. Where the evaluator ends depends on
the first of them that has an operation without a result, or does not fit the stack.
-/

namespace Swig.Preprocessor

open Swig.Lib
open OperatorPrecedence (stackSize)

variable {col0 : Strings} {c : ExprState}

/-- How a call ends. -/
inductive Ending
  | value (v : Long)
  | error
  | undefined
  | outOfBounds
  deriving DecidableEq

def Mistake.ending : Mistake → Ending
  | .mismatch => .error
  | .undefined => .undefined

/-- The ending of a run of the evaluator. No ending is a failed assertion. -/
def endingOf : Eval ExprState → Option Ending
  | .ok c => some (.value (c.stack c.sp).value)
  | .error ⟨.error, _⟩ => some .error
  | .error ⟨.undefined, _⟩ => some .undefined
  | .error ⟨.outOfBounds, _⟩ => some .outOfBounds
  | .error ⟨.assertion, _⟩ => none
  | .error ⟨.abort, _⟩ => none

/-- At the end of the tokens. -/
def endAt (col0 : Strings) (s : StringState) : Ending :=
  match settle s with
  | ⟨some e, []⟩ => match evalAt 0 e col0 with
    | .ok (v, _) => .value v.number
    | .error m => m.ending
  | s => match evalState s col0 with
    | .ok _ => .error
    | .error m => m.ending

/-- The ending, from the state of the parser on. -/
def ending (col0 : Strings) (s : StringState) : List ExprToken → Ending
  | [] => endAt col0 s
  | t :: ts =>
      if skipped t.1 then ending col0 s ts
      else if t.1 = .eof then endAt col0 s
      else match advance s t with
        | some s' => match evalState s' col0 with
          | .ok _ => if stackSize s'.stack < 256 then ending col0 s' ts else .outOfBounds
          | .error m => m.ending
        | none => match evalState (atMistake s t) col0 with
          | .ok _ => .error
          | .error m => m.ending

theorem endingOf_mistake (m : Mistake) (c : ExprState) : endingOf (.error ⟨m.stop, c⟩) = some m.ending := by
  cases m <;> rfl

theorem endingOf_fails {x : Eval ExprState} {s : StringState} (h : Fails col0 x s) :
    endingOf x = some (match evalState s col0 with
      | .ok _ => .error
      | .error m => m.ending) := by
  unfold Fails at h
  cases hs : evalState s col0 with
  | error m =>
      rw [hs] at h
      obtain ⟨c', rfl⟩ := h
      exact endingOf_mistake m c'
  | ok col =>
      rw [hs] at h
      obtain ⟨c', rfl⟩ := h
      rfl

theorem exprFinish_ending {s : StringState} (h : Carries col0 c s) :
    endingOf (exprFinish c) = some (endAt col0 s) := by
  unfold endAt
  rcases exprFinish_ends h with ⟨e, hsettle, hends⟩ | ⟨hopen, hfails⟩
  · rw [hsettle]
    have hstate : evalState ⟨some e, []⟩ col0 = (evalAt 0 e col0).map Prod.snd := evalState_some rfl
    unfold Obeys at hends
    dsimp only
    cases he : evalAt 0 e col0 with
    | error m =>
        rw [hstate, he] at hends
        obtain ⟨c', hc'⟩ := hends
        rw [hc']
        exact endingOf_mistake m c'
    | ok r =>
        rw [hstate, he] at hends
        obtain ⟨c', hc', hcarries⟩ := hends
        obtain ⟨col, v, hcol, hv, -, -, hnumber⟩ := hcarries.evaluated
        cases hcol
        obtain rfl : r = (v, fun i => (c'.stack i).svalue) := by
          have : Except.ok r = Except.ok (v, fun i => (c'.stack i).svalue) := he.symm.trans hv
          cases this
          rfl
        rw [hc', endingOf, hnumber (.inr fun ⟨p, st, hst⟩ => by cases hst)]
  · rw [endingOf_fails hfails]
    generalize settle s = s' at hopen
    obtain ⟨operand, st⟩ := s'
    cases operand with
    | none => rfl
    | some e =>
        cases st with
        | nil => exact absurd rfl (hopen e)
        | cons x st => rfl

/-- A call ends as the expression says. -/
theorem exprLoop_ending {s : StringState} (h : Carries col0 c s) (ts : List ExprToken) :
    endingOf (exprLoop c ts) = some (ending col0 s ts) := by
  induction ts generalizing c s with
  | nil => exact exprFinish_ending h
  | cons t ts ih =>
      rw [exprLoop, ending]
      split
      · exact ih h
      · next hskip =>
          split
          · exact exprFinish_ending h
          · have hskip : skipped t.1 = false := by simpa using hskip
            cases hs : advance s t with
            | none =>
                have hfails := exprStep_fails h hskip hs
                have hend := endingOf_fails hfails
                unfold Fails at hfails
                cases hev : evalState (atMistake s t) col0 with
                | error m =>
                    rw [hev] at hfails
                    obtain ⟨c', hc'⟩ := hfails
                    rw [hc']
                    exact endingOf_mistake m c'
                | ok col =>
                    rw [hev] at hfails
                    obtain ⟨c', hc'⟩ := hfails
                    rw [hc']
                    rfl
            | some s' =>
                have hreach := exprStep_reaches h hs
                unfold Reaches at hreach
                dsimp only
                cases hev : evalState s' col0 with
                | error m =>
                    rw [hev] at hreach
                    obtain ⟨c', hc'⟩ := hreach
                    rw [hc']
                    exact endingOf_mistake m c'
                | ok col =>
                    rw [hev] at hreach
                    dsimp only at hreach ⊢
                    split at hreach
                    · next hlt =>
                        obtain ⟨c', hc', hcarries⟩ := hreach
                        rw [hc', ok_bind, if_pos hlt]
                        exact ih hcarries
                    · next hge =>
                        obtain ⟨c', hc'⟩ := hreach
                        rw [hc', if_neg hge]
                        rfl

/-- The strings a call starts with. -/
def stringsOf (c : ExprState) : Strings := fun i => (c.stack i).svalue

/-- The parser before the first token. -/
def startState : StringState := ⟨none, []⟩

theorem carries_start (c : ExprState) :
    Carries (stringsOf c)
      { c with sp := 0, stack := Function.update c.stack 0 { c.stack 0 with op := .top, value := 0 } } startState := by
  refine ⟨rfl, Nat.zero_lt_succ _, trivial, ?_, fun _ => by simp, nofun⟩
  show Except.ok (stringsOf c) = _
  congr 1
  funext i
  by_cases hi : i = 0 <;> simp [hi, stringsOf]

/-- Every call ends, and never by an assertion. -/
theorem preprocessorExprLoop_ending (c : ExprState) (ts : List ExprToken) :
    endingOf (preprocessorExprLoop c ts) = some (ending (stringsOf c) startState ts) :=
  exprLoop_ending (carries_start c) ts

/-! ### The states on the way -/

/-- The states the tokens take the parser to; the last one has all operators completed
that the evaluator completes at the end of the tokens or at a token it cannot use. -/
def statesFrom (s : StringState) : List ExprToken → List StringState
  | [] => [settle s]
  | t :: ts =>
      if skipped t.1 then statesFrom s ts
      else if t.1 = .eof then [settle s]
      else match advance s t with
        | some s' => s' :: statesFrom s' ts
        | none => [atMistake s t]

def states (ts : List ExprToken) : List StringState := statesFrom startState ts

/-- No state whose operations have a result needs more than the 256 entries. -/
def Fits (col0 : Strings) (ts : List ExprToken) : Prop :=
  ∀ s ∈ states ts, (∃ col, evalState s col0 = .ok col) → stackSize s.stack < 256

/-- No state has an undefined operation in front of all type mismatches. -/
def Defined (col0 : Strings) (ts : List ExprToken) : Prop :=
  ∀ s ∈ states ts, evalState s col0 ≠ .error .undefined

/-! ### A mistake stays -/

theorem evalState_settle_error {s : StringState} {m : Mistake} (h : evalState s col0 = .error m) :
    evalState (settle s) col0 = .error m := by
  obtain ⟨operand, st⟩ := s
  cases operand with
  | none => exact h
  | some e => exact evalState_reduceAll_error h

theorem evalState_atMistake_error {s : StringState} {t : ExprToken} {m : Mistake}
    (h : evalState s col0 = .error m) : evalState (atMistake s t) col0 = .error m := by
  rw [atMistake]
  split
  · exact evalState_settle_error h
  · exact h

theorem evalState_error_stack {st : List StringEntry} {m : Mistake} (o : Option StringTree)
    (h : evalStack st col0 = .error m) : evalState ⟨o, st⟩ col0 = .error m := by
  simp only [evalState, h]
  rfl

theorem evalState_advance_error {s s' : StringState} {t : ExprToken} {m : Mistake}
    (h : evalState s col0 = .error m) (hs : advance s t = some s') : evalState s' col0 = .error m := by
  obtain ⟨operand, st⟩ := s
  cases operand with
  | none =>
      have hst : evalStack st col0 = .error m := by rw [← evalState_none]; exact h
      simp only [advance] at hs
      split at hs
      · cases hs
        exact h
      · obtain ⟨x, -, hstep⟩ := Option.bind_eq_some_iff.mp hs
        rcases OperatorPrecedence.step_cases hstep with ⟨-, ⟨a, -, rfl⟩ | ⟨-, rfl⟩ | ⟨p, -, rfl⟩⟩ | ⟨e, he, -⟩
        · exact evalState_error_stack _ hst
        · rw [evalState_group, h]
          rfl
        · rw [evalState_pre, h]
          rfl
        · cases he
  | some e =>
      obtain ⟨x, -, hstep⟩ := Option.bind_eq_some_iff.mp hs
      rcases OperatorPrecedence.step_cases hstep with ⟨hnone, -⟩ | ⟨e', he', ⟨b, -, rfl⟩ | ⟨e'', st', -, hred, rfl⟩⟩
      · cases hnone
      · cases he'
        rw [evalState_bin]
        rcases st with _ | ⟨_ | f, st⟩
        · exact h
        · exact h
        · dsimp only
          rw [OperatorPrecedence.reduce]
          split
          · rw [OperatorPrecedence.reduce]
            exact evalState_apply_error h
          · exact h
      · cases he'
        have herror := evalState_reduceAll_error h
        dsimp only at hred
        rw [hred] at herror
        rw [evalState_close]
        exact herror

theorem evalState_of_mem_statesFrom {s s' : StringState} {ts : List ExprToken} {m : Mistake}
    (h : evalState s col0 = .error m) (hs' : s' ∈ statesFrom s ts) : evalState s' col0 = .error m := by
  induction ts generalizing s with
  | nil =>
      rw [statesFrom, List.mem_singleton] at hs'
      rw [hs']
      exact evalState_settle_error h
  | cons t ts ih =>
      rw [statesFrom] at hs'
      split at hs'
      · exact ih h hs'
      · split at hs'
        · rw [List.mem_singleton] at hs'
          rw [hs']
          exact evalState_settle_error h
        · split at hs'
          · next s1 hs1 =>
              have h1 := evalState_advance_error h hs1
              rcases List.mem_cons.mp hs' with rfl | hs'
              · exact h1
              · exact ih h1 hs'
          · rw [List.mem_singleton] at hs'
            rw [hs']
            exact evalState_atMistake_error h

end Swig.Preprocessor
