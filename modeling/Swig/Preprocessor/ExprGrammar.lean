import Swig.Preprocessor.ExprLimits

/-!
Which token sequences `Preprocessor_expr` accepts.

The grammar has integers and strings: a string may only be compared with a string, by `==`
or `!=`. The evaluator reads the kind of an operand off its entry of the stack instead: a
parenthesised string has become an integer, a parenthesis on an entry that still holds a
string has become one, and neither a prefix `+` nor the end of the expression asks for the
kind.
-/

namespace Swig.Preprocessor

open Swig.Lib
open OperatorPrecedence (stackSize)

/-! ### The grammar -/

/-- The prefix operators of the grammar. -/
inductive PrefixOp
  | plus
  | op (o : UnaryOp)
  deriving DecidableEq

abbrev GrammarTree := OperatorPrecedence.Expr Operand PrefixOp BinaryOp

abbrev GrammarToken := OperatorPrecedence.Token Operand PrefixOp BinaryOp

/-- A prefix `+` binds as tight as a prefix `-`. -/
def grammarLevels : OperatorPrecedence.Levels PrefixOp BinaryOp where
  pre
    | .plus => UnaryOp.uminus.prec
    | .op o => o.prec
  bin := BinaryOp.prec

inductive Kind
  | integer
  | string
  deriving DecidableEq

def Operand.kind : Operand → Kind
  | .number _ => .integer
  | .identifier => .integer
  | .string _ => .string

/-- The kind of the result of a prefix operator. -/
def prefixKind : Kind → Option Kind
  | .integer => some .integer
  | .string => none

def BinaryOp.kind (b : BinaryOp) : Kind → Kind → Option Kind
  | .integer, .integer => some .integer
  | .string, .string => if b = .equalto ∨ b = .notequal then some .integer else none
  | _, _ => none

/-- The kind of a well-typed expression. -/
def kindOf : GrammarTree → Option Kind
  | .atom a => some a.kind
  | .group e => kindOf e
  | .pre _ e => (kindOf e).bind prefixKind
  | .bin l b r => (kindOf l).bind fun k => (kindOf r).bind (b.kind k)

def toGrammar : StringToken → GrammarToken
  | .atom a => .atom a
  | .lparen => .lparen
  | .rparen => .rparen
  | .pre p => .pre (.op p)
  | .bin b => .bin b

def grammarToken (operand : Bool) (t : ExprToken) : Option GrammarToken :=
  if operand then
    if t.1 = .plus then some (.pre .plus) else (operandSymbol t).map toGrammar
  else (operatorSymbol t).map toGrammar

/-- Whether an operand is expected behind a token. -/
def wantsOperand : GrammarToken → Bool
  | .atom _ => false
  | .rparen => false
  | .lparen => true
  | .pre _ => true
  | .bin _ => true

/-- The tokens as the grammar sees them. -/
def grammarTokens : Bool → List ExprToken → Option (List GrammarToken)
  | _, [] => some []
  | operand, t :: ts =>
      if skipped t.1 then grammarTokens operand ts
      else if t.1 = .eof then some []
      else (grammarToken operand t).bind fun x => (grammarTokens (wantsOperand x) ts).map (x :: ·)

/-- A well-formed and well-typed expression, grouped by the precedence levels. -/
def WellFormed (ts : List ExprToken) : Prop :=
  ∃ e : GrammarTree, grammarTokens true ts = some e.tokens ∧ e.Respects grammarLevels ∧
    kindOf e = some .integer

/-! ### The evaluator's reading -/

/-- The expression the tokens make up, if they do. -/
def parsedFrom (s : StringState) : List ExprToken → Option StringTree
  | [] => match settle s with
    | ⟨some e, []⟩ => some e
    | _ => none
  | t :: ts =>
      if skipped t.1 then parsedFrom s ts
      else if t.1 = .eof then
        match settle s with
        | ⟨some e, []⟩ => some e
        | _ => none
      else (advance s t).bind fun s => parsedFrom s ts

/-- The entries of the stack that hold a string. -/
abbrev Marks := ℕ → Bool

/-- The kind of an expression as it is read off entry `n`. -/
def readKind : ℕ → StringTree → Marks → Option (Kind × Marks)
  | n, .atom a, m => some (a.kind, Function.update m n (a.kind == .string))
  | n, .group e, m => do
      let (_, m) ← readKind (n + 1) e (Function.update m (n + 1) false)
      some (if m n then .string else .integer, m)
  | n, .pre _ e, m => do
      let (k, m) ← readKind (n + 1) e (Function.update m (n + 1) false)
      let k ← prefixKind k
      some (k, Function.update m n false)
  | n, .bin l b r, m => do
      let (k, m) ← readKind n l m
      let (k', m) ← readKind (n + 2) r m
      let k ← b.kind k k'
      some (k, Function.update m n false)

/-- The tokens make up an expression, and each operator finds operands it can be applied to. -/
def Readable (m : Marks) (ts : List ExprToken) : Prop :=
  ∃ e, parsedFrom startState ts = some e ∧ (readKind 0 e m).isSome

def Meaning.kind (v : Meaning) : Kind := if v.text.isSome then .string else .integer

def marks (col : Strings) : Marks := fun i => (col i).isSome

theorem marks_update (col : Strings) (n : ℕ) (x : Option (List Byte)) :
    marks (Function.update col n x) = Function.update (marks col) n x.isSome := by
  funext i
  by_cases hi : i = n
  · subst hi
    simp [marks]
  · simp [marks, hi]

theorem marks_clear (col : Strings) (n : ℕ) :
    marks (Function.update col n none) = Function.update (marks col) n false := marks_update col n none

theorem UnaryOp.meaning_kind (p : UnaryOp) (v : Meaning) :
    (∃ x, p.meaning v = .ok x ∧ prefixKind v.kind = some .integer) ∨
      p.meaning v = .error .mismatch ∧ prefixKind v.kind = none := by
  cases h : v.text with
  | none => exact .inl ⟨_, by simp [UnaryOp.meaning, h]; rfl, by simp [Meaning.kind, h, prefixKind]⟩
  | some x => exact .inr ⟨by simp [UnaryOp.meaning, h], by simp [Meaning.kind, h, prefixKind]⟩

theorem BinaryOp.meaning_kind (b : BinaryOp) (v w : Meaning) :
    (∃ x, b.meaning v w = .ok x ∧ b.kind v.kind w.kind = some .integer) ∨
      (b.meaning v w = .error .mismatch ∧ b.kind v.kind w.kind = none) ∨
        b.meaning v w = .error .undefined := by
  rcases hv : v.text with _ | x <;> rcases hw : w.text with _ | y
  · cases hb : b.apply v.number w.number with
    | none => exact .inr (.inr (by rw [meaning, hv, hw, hb]; rfl))
    | some z =>
        exact .inl ⟨z, by rw [meaning, hv, hw, hb]; rfl, by simp [Meaning.kind, hv, hw, kind]⟩
  · exact .inr (.inl ⟨by rw [meaning, hv, hw], by simp [Meaning.kind, hv, hw, kind]⟩)
  · exact .inr (.inl ⟨by rw [meaning, hv, hw], by simp [Meaning.kind, hv, hw, kind]⟩)
  · have hkind : b.kind v.kind w.kind = if b = .equalto ∨ b = .notequal then some .integer else none := by
      simp [Meaning.kind, hv, hw, kind]
    rw [hkind, meaning, hv, hw]
    by_cases hequal : b = .equalto
    · exact .inl ⟨_, if_pos hequal, by simp [hequal]⟩
    · by_cases hnotequal : b = .notequal
      · exact .inl ⟨_, by dsimp only; rw [if_neg hequal, if_pos hnotequal], by simp [hnotequal]⟩
      · refine .inr (.inl ⟨?_, by simp [hequal, hnotequal]⟩)
        dsimp only
        rw [if_neg hequal, if_neg hnotequal]

/-- What `readKind` finds is the kind of the meaning, where there is one. -/
theorem readKind_spec (n : ℕ) (e : StringTree) (col : Strings) :
    (∃ v col', evalAt n e col = .ok (v, col') ∧ readKind n e (marks col) = some (v.kind, marks col')) ∨
      (evalAt n e col = .error .mismatch ∧ readKind n e (marks col) = none) ∨
        evalAt n e col = .error .undefined := by
  induction e generalizing n col with
  | atom a =>
      refine .inl ⟨_, _, rfl, ?_⟩
      rw [readKind, marks_update]
      cases a <;> rfl
  | group e ih =>
      rw [evalAt, readKind, ← marks_clear]
      rcases ih (n + 1) (Function.update col (n + 1) none) with ⟨v, col', hv, hk⟩ | ⟨hv, hk⟩ | hv
      · refine .inl ⟨⟨v.number, col' n⟩, col', ?_, ?_⟩
        · rw [hv]
          rfl
        · rw [hk]
          rfl
      · refine .inr (.inl ⟨?_, ?_⟩)
        · rw [hv]
          rfl
        · rw [hk]
          rfl
      · refine .inr (.inr ?_)
        rw [hv]
        rfl
  | pre p e ih =>
      rw [evalAt, readKind, ← marks_clear]
      rcases ih (n + 1) (Function.update col (n + 1) none) with ⟨v, col', hv, hk⟩ | ⟨hv, hk⟩ | hv
      · rw [hv, hk]
        simp only [bind_of_ok, Option.bind_eq_bind, Option.bind_some]
        rcases p.meaning_kind v with ⟨x, hx, hkind⟩ | ⟨hx, hkind⟩
        · refine .inl ⟨⟨x, none⟩, Function.update col' n none, ?_, ?_⟩
          · rw [hx]
            rfl
          · rw [hkind, marks_clear]
            rfl
        · refine .inr (.inl ⟨?_, ?_⟩)
          · rw [hx]
            rfl
          · rw [hkind]
            rfl
      · refine .inr (.inl ⟨?_, ?_⟩)
        · rw [hv]
          rfl
        · rw [hk]
          rfl
      · refine .inr (.inr ?_)
        rw [hv]
        rfl
  | bin l b r ihl ihr =>
      rw [evalAt, readKind]
      rcases ihl n col with ⟨v, col', hv, hk⟩ | ⟨hv, hk⟩ | hv
      · rw [hv, hk]
        simp only [bind_of_ok, Option.bind_eq_bind, Option.bind_some]
        rcases ihr (n + 2) col' with ⟨w, col'', hw, hk'⟩ | ⟨hw, hk'⟩ | hw
        · rw [hw, hk']
          simp only [bind_of_ok, Option.bind_some]
          rcases b.meaning_kind v w with ⟨x, hx, hkind⟩ | ⟨hx, hkind⟩ | hx
          · refine .inl ⟨⟨x, none⟩, Function.update col'' n none, ?_, ?_⟩
            · rw [hx]
              rfl
            · rw [hkind, marks_clear]
              rfl
          · refine .inr (.inl ⟨?_, ?_⟩)
            · rw [hx]
              rfl
            · rw [hkind]
              rfl
          · refine .inr (.inr ?_)
            rw [hx]
            rfl
        · refine .inr (.inl ⟨?_, ?_⟩)
          · rw [hw]
            rfl
          · rw [hk']
            rfl
        · refine .inr (.inr ?_)
          rw [hw]
          rfl
      · refine .inr (.inl ⟨?_, ?_⟩)
        · rw [hv]
          rfl
        · rw [hk]
          rfl
      · refine .inr (.inr ?_)
        rw [hv]
        rfl

/-! ### The expression and the ending -/

theorem mem_statesFrom_of_parsedFrom {s : StringState} {ts : List ExprToken} {e : StringTree}
    (h : parsedFrom s ts = some e) : ⟨some e, []⟩ ∈ statesFrom s ts := by
  have hsettle {s : StringState} (h : (match settle s with
      | ⟨some e, []⟩ => some e
      | _ => none) = some e) : settle s = ⟨some e, []⟩ := by
    generalize settle s = s' at h
    obtain ⟨operand, st⟩ := s'
    cases operand with
    | none => cases h
    | some e' =>
        cases st with
        | nil =>
            cases h
            rfl
        | cons x st => cases h
  induction ts generalizing s with
  | nil =>
      rw [statesFrom, hsettle h]
      exact List.mem_singleton_self _
  | cons t ts ih =>
      rw [parsedFrom] at h
      rw [statesFrom]
      split at h
      · next hskip =>
          rw [if_pos hskip]
          exact ih h
      · next hskip =>
          rw [if_neg hskip]
          split at h
          · next heof =>
              rw [if_pos heof, hsettle h]
              exact List.mem_singleton_self _
          · next heof =>
              rw [if_neg heof]
              obtain ⟨s', hs', h⟩ := Option.bind_eq_some_iff.mp h
              rw [hs']
              exact List.mem_cons_of_mem _ (ih h)

variable {col0 : Strings}

theorem mistake_ending_ne (m : Mistake) (v : Long) : m.ending ≠ .value v := by
  cases m <;> nofun

/-- Where the expression is not complete, there is no value. -/
theorem incomplete_ending_ne (r : Except Mistake Strings) (v : Long) : (match r with
    | .ok _ => Ending.error
    | .error m => m.ending) ≠ .value v := by
  cases r with
  | ok col => rintro ⟨⟩
  | error m => exact mistake_ending_ne m v

/-- At the end of the tokens there is a value if they make up an expression that has one. -/
theorem endAt_eq_value_iff (s : StringState) :
    (∃ v, endAt col0 s = .value v) ↔
      ∃ e, (match settle s with
        | ⟨some e, []⟩ => some e
        | _ => none) = some e ∧ ∃ r, evalAt 0 e col0 = .ok r := by
  unfold endAt
  generalize settle s = s'
  have hother : ¬∃ e, (none : Option StringTree) = some e ∧ ∃ r, evalAt 0 e col0 = .ok r := by
    rintro ⟨e, he, -⟩
    cases he
  obtain ⟨operand, st⟩ := s'
  cases operand with
  | none => exact iff_of_false (fun hv => hv.elim (incomplete_ending_ne _)) hother
  | some e =>
      cases st with
      | cons x st => exact iff_of_false (fun hv => hv.elim (incomplete_ending_ne _)) hother
      | nil =>
          dsimp only
          simp only [Option.some.injEq, exists_eq_left']
          cases he : evalAt 0 e col0 with
          | error m =>
              refine iff_of_false (fun hv => hv.elim (mistake_ending_ne m)) ?_
              rintro ⟨r, ⟨⟩⟩
          | ok r => exact iff_of_true ⟨_, rfl⟩ ⟨r, rfl⟩

theorem ending_eq_value_iff {s : StringState} {ts : List ExprToken}
    (hfits : ∀ s' ∈ statesFrom s ts, (∃ col, evalState s' col0 = .ok col) → stackSize s'.stack < 256) :
    (∃ v, ending col0 s ts = .value v) ↔
      ∃ e, parsedFrom s ts = some e ∧ ∃ r, evalAt 0 e col0 = .ok r := by
  induction ts generalizing s with
  | nil => exact endAt_eq_value_iff s
  | cons t ts ih =>
      rw [statesFrom] at hfits
      rw [ending, parsedFrom]
      split
      · next hskip =>
          rw [if_pos hskip] at hfits
          exact ih hfits
      · next hskip =>
          rw [if_neg hskip] at hfits
          split
          · exact endAt_eq_value_iff s
          · next heof =>
              rw [if_neg heof] at hfits
              cases hs : advance s t with
              | none =>
                  dsimp only
                  refine iff_of_false (fun hv => hv.elim (incomplete_ending_ne _)) ?_
                  rintro ⟨e, he, -⟩
                  cases he
              | some s' =>
                  rw [hs] at hfits
                  dsimp only at hfits ⊢
                  rw [Option.bind_some]
                  obtain ⟨hhead, htail⟩ := List.forall_mem_cons.mp hfits
                  cases hev : evalState s' col0 with
                  | error m =>
                      refine iff_of_false (fun hv => hv.elim (mistake_ending_ne m)) ?_
                      rintro ⟨e, he, r, hr⟩
                      have hmem := evalState_of_mem_statesFrom hev (mem_statesFrom_of_parsedFrom he)
                      rw [evalState_some rfl, show stackSize ([] : List StringEntry) = 0 from rfl, hr] at hmem
                      cases hmem
                  | ok col =>
                      have hlt : stackSize s'.stack < 256 := hhead ⟨col, hev⟩
                      simp only [hlt, if_true]
                      exact ih htail

/-- Where nothing is undefined, an expression has a meaning exactly if its kinds can be read. -/
theorem evalAt_isOk_iff {e : StringTree} (hdef : evalState ⟨some e, []⟩ col0 ≠ .error .undefined) :
    (∃ r, evalAt 0 e col0 = .ok r) ↔ (readKind 0 e (marks col0)).isSome := by
  rcases readKind_spec 0 e col0 with ⟨v, col', hv, hk⟩ | ⟨hv, hk⟩ | hv
  · rw [hv, hk]
    exact iff_of_true ⟨_, rfl⟩ rfl
  · rw [hv, hk]
    exact iff_of_false nofun nofun
  · exfalso
    apply hdef
    rw [evalState_some rfl, show stackSize ([] : List StringEntry) = 0 from rfl, hv]
    rfl

/-- With room on the stack and nothing undefined, the evaluator returns, with `*error` 0 if
the kinds of the expression can be read off the stack and with 0 and `*error` 1 if not. -/
theorem preprocessorExpr_readable {c : ExprState} {ts : List ExprToken} (hfits : Fits (stringsOf c) ts)
    (hdef : Defined (stringsOf c) ts) :
    ∃ r st, preprocessorExpr c ts = some (r, st) ∧
      (Readable (marks (stringsOf c)) ts ∧ r.error = 0 ∨ ¬Readable (marks (stringsOf c)) ts ∧ r = ⟨0, 1⟩) := by
  have hend := preprocessorExprLoop_ending c ts
  have hread : Readable (marks (stringsOf c)) ts ↔ ∃ v, ending (stringsOf c) startState ts = .value v := by
    rw [ending_eq_value_iff hfits, Readable]
    refine exists_congr fun e => and_congr_right fun he => ?_
    exact (evalAt_isOk_iff (hdef _ (mem_statesFrom_of_parsedFrom he))).symm
  have hundefined : ending (stringsOf c) startState ts ≠ .undefined := by
    rw [Ne, ending_eq_undefined_iff hfits]
    rintro ⟨s, hs, hev⟩
    exact hdef s hs hev
  have hbounds : ending (stringsOf c) startState ts ≠ .outOfBounds := ending_ne_outOfBounds hfits
  rw [preprocessorExpr, hread]
  cases hloop : preprocessorExprLoop c ts with
  | ok st =>
      rw [hloop] at hend
      refine ⟨_, _, rfl, .inl ⟨⟨_, (Option.some.inj hend).symm⟩, rfl⟩⟩
  | error f =>
      obtain ⟨reason, st⟩ := f
      rw [hloop] at hend
      cases reason with
      | error =>
          refine ⟨_, _, rfl, .inr ⟨?_, rfl⟩⟩
          rw [← Option.some.inj hend]
          rintro ⟨v, ⟨⟩⟩
      | outOfBounds => exact absurd (Option.some.inj hend).symm hbounds
      | assertion => cases hend
      | undefined => exact absurd (Option.some.inj hend).symm hundefined
      | abort => cases hend

/-- Where an operation is undefined, the evaluator returns nothing. -/
theorem preprocessorExpr_eq_none {c : ExprState} {ts : List ExprToken} (hfits : Fits (stringsOf c) ts)
    (hdef : ¬Defined (stringsOf c) ts) : preprocessorExpr c ts = none := by
  rw [Defined] at hdef
  push Not at hdef
  obtain ⟨s, hs, hev⟩ := hdef
  have hend := preprocessorExprLoop_ending c ts
  rw [(ending_eq_undefined_iff hfits).mpr ⟨s, hs, hev⟩] at hend
  obtain ⟨c', hc'⟩ := reason_of_endingOf.mp hend
  rw [preprocessorExpr, hc']

theorem defined_of_mistakes {col0 : Strings} {ts : List ExprToken}
    (h : ∀ s ∈ states ts, (match evalState s col0 with
      | .ok _ => true
      | .error m => m != .undefined) = true) : Defined col0 ts := by
  intro s hs hev
  have := h s hs
  rw [hev] at this
  cases this

end Swig.Preprocessor
