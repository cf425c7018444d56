import Swig.Scanner.Look

/-!
What a round of `look` can do, said once for the states that only collect text and for the first
character of a token.
-/

namespace Swig.Scanner

open LookResult LookState

/-- Rounds of `look` from its start. -/
inductive Rounds (s₀ : Scanner) : LookState → Scanner → Prop
  | start : Rounds s₀ s0 { s₀ with startLine := s₀.line, text := [] }
  | round {st st' : LookState} {s s' : Scanner} (h : Rounds s₀ st s)
      (hs : lookStep st s = some (more st' s')) : Rounds s₀ st' s'

/-- Tokens spelled by their text. -/
def plainToken : Token → Bool
  | .eof | .error | .endline | .string | .char | .rstring | .codeblock | .float => false
  | _ => true

/-- States whose text is what was read. -/
def plainState : LookState → Bool
  | s0 | s1000 | s1 | s4 | s2 | s9 | s900 | s40 | s41 => false
  | _ => true

/-- What a state that only collects text does with the character `c`, which `s` has taken. -/
inductive PlainStep (c : Byte) (s : Scanner) : Option LookResult → Prop
  | eof (hc : c = 0) : PlainStep c s (some (done .eof s))
  | ended {tok : Token} (hc : c = 0) (htok : plainToken tok) : PlainStep c s (some (done tok s))
  | error (hc : c = 0) (msg : String) : PlainStep c s (some (done .error (s.swigError msg)))
  | done {tok : Token} (hc : c ≠ 0) (htok : plainToken tok) : PlainStep c s (some (done tok s))
  | back {tok : Token} (hc : c ≠ 0) (htok : plainToken tok) : PlainStep c s (s.giveBack 1 tok)
  | backDollar (hc : c ≠ 0) : PlainStep c s ((s.retract 1).map fun s =>
      .done (if s.text.length = 1 then .dollar else .id) s)
  | more {st : LookState} (hc : c ≠ 0) (hst : plainState st) (hmark : ¬(st = s82 ∨ st = s820)) :
      PlainStep c s (some (more st s))
  | mark {st : LookState} (hc : c ≠ 0) (he : isE c) (hst : st = s82 ∨ st = s820) : PlainStep c s (some (.more st s))
  | float (hc : c ≠ 0) (hf : isF c) : PlainStep c s (some (.done .float s.dropLastText))
  | double (hc : c ≠ 0) (hl : isL c) : PlainStep c s (some (.done .double s.dropLastText))

variable {c : Byte} {s s₁ : Scanner} {st : LookState} {tok : Token}

theorem plainStep_ite {p : Prop} [Decidable p] {a b : Option LookResult} (ha : p → PlainStep c s a)
    (hb : ¬p → PlainStep c s b) : PlainStep c s (if p then a else b) := by
  split
  · exact ha ‹_›
  · exact hb ‹_›

theorem plainStep_lookPair (cases : List (Byte × Token)) (htok : plainToken tok)
    (hcases : ∀ x ∈ cases, plainToken x.2) : PlainStep c s (lookPair c s tok cases) := by
  refine plainStep_ite (.ended · htok) fun hc => ?_
  cases hlookup : cases.lookup c with
  | none => exact .back hc htok
  | some tok₁ =>
      obtain ⟨l₁, l₂, hmem, -⟩ := List.lookup_eq_some_iff.mp hlookup
      exact .done hc (hcases (c, tok₁) (by simp [hmem]))

/-- A round from a state that only collects text, the marks of exponents apart. -/
theorem plainStep_lookStep (hst : plainState st) (hexp : ¬(st = s82 ∨ st = s820)) (hread : st ≠ s99)
    (hnext : nextchar s = (c, s₁)) : PlainStep c s₁ (lookStep st s) := by
  rw [lookStep, if_neg hread, hnext]
  dsimp only
  cases st with
  | s0 | s1000 | s1 | s2 | s4 | s40 | s41 | s9 | s900 => cases hst
  | s82 | s820 => exact absurd (by decide) hexp
  | s99 => exact absurd rfl hread
  | s3 | s31 | s32 | s33 | s50 | s200 | s211 | s220 | s230 | s240 | s250 => exact plainStep_lookPair _ rfl (by decide)
  | s10 =>
      refine plainStep_ite (.error · _) fun hc => ?_
      exact plainStep_ite (fun _ => .back hc rfl) fun _ => .more hc rfl (by decide)
  | s11 =>
      refine plainStep_ite (.error · _) fun hc => ?_
      exact plainStep_ite (fun _ => .more hc rfl (by decide)) fun _ => .more hc rfl (by decide)
  | s12 =>
      refine plainStep_ite (.error · _) fun hc => ?_
      refine plainStep_ite (fun _ => .more hc rfl (by decide)) fun _ => ?_
      exact plainStep_ite (fun _ => .done hc rfl) fun _ => .more hc rfl (by decide)
  | s5 | s7 =>
      refine plainStep_ite (.ended · rfl) fun hc => ?_
      exact plainStep_ite (fun _ => .more hc rfl (by decide)) fun _ => .back hc rfl
  | s60 | s61 =>
      refine plainStep_ite (.ended · rfl) fun hc => ?_
      refine plainStep_ite (fun _ => .more hc rfl (by decide)) fun _ => ?_
      exact plainStep_ite (fun _ => .done hc rfl) fun _ => .back hc rfl
  | s75 =>
      refine plainStep_ite (.ended · rfl) fun hc => ?_
      exact plainStep_ite (fun _ => .more hc rfl (by decide)) fun _ => .backDollar hc
  | s8 =>
      refine plainStep_ite (.ended · rfl) fun hc => ?_
      refine plainStep_ite (fun _ => .more hc rfl (by decide)) fun _ => ?_
      refine plainStep_ite (.mark hc · (.inl rfl)) fun _ => ?_
      refine plainStep_ite (.float hc) fun _ => ?_
      refine plainStep_ite (fun _ => .more hc rfl (by decide)) fun _ => ?_
      refine plainStep_ite (fun _ => .more hc rfl (by decide)) fun _ => ?_
      exact plainStep_ite (fun _ => .more hc rfl (by decide)) fun _ => .back hc rfl
  | s81 =>
      refine plainStep_ite (.ended · rfl) fun hc => ?_
      refine plainStep_ite (fun _ => .more hc rfl (by decide)) fun _ => ?_
      refine plainStep_ite (.mark hc · (.inr rfl)) fun _ => ?_
      refine plainStep_ite (.float hc) fun _ => ?_
      exact plainStep_ite (.double hc) fun _ => .back hc rfl
  | s83 =>
      refine plainStep_ite (.ended · rfl) fun hc => ?_
      refine plainStep_ite (fun _ => .more hc rfl (by decide)) fun _ => ?_
      refine plainStep_ite (fun _ => .more hc rfl (by decide)) fun _ => ?_
      refine plainStep_ite (fun _ => .more hc rfl (by decide)) fun _ => ?_
      refine plainStep_ite (fun _ => .more hc rfl (by decide)) fun _ => ?_
      exact plainStep_ite (fun _ => .more hc rfl (by decide)) fun _ => .back hc rfl
  | s84 | s85 =>
      refine plainStep_ite (.ended · rfl) fun hc => ?_
      refine plainStep_ite (fun _ => .more hc rfl (by decide)) fun _ => ?_
      refine plainStep_ite (fun _ => .more hc rfl (by decide)) fun _ => ?_
      exact plainStep_ite (fun _ => .more hc rfl (by decide)) fun _ => .back hc rfl
  | s86 =>
      refine plainStep_ite (.ended · rfl) fun hc => ?_
      refine plainStep_ite (fun _ => .more hc rfl (by decide)) fun _ => ?_
      refine plainStep_ite (.float hc) fun _ => ?_
      exact plainStep_ite (.double hc) fun _ => .back hc rfl
  | s87 =>
      refine plainStep_ite (.ended · rfl) fun hc => ?_
      refine plainStep_ite (fun _ => .done hc rfl) fun _ => ?_
      exact plainStep_ite (fun _ => .more hc rfl (by decide)) fun _ => .back hc rfl
  | s870 | s880 =>
      refine plainStep_ite (.ended · rfl) fun hc => ?_
      exact plainStep_ite (fun _ => .done hc rfl) fun _ => .back hc rfl
  | s88 =>
      refine plainStep_ite (.ended · rfl) fun hc => ?_
      exact plainStep_ite (fun _ => .more hc rfl (by decide)) fun _ => .back hc rfl
  | s100 =>
      refine plainStep_ite .eof fun hc => ?_
      exact plainStep_ite (fun _ => .more hc rfl (by decide)) fun _ => .back hc rfl
  | s210 =>
      refine plainStep_ite (.ended · rfl) fun hc => ?_
      refine plainStep_ite (fun _ => .done hc rfl) fun _ => ?_
      refine plainStep_ite (fun _ => .done hc rfl) fun _ => ?_
      exact plainStep_ite (fun _ => .more hc rfl (by decide)) fun _ => .back hc rfl

/-! ### The first character -/

/-- What the first character `c` of a token leads to. -/
inductive FirstStep (c : Byte) (s : Scanner) : LookResult → Prop
  | eof (hc : c = 0) : FirstStep c s (done .eof s)
  | done {tok : Token} (hc : c ≠ 0) (htok : plainToken tok) : FirstStep c s (done tok s)
  | more {st : LookState} (hc : c ≠ 0) (hst : plainState st) (hmark : ¬(st = s82 ∨ st = s820)) :
      FirstStep c s (more st s)
  | percent (hc : c = chr '%') : FirstStep c s (.more s4 s)
  | slash (hc : c = chr '/') : FirstStep c s (.more s1 { s with startLine := s.line })
  | quote {st : LookState} (hst : c = 34 ∧ st = s2 ∨ c = 39 ∧ st = s9 ∨ c = 96 ∧ st = s900) :
      FirstStep c s (.more st { s with startLine := s.line, text := [] })

theorem firstStep_ite {p : Prop} [Decidable p] {a b : LookResult} (ha : p → FirstStep c s a)
    (hb : ¬p → FirstStep c s b) : FirstStep c s (if p then a else b) := by
  split
  · exact ha ‹_›
  · exact hb ‹_›

theorem firstStep_lookFirst (c : Byte) (s : Scanner) : FirstStep c s (lookFirst c s) := by
  rw [lookFirst]
  refine firstStep_ite .eof fun hc => ?_
  refine firstStep_ite .percent fun _ => ?_
  refine firstStep_ite (fun _ => .more hc rfl (by decide)) fun _ => ?_
  refine firstStep_ite (fun _ => .done hc rfl) fun _ => ?_
  refine firstStep_ite (fun _ => .done hc rfl) fun _ => ?_
  refine firstStep_ite (fun _ => .done hc rfl) fun _ => ?_
  refine firstStep_ite (fun _ => .done hc rfl) fun _ => ?_
  refine firstStep_ite (fun _ => .more hc rfl (by decide)) fun _ => ?_
  refine firstStep_ite (fun _ => .done hc rfl) fun _ => ?_
  refine firstStep_ite (fun _ => .done hc rfl) fun _ => ?_
  refine firstStep_ite (fun _ => .more hc rfl (by decide)) fun _ => ?_
  refine firstStep_ite (fun _ => .more hc rfl (by decide)) fun _ => ?_
  refine firstStep_ite (fun _ => .more hc rfl (by decide)) fun _ => ?_
  refine firstStep_ite (fun _ => .more hc rfl (by decide)) fun _ => ?_
  refine firstStep_ite (fun _ => .more hc rfl (by decide)) fun _ => ?_
  refine firstStep_ite (fun _ => .more hc rfl (by decide)) fun _ => ?_
  refine firstStep_ite (fun _ => .more hc rfl (by decide)) fun _ => ?_
  refine firstStep_ite (fun _ => .more hc rfl (by decide)) fun _ => ?_
  refine firstStep_ite (fun _ => .done hc rfl) fun _ => ?_
  refine firstStep_ite (fun _ => .more hc rfl (by decide)) fun _ => ?_
  refine firstStep_ite (fun _ => .done hc rfl) fun _ => ?_
  refine firstStep_ite (fun _ => .done hc rfl) fun _ => ?_
  refine firstStep_ite (fun _ => .done hc rfl) fun _ => ?_
  refine firstStep_ite (fun _ => .done hc rfl) fun _ => ?_
  refine firstStep_ite (fun _ => .more hc rfl (by decide)) fun _ => ?_
  refine firstStep_ite (fun _ => .done hc rfl) fun _ => ?_
  refine firstStep_ite (fun _ => .done hc rfl) fun _ => ?_
  refine firstStep_ite .slash fun _ => ?_
  refine firstStep_ite (fun h => .quote (.inl ⟨h, rfl⟩)) fun _ => ?_
  refine firstStep_ite (fun _ => .more hc rfl (by decide)) fun _ => ?_
  refine firstStep_ite (fun _ => .more hc rfl (by decide)) fun _ => ?_
  refine firstStep_ite (fun h => .quote (.inr (.inl ⟨h, rfl⟩))) fun _ => ?_
  refine firstStep_ite (fun h => .quote (.inr (.inr ⟨h, rfl⟩))) fun _ => ?_
  refine firstStep_ite (fun _ => .more hc rfl (by decide)) fun _ => ?_
  exact firstStep_ite (fun _ => .more hc rfl (by decide)) fun _ => .more hc rfl (by decide)

end Swig.Scanner
