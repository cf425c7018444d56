import Swig.Scanner.Lexeme
import Swig.Scanner.Rounds

/-!
A token consumes a piece of the input: blanks and then its lexeme. Every round
of `look` keeps track of what it has read, and what it gives back it has read.
-/

namespace Swig.Scanner

open LookResult LookState

/-- The lexeme read so far, compared with the text of the token. -/
def Inside (ws : List Byte) : LookState → List Byte → Scanner → Prop
  | s0, u, s => u = [] ∧ s.text = ws
  | s1000, u, s => u = [] ∧ u = s.text
  | s1, u, s => u = lit "/" ∧ u = s.text
  | s4, u, s => u = lit "%" ∧ u = s.text
  | s2, u, s => s.left = [] ∨ ∃ body, u = 34 :: body ∧ Unescaped 34 body s.text
  | s9, u, s => s.left = [] ∨ ∃ body, u = 39 :: body ∧ Unescaped 39 body s.text
  | s900, u, s => u = 96 :: s.text
  | s40, u, s => u = lit "%\x7b" ++ s.text
  | s41, u, s => ∃ code, s.text = code ++ lit "%" ∧ u = lit "%\x7b" ++ s.text
  | _, u, s => u = s.text

/-- The state reached after the mark of an exponent, `e`: the number before it
was `p.text`. -/
def AfterMark (s₀ : Scanner) (ws u : List Byte) (s : Scanner) : Prop :=
  ∃ p e l r, Nextchar p e l r s ∧ p.settle = p ∧ e ≠ chr '\n' ∧ Consumes s₀ (ws ++ p.text) p ∧
    u = p.text ++ [e]

/-- The mark `e` read last ends its string, and what follows it is no exponent. -/
def MarkCut (s : Scanner) : Prop :=
  (∃ t ts, s.scanobjs = t :: ts ∧ t.rest = []) ∧
    ∀ x ∈ s.left.head?, ¬ (isdigit x.1 || x.1 == chr '-' || x.1 == chr '+')

/-- The next token is a number with the mark of an exponent at the end of a
string and no exponent after it. -/
def CutExponent (s₀ : Scanner) : Prop :=
  ∃ st s, Rounds s₀ st s ∧ (st = s82 ∨ st = s820) ∧ MarkCut s

/-- The token `tok` was read from `s₀`. -/
def Conserved (s₀ : Scanner) (tok : Token) (s : Scanner) : Prop :=
  ∃ ws u, (∀ c ∈ ws, isspace c) ∧ Consumes s₀ (ws ++ u) s ∧ Spelled tok u s.text ∧
    (tok = .eof → s.left = [])

/-- The loop of `look` is in state `st` after the blanks `ws` and `u`. -/
structure Looking (s₀ : Scanner) (st : LookState) (ws u : List Byte) (s : Scanner) : Prop where
  blanks : ∀ c ∈ ws, isspace c
  consumes : Consumes s₀ (ws ++ u) s
  inside : Inside ws st u s
  mark : st = s82 ∨ st = s820 → AfterMark s₀ ws u s

/-- Rounds still to come: only state 0 can pass a character on. -/
def roundsLeft (st : LookState) (s : Scanner) : ℕ := s.left.length + if st = s0 then 1 else 0

/-- A round ended well: with a token, or in another state with fewer rounds to come. -/
def RoundOK (s₀ : Scanner) (n : ℕ) : Option LookResult → Prop
  | none => False
  | some (done tok s) => Conserved s₀ tok s
  | some (more st s) => (∃ ws u, Looking s₀ st ws u s) ∧ roundsLeft st s < n

variable {s₀ s s₁ : Scanner} {ws u cs : List Byte} {c : Byte} {st st' : LookState} {tok : Token} {n : ℕ}

theorem roundOK_ite {p : Prop} [Decidable p] {a b : Option LookResult} (ha : p → RoundOK s₀ n a)
    (hb : ¬ p → RoundOK s₀ n b) : RoundOK s₀ n (if p then a else b) := by
  split
  · exact ha ‹_›
  · exact hb ‹_›

/-- What reading the next character of a round brings. -/
structure Step (s₀ : Scanner) (cs : List Byte) (s : Scanner) (c : Byte) (s₁ : Scanner) : Prop where
  ended : c = 0 → Consumes s₀ cs s₁ ∧ s₁.text = s.text ∧ s₁.left = []
  none : c = 0 → s.left = []
  read : c ≠ 0 → Consumes s₀ (cs ++ [c]) s₁ ∧ s₁.text = s.text ++ [c]
  back : c ≠ 0 → s₁.retract 1 = some s.settle
  next : c ≠ 0 → ∃ l r, s.left = (c, l) :: r ∧ Nextchar s c l r s₁

theorem Consumes.step (h : Consumes s₀ cs s) (hnul : ∀ x ∈ s₀.left, x.1 ≠ 0) :
    Step s₀ cs s (nextchar s).1 (nextchar s).2 := by
  cases hleft : s.left with
  | nil =>
      obtain ⟨hnext, -⟩ := nextchar_of_left_nil hleft
      rw [hnext]
      exact ⟨fun _ => ⟨h.settle, settle_text s, (left_settle s).trans hleft⟩, fun _ => hleft,
        fun hc => absurd rfl hc, fun hc => absurd rfl hc, fun hc => absurd rfl hc⟩
  | cons x r =>
      obtain ⟨c, l⟩ := x
      obtain ⟨s₁, hs₁⟩ := exists_nextchar h.freezeLine hleft
      have hc := h.ne_zero hnul hleft
      rw [hs₁.eq]
      exact ⟨fun h0 => absurd h0 hc, fun h0 => absurd h0 hc, fun _ => ⟨h.read hs₁ hleft, hs₁.text⟩, fun _ => hs₁.back,
        fun _ => ⟨l, r, hleft, hs₁⟩⟩

/-! ### The ends of a round -/

section

variable (hblank : ∀ c ∈ ws, isspace c) (hstep : Step s₀ (ws ++ u) s c s₁)

include hblank hstep

/-- A token at the end of the input. -/
theorem Step.roundOK_end (hc : c = 0) (hspell : Spelled tok u s.text) :
    RoundOK s₀ n (some (done tok s₁)) := by
  obtain ⟨hcons, htext, hleft⟩ := hstep.ended hc
  exact ⟨ws, u, hblank, hcons, htext ▸ hspell, fun _ => hleft⟩

/-- A token that ends with the character read. -/
theorem Step.roundOK_done (hc : c ≠ 0) (htok : tok ≠ .eof)
    (hspell : Spelled tok (u ++ [c]) (s.text ++ [c])) : RoundOK s₀ n (some (done tok s₁)) := by
  obtain ⟨hcons, htext⟩ := hstep.read hc
  refine ⟨ws, u ++ [c], hblank, ?_, htext ▸ hspell, fun h => absurd h htok⟩
  rwa [← List.append_assoc]

/-- A token that ends with the character read, which is not part of its text. -/
theorem Step.roundOK_drop (hc : c ≠ 0) (htok : tok ≠ .eof) (hspell : Spelled tok (u ++ [c]) s.text) :
    RoundOK s₀ n (some (done tok s₁.dropLastText)) := by
  obtain ⟨hcons, htext⟩ := hstep.read hc
  refine ⟨ws, u ++ [c], hblank, ?_, ?_, fun h => absurd h htok⟩
  · rw [← List.append_assoc]
    exact hcons.dropLastText
  · rwa [Scanner.dropLastText, htext, List.dropLast_concat]

/-- A token that ends before the character read. -/
theorem Step.roundOK_giveBack (hc : c ≠ 0) (htok : tok ≠ .eof) (hcons : Consumes s₀ (ws ++ u) s)
    (hspell : Spelled tok u s.text) : RoundOK s₀ n (s₁.giveBack 1 tok) := by
  rw [giveBack, hstep.back hc]
  exact ⟨ws, u, hblank, hcons.settle, (settle_text s).symm ▸ hspell, fun h => absurd h htok⟩

/-- Another round. -/
theorem Step.roundOK_next {s₂ : Scanner} (hc : c ≠ 0) (hst : st ≠ s0) (hn : s.left.length ≤ n)
    (hinside : s₁.text = s.text ++ [c] → Inside ws st (u ++ [c]) s₂)
    (hmark : st = s82 ∨ st = s820 → AfterMark s₀ ws (u ++ [c]) s₂)
    (hobjs : s₂.scanobjs = s₁.scanobjs) (hline : s₂.line = s₁.line)
    (hfreeze : s₂.freezeLine = s₁.freezeLine) : RoundOK s₀ n (some (more st s₂)) := by
  obtain ⟨hcons, htext⟩ := hstep.read hc
  rw [List.append_assoc] at hcons
  obtain ⟨l, r, hleft, hnext⟩ := hstep.next hc
  refine ⟨⟨ws, u ++ [c], hblank, hcons.congr hobjs hline hfreeze, hinside htext, hmark⟩, ?_⟩
  have hleft₂ : s₂.left = s₁.left := by rw [Scanner.left, hobjs, hline, Scanner.left]
  rw [roundsLeft, if_neg hst, hleft₂, hnext.left, Nat.add_zero]
  rw [hleft, List.length_cons] at hn
  exact hn

/-- The end of the input inside a comment, a string or a block. -/
theorem Step.roundOK_error (hc : c = 0) (msg : String) :
    RoundOK s₀ n (some (done .error (s₁.swigError msg))) := by
  obtain ⟨hcons, -, -⟩ := hstep.ended hc
  exact ⟨ws, u, hblank, hcons.congr rfl rfl rfl, trivial, nofun⟩

end

/-! ### States that only collect text -/

theorem spelled_of_plain (h : plainToken tok) (u : List Byte) : Spelled tok u u := by
  cases tok <;> first | rfl | exact .inl rfl | cases h

theorem inside_of_plain (h : plainState st) (hu : u = s.text) : Inside ws st u s := by
  cases st <;> first | exact hu | cases h

/-- A round from a state in which the text is what was read. -/
structure PlainRound (s₀ : Scanner) (ws : List Byte) (n : ℕ) (s : Scanner) (c : Byte) (s₁ : Scanner) :
    Prop where
  blanks : ∀ c ∈ ws, isspace c
  consumes : Consumes s₀ (ws ++ s.text) s
  step : Step s₀ (ws ++ s.text) s c s₁
  rounds : s.left.length ≤ n

namespace PlainRound

theorem ne_eof (htok : plainToken tok) : tok ≠ .eof := by
  rintro rfl
  cases htok

variable (p : PlainRound s₀ ws n s c s₁)

include p

theorem eof (hc : c = 0) : RoundOK s₀ n (some (done .eof s₁)) := p.step.roundOK_end p.blanks hc trivial

theorem ended (tok : Token) (htok : plainToken tok) (hc : c = 0) : RoundOK s₀ n (some (done tok s₁)) :=
  p.step.roundOK_end p.blanks hc (spelled_of_plain htok _)

theorem error (msg : String) (hc : c = 0) : RoundOK s₀ n (some (done .error (s₁.swigError msg))) :=
  p.step.roundOK_error p.blanks hc msg

theorem done (hc : c ≠ 0) (tok : Token) (htok : plainToken tok) : RoundOK s₀ n (some (done tok s₁)) :=
  p.step.roundOK_done p.blanks hc (ne_eof htok) (spelled_of_plain htok _)

theorem back (hc : c ≠ 0) (tok : Token) (htok : plainToken tok) : RoundOK s₀ n (s₁.giveBack 1 tok) :=
  p.step.roundOK_giveBack p.blanks hc (ne_eof htok) p.consumes (spelled_of_plain htok _)

theorem more (hc : c ≠ 0) (st : LookState) (hst : plainState st) (hmark : ¬ (st = s82 ∨ st = s820)) :
    RoundOK s₀ n (some (more st s₁)) := by
  refine p.step.roundOK_next p.blanks hc ?_ p.rounds (fun htext => inside_of_plain hst htext.symm)
    (fun h => absurd h hmark) rfl rfl rfl
  rintro rfl
  cases hst

/-- The mark of an exponent. -/
theorem mark (hc : c ≠ 0) (he : isE c) (st : LookState) (hst : st = s82 ∨ st = s820) :
    RoundOK s₀ n (some (.more st s₁)) := by
  obtain ⟨l, r, hleft, hnext⟩ := p.step.next hc
  refine p.step.roundOK_next p.blanks hc ?_ p.rounds ?_ (fun _ => ?_) rfl rfl rfl
  · rcases hst with rfl | rfl <;> nofun
  · intro htext
    apply inside_of_plain _ htext.symm
    rcases hst with rfl | rfl <;> rfl
  · refine ⟨s.settle, c, l, r, hnext.settle, settle_settle s, ?_, ?_, ?_⟩
    · rintro rfl
      exact absurd he (by decide)
    · rw [settle_text]
      exact p.consumes.settle
    · rw [settle_text]

theorem float (hc : c ≠ 0) (hf : isF c) : RoundOK s₀ n (some (.done .float s₁.dropLastText)) :=
  p.step.roundOK_drop p.blanks hc nofun ⟨c, hf, rfl⟩

theorem double (hc : c ≠ 0) (hl : isL c) : RoundOK s₀ n (some (.done .double s₁.dropLastText)) :=
  p.step.roundOK_drop p.blanks hc nofun (.inr ⟨c, hl, rfl⟩)

/-- A round from a state that only collects text, the marks of exponents apart. -/
theorem lookStep_plain (hst : plainState st) (hexp : ¬ (st = s82 ∨ st = s820)) (hread : st ≠ s99)
    (hnext : nextchar s = (c, s₁)) : RoundOK s₀ n (lookStep st s) := by
  have hplain := plainStep_lookStep hst hexp hread hnext
  generalize lookStep st s = res at hplain
  cases hplain with
  | eof hc => exact p.eof hc
  | ended hc htok => exact p.ended _ htok hc
  | error hc msg => exact p.error msg hc
  | done hc htok => exact p.done hc _ htok
  | back hc htok => exact p.back hc _ htok
  | backDollar hc =>
      rw [p.step.back hc]
      have hback (tok : Token) (htok : plainToken tok) : RoundOK s₀ n (some (.done tok s.settle)) := by
        have := p.back hc tok htok
        rwa [giveBack, p.step.back hc] at this
      dsimp only [Option.map_some]
      split
      · exact hback .dollar rfl
      · exact hback .id rfl
  | more hc hst hmark => exact p.more hc _ hst hmark
  | mark hc he hst => exact p.mark hc he _ hst
  | float hc hf => exact p.float hc hf
  | double hc hl => exact p.double hc hl

/-- The rounds after the mark of an exponent. -/
theorem lookStep_mark (hmark : AfterMark s₀ ws s.text s) (hcut : ¬ MarkCut s) (tok : Token)
    (htok : plainToken tok) : RoundOK s₀ n (if c = 0 then s₁.giveBack 1 tok
      else if isdigit c || c == chr '-' || c == chr '+' then some (.more s86 s₁)
      else s₁.giveBack 2 tok) := by
  obtain ⟨q, e, l, r, hq, hsettle, he, hcons, -⟩ := hmark
  obtain ⟨-, t, ts, -, hobjs, -⟩ := hq.scanobjs
  refine roundOK_ite (fun hc => absurd ?_ hcut) fun hc => ?_
  · have hleft := p.step.none hc
    refine ⟨⟨t, ts, hobjs, ?_⟩, by simp [hleft]⟩
    rw [left, hobjs] at hleft
    exact numbered_eq_nil.mp (List.append_eq_nil_iff.mp hleft).1
  · refine roundOK_ite (fun _ => p.more hc s86 rfl (by decide)) fun hdigit => ?_
    obtain ⟨l', r', hleft, hnext⟩ := p.step.next hc
    have hrest : t.rest ≠ [] := fun ht => hcut ⟨⟨t, ts, hobjs, ht⟩, by simpa [hleft] using hdigit⟩
    rw [giveBack, retract_two hq hnext hsettle (settle_of_rest hobjs hrest) he]
    exact ⟨ws, q.text, p.blanks, hcons, spelled_of_plain htok _, fun h => absurd h (ne_eof htok)⟩

/-- The first character of a token. Quotes are not part of the text. -/
theorem lookStep_first (htext : s.text = []) : RoundOK s₀ n (some (lookFirst c s₁)) := by
  have hmore (hc : c ≠ 0) (st : LookState) (s₂ : Scanner) (hst : st ≠ s0)
      (hexp : ¬ (st = s82 ∨ st = s820)) (hin : s₁.text = [c] → Inside ws st [c] s₂)
      (hobjs : s₂.scanobjs = s₁.scanobjs) (hline : s₂.line = s₁.line)
      (hfreeze : s₂.freezeLine = s₁.freezeLine) : RoundOK s₀ n (some (.more st s₂)) := by
    refine p.step.roundOK_next p.blanks hc hst p.rounds (fun h => ?_) (fun h => absurd h hexp)
      hobjs hline hfreeze
    rw [htext] at h ⊢
    exact hin h
  have hfirst := firstStep_lookFirst c s₁
  generalize lookFirst c s₁ = res at hfirst
  cases hfirst with
  | eof hc => exact p.eof hc
  | done hc htok => exact p.done hc _ htok
  | more hc hst hmark => exact p.more hc _ hst hmark
  | percent h =>
      refine hmore (h ▸ by decide) s4 s₁ nofun (by decide) (fun ht => ⟨by rw [h]; rfl, ht.symm⟩) rfl rfl rfl
  | slash h =>
      refine hmore (h ▸ by decide) s1 _ nofun (by decide) (fun ht => ⟨by rw [h]; rfl, ht.symm⟩) rfl rfl rfl
  | quote h =>
      rcases h with ⟨h, rfl⟩ | ⟨h, rfl⟩ | ⟨h, rfl⟩
      · exact hmore (h ▸ by decide) s2 _ nofun (by decide) (fun _ => .inr ⟨[], by rw [h], .nil⟩) rfl rfl rfl
      · exact hmore (h ▸ by decide) s9 _ nofun (by decide) (fun _ => .inr ⟨[], by rw [h], .nil⟩) rfl rfl rfl
      · exact hmore (h ▸ by decide) s900 _ nofun (by decide) (fun _ => by rw [h]; rfl) rfl rfl rfl

/-- After a slash the text of a comment is started again, with the same mark. -/
theorem lookStep_slash (htext : s.text = lit "/") (hnext : nextchar s = (c, s₁)) :
    RoundOK s₀ n (lookStep s1 s) := by
  simp only [lookStep, hnext, reduceCtorEq, if_false]
  refine roundOK_ite p.eof fun hc => ?_
  refine roundOK_ite (fun h => ?_) fun _ => ?_
  · exact p.step.roundOK_next p.blanks hc (by rintro ⟨⟩) p.rounds (fun _ => by rw [htext, h]; rfl)
      (fun hexp => absurd hexp (by decide)) rfl rfl rfl
  refine roundOK_ite (fun h => ?_) fun _ => ?_
  · exact p.step.roundOK_next p.blanks hc (by rintro ⟨⟩) p.rounds (fun _ => by rw [htext, h]; rfl)
      (fun hexp => absurd hexp (by decide)) rfl rfl rfl
  exact roundOK_ite (fun _ => p.done hc .divequal rfl) fun _ => p.back hc .slash rfl

/-- After a percent sign the text of a block is started without its mark. -/
theorem lookStep_percent (htext : s.text = lit "%") (hnext : nextchar s = (c, s₁)) :
    RoundOK s₀ n (lookStep s4 s) := by
  simp only [lookStep, hnext, reduceCtorEq, if_false]
  refine roundOK_ite (p.ended .percent rfl) fun hc => ?_
  refine roundOK_ite (fun h => ?_) fun _ => ?_
  · exact p.step.roundOK_next p.blanks hc (by rintro ⟨⟩) p.rounds (fun _ => by rw [htext, h]; rfl)
      (fun hexp => absurd hexp (by decide)) rfl rfl rfl
  refine roundOK_ite (fun _ => p.more hc s7 rfl (by decide)) fun _ => ?_
  exact roundOK_ite (fun _ => p.done hc .modequal rfl) fun _ => p.back hc .percent rfl

end PlainRound

/-! ### The other states -/

namespace Looking

variable (hnul : ∀ x ∈ s₀.left, x.1 ≠ 0)

include hnul

/-- Blanks before the token. -/
theorem lookStep_blank (h : Looking s₀ s0 ws u s) : RoundOK s₀ (roundsLeft s0 s) (lookStep s0 s) := by
  obtain ⟨rfl, rfl⟩ := h.inside
  have hstep := h.consumes.step hnul
  obtain ⟨c, s₁, hnext⟩ : ∃ c s₁, nextchar s = (c, s₁) := ⟨_, _, rfl⟩
  rw [hnext] at hstep
  simp only [lookStep, hnext, reduceCtorEq, if_false]
  refine roundOK_ite (fun hc => hstep.roundOK_end h.blanks hc trivial) fun hc => ?_
  refine roundOK_ite (fun hnl => ?_) fun _ => ?_
  · exact hstep.roundOK_done h.blanks hc (by rintro ⟨⟩) ⟨by rw [hnl]; rfl, s.text, rfl⟩
  obtain ⟨hcons, htext⟩ := hstep.read hc
  refine roundOK_ite (fun _ => ?_) fun hspace => ?_
  · rw [hstep.back hc]
    refine ⟨⟨s.text, [], h.blanks, h.consumes.settle.congr rfl rfl rfl, ⟨rfl, rfl⟩,
      by rintro (h | h) <;> cases h⟩, ?_⟩
    show s.settle.left.length + 0 < s.left.length + 1
    rw [left_settle]
    omega
  · obtain ⟨l, r, hleft, hread⟩ := hstep.next hc
    refine ⟨⟨s.text ++ [c], [], ?_, ?_, ⟨rfl, htext⟩, by rintro (h | h) <;> cases h⟩, ?_⟩
    · simp only [List.mem_append, List.mem_singleton]
      rintro d (hd | rfl)
      · exact h.blanks d hd
      · simpa using hspace
    · rwa [List.append_nil] at hcons ⊢
    · simp [roundsLeft, hread.left, hleft]

/-- Strings and character constants. -/
theorem roundOK_quoted {q : Byte} {tok : Token} {msg : String} (h : Looking s₀ st ws u s) (hst : st ≠ s0)
    (hexp : ¬ (st = s82 ∨ st = s820)) (htok : tok ≠ .eof)
    (hin : ∀ u s, Inside ws st u s ↔ s.left = [] ∨ ∃ body, u = q :: body ∧ Unescaped q body s.text)
    (hspell : ∀ u text, Spelled tok u text ↔ ∃ body, u = q :: body ++ [q] ∧ Unescaped q body text)
    (hstep : Step s₀ (ws ++ u) s c s₁) :
    RoundOK s₀ (roundsLeft st s) (if c = 0 then some (done .error (s₁.swigError msg))
      else if c = q then some (done tok s₁.dropLastText)
      else if c = chr '\\' then (getEscape s₁.dropLastText).map (more st)
      else some (more st s₁)) := by
  refine roundOK_ite (fun hc => hstep.roundOK_error h.blanks hc msg) fun hc => ?_
  obtain ⟨hcons, htext⟩ := hstep.read hc
  obtain ⟨l, r, hleft, hread⟩ := hstep.next hc
  obtain ⟨body, rfl, hbody⟩ := ((hin u s).mp h.inside).resolve_left (by simp [hleft])
  have hdrop : s₁.dropLastText.text = s.text := by
    rw [Scanner.dropLastText, htext, List.dropLast_concat]
  refine roundOK_ite (fun hq => ?_) fun hq => ?_
  · exact hstep.roundOK_drop h.blanks hc htok ((hspell _ _).mpr ⟨body, by rw [hq], hbody⟩)
  refine roundOK_ite (fun hb => ?_) fun hb => ?_
  · obtain ⟨s₂, e, hs₂, hcons₂, htext₂⟩ := getEscape_consumes hnul hcons.dropLastText
    rw [hs₂]
    refine ⟨⟨ws, q :: body ++ chr '\\' :: e, h.blanks, ?_, ?_, fun h => absurd h hexp⟩, ?_⟩
    · rw [hb] at hcons₂
      simpa using hcons₂
    · refine (hin _ _).mpr (htext₂.imp_right ?_)
      rintro ⟨out, he, htext₂⟩
      exact ⟨body ++ chr '\\' :: e, rfl, by rw [htext₂, hdrop]; exact hbody.escape he⟩
    · have hbefore := h.consumes.length_left
      have hafter := hcons₂.length_left
      simp only [List.length_append, List.length_singleton] at hbefore hafter
      rw [roundsLeft, roundsLeft, if_neg hst]
      omega
  · refine hstep.roundOK_next h.blanks hc hst (Nat.le_add_right _ _) (fun htext => ?_)
      (fun h => absurd h hexp) rfl rfl rfl
    exact (hin _ _).mpr (.inr ⟨body ++ [c], rfl, by rw [htext]; exact hbody.char hq hb⟩)

/-- Raw strings and blocks. -/
theorem lookStep_enclosed (h : Looking s₀ st ws u s) (hst : st = s900 ∨ st = s40 ∨ st = s41) :
    RoundOK s₀ (roundsLeft st s) (lookStep st s) := by
  have hstep := h.consumes.step hnul
  obtain ⟨c, s₁, hnext⟩ : ∃ c s₁, nextchar s = (c, s₁) := ⟨_, _, rfl⟩
  rw [hnext] at hstep
  have hmore (hc : c ≠ 0) {st' : LookState} (hst' : st' = s900 ∨ st' = s40 ∨ st' = s41)
      (hin : s₁.text = s.text ++ [c] → Inside ws st' (u ++ [c]) s₁) :
      RoundOK s₀ (roundsLeft st s) (some (more st' s₁)) := by
    refine hstep.roundOK_next h.blanks hc ?_ (Nat.le_add_right _ _) hin (fun hexp => ?_) rfl rfl rfl
    · rcases hst' with rfl | rfl | rfl <;> rintro (h | h)
    · rcases hst' with rfl | rfl | rfl <;> exact absurd hexp (by decide)
  rcases hst with rfl | rfl | rfl <;> simp only [lookStep, hnext, reduceCtorEq, if_false]
  · have hu : u = 96 :: s.text := h.inside
    refine roundOK_ite (fun hc => hstep.roundOK_error h.blanks hc _) fun hc => ?_
    refine roundOK_ite (fun hq => ?_) fun _ => ?_
    · exact hstep.roundOK_drop h.blanks hc (by rintro ⟨⟩) (by rw [hq, hu]; rfl)
    · exact hmore hc (.inl rfl) fun htext => by rw [hu, Inside, htext]; rfl
  · have hu : u = lit "%\x7b" ++ s.text := h.inside
    refine roundOK_ite (fun hc => hstep.roundOK_error h.blanks hc _) fun hc => ?_
    refine roundOK_ite (fun hq => ?_) fun _ => ?_
    · exact hmore hc (.inr (.inr rfl)) fun htext => ⟨s.text, by rw [htext, hq]; rfl, by rw [hu, htext]; simp⟩
    · exact hmore hc (.inr (.inl rfl)) fun htext => by rw [hu, Inside, htext]; simp
  · obtain ⟨code, htext₀, hu⟩ := h.inside
    refine roundOK_ite (fun hc => ?_) fun hc => ?_
    · obtain ⟨hcons, -, hleft⟩ := hstep.ended hc
      exact ⟨ws, u, h.blanks, hcons.congr rfl rfl rfl, trivial, fun _ => hleft⟩
    refine roundOK_ite (fun hq => ?_) fun _ => ?_
    · obtain ⟨hcons, htext⟩ := hstep.read hc
      rw [List.append_assoc] at hcons
      refine ⟨ws, u ++ [c], h.blanks, hcons.dropLastText.dropLastText, ?_, by rintro (h | h)⟩
      have hclose : lit "%\x7d" = lit "%" ++ [chr '}'] := rfl
      have hmark : lit "%" = [chr '%'] := rfl
      rw [Scanner.dropLastText, Scanner.dropLastText, htext, List.dropLast_concat, htext₀, hu, htext₀, hq,
        hmark, List.dropLast_concat, Spelled, hclose, hmark]
      simp
    · exact hmore hc (.inr (.inl rfl)) fun htext => by rw [hu, Inside, htext]; simp

theorem roundOK (h : Looking s₀ st ws u s) (hcut : st = s82 ∨ st = s820 → ¬ MarkCut s) :
    RoundOK s₀ (roundsLeft st s) (lookStep st s) := by
  have hstep := h.consumes.step hnul
  obtain ⟨c, s₁, hnext⟩ : ∃ c s₁, nextchar s = (c, s₁) := ⟨_, _, rfl⟩
  rw [hnext] at hstep
  have hround (hu : u = s.text) : PlainRound s₀ ws (roundsLeft st s) s c s₁ :=
    ⟨h.blanks, hu ▸ h.consumes, hu ▸ hstep, Nat.le_add_right _ _⟩
  cases hplain : plainState st with
  | true =>
      have hu : u = s.text := by
        have hin := h.inside
        cases st <;> first | exact hin | cases hplain
      cases st with
      | s99 =>
          refine ⟨ws, u, h.blanks, h.consumes, hu, by rintro (h | h)⟩
      | s82 =>
          have hmark := h.mark (.inl rfl)
          subst hu
          simp only [lookStep, hnext, reduceCtorEq, if_false]
          exact (hround rfl).lookStep_mark hmark (hcut (.inl rfl)) .int rfl
      | s820 =>
          have hmark := h.mark (.inr rfl)
          subst hu
          simp only [lookStep, hnext, reduceCtorEq, if_false]
          exact (hround rfl).lookStep_mark hmark (hcut (.inr rfl)) .double rfl
      | _ => exact (hround hu).lookStep_plain hplain (by decide) (by rintro ⟨⟩) hnext
  | false =>
      cases st with
      | s0 => exact h.lookStep_blank hnul
      | s1000 =>
          obtain ⟨rfl, hu⟩ := h.inside
          simp only [lookStep, hnext, reduceCtorEq, if_false]
          exact (hround hu).lookStep_first hu.symm
      | s1 =>
          obtain ⟨hslash, hu⟩ := h.inside
          exact (hround hu).lookStep_slash (hu.symm.trans hslash) hnext
      | s4 =>
          obtain ⟨hpercent, hu⟩ := h.inside
          exact (hround hu).lookStep_percent (hu.symm.trans hpercent) hnext
      | s2 =>
          simp only [lookStep, hnext, reduceCtorEq, if_false]
          exact h.roundOK_quoted hnul (by rintro ⟨⟩) (by decide) (by rintro ⟨⟩) (fun _ _ => Iff.rfl)
            (fun _ _ => Iff.rfl) hstep
      | s9 =>
          simp only [lookStep, hnext, reduceCtorEq, if_false]
          exact h.roundOK_quoted hnul (by rintro ⟨⟩) (by decide) (by rintro ⟨⟩) (fun _ _ => Iff.rfl)
            (fun _ _ => Iff.rfl) hstep
      | s900 | s40 | s41 => exact h.lookStep_enclosed hnul (by decide)
      | _ => cases hplain

/-- The loop of `look` ends with a token. -/
theorem lookLoop (h : Looking s₀ st ws u s) (hrounds : Rounds s₀ st s) (hcut : ¬ CutExponent s₀)
    (hn : roundsLeft st s < n) :
    ∃ tok s', lookLoop n st s = some (tok, s') ∧ Conserved s₀ tok s' := by
  induction n generalizing st s ws u with
  | zero => omega
  | succ n ih =>
      have hround := h.roundOK hnul fun hst hmark => hcut ⟨st, s, hrounds, hst, hmark⟩
      rw [Scanner.lookLoop]
      cases hstep : lookStep st s with
      | none =>
          rw [hstep] at hround
          exact hround.elim
      | some res =>
          rw [hstep] at hround
          cases res with
          | done tok s' => exact ⟨tok, s', rfl, hround⟩
          | more st' s' =>
              obtain ⟨⟨ws', u', h'⟩, hlt⟩ := hround
              exact ih h' (hrounds.round hstep) (by omega)

end Looking

theorem Conserved.congr (h : Conserved s₀ tok s) (hobjs : s₁.scanobjs = s.scanobjs)
    (hline : s₁.line = s.line) (hf : s₁.freezeLine = s.freezeLine) (htext : s₁.text = s.text) :
    Conserved s₀ tok s₁ := by
  obtain ⟨ws, u, hblank, hcons, hspell, heof⟩ := h
  have hleft : s₁.left = s.left := by rw [left, hobjs, hline, left]
  exact ⟨ws, u, hblank, hcons.congr hobjs hline hf, htext ▸ hspell, fun h => hleft ▸ heof h⟩

theorem token_of_nexttoken {t : Token} (h : s.nexttoken = some t) :
    s.token = some (t, { s with nexttoken := none }) := by
  rw [token, h]

theorem token_conserved (hf : s.freezeLine = false) (hnul : ∀ x ∈ s.left, x.1 ≠ 0)
    (hcut : ¬ CutExponent s) (hnext : s.nexttoken = none) :
    ∃ tok s', s.token = some (tok, s') ∧ Conserved s tok s' := by
  have hstart : Looking s s0 [] [] { s with startLine := s.line, text := [] } :=
    ⟨fun c hc => absurd hc List.not_mem_nil, (Consumes.refl hf).congr rfl rfl rfl, ⟨rfl, rfl⟩,
      by rintro (h | h) <;> cases h⟩
  have hn : roundsLeft s0 { s with startLine := s.line, text := [] } < s.remaining + 2 := by
    rw [roundsLeft, ← length_left]
    exact Nat.lt_succ_self _
  obtain ⟨tok, s', hloop, hcons⟩ := hstart.lookLoop hnul .start hcut hn
  refine ⟨tok, { s' with textLine := if s'.startLine = 0 then s'.line else s'.startLine }, ?_,
    hcons.congr rfl rfl rfl rfl⟩
  unfold token
  split
  · rename_i t ht
    cases hnext.symm.trans ht
  · show (Scanner.lookLoop (s.remaining + 2) s0 { s with startLine := s.line, text := [] }).map _ = _
    rw [hloop]
    rfl

/-! ### Runs -/

/-- The scanners reached from a new one by pushing strings without null bytes,
pushing tokens and reading tokens, as long as no exponent is cut. -/
inductive Reachable : Scanner → Prop
  | new (idstart : List Byte) : Reachable { newScanner with idstart }
  | push {s : Scanner} {txt : Text} (h : Reachable s) (hnul : ∀ c ∈ txt.rest, c ≠ 0) :
      Reachable (s.push txt)
  | pushtoken {s : Scanner} (h : Reachable s) (nt : Token) (val : List Byte) :
      Reachable (s.pushtoken nt val)
  | token {s s' : Scanner} {tok : Token} (h : Reachable s)
      (hcut : s.nexttoken = none → ¬ CutExponent s) (ht : s.token = some (tok, s')) : Reachable s'

theorem mem_left_push {txt : Text} {x : Byte × ℤ} (hx : x ∈ (s.push txt).left) :
    x.1 ∈ txt.rest ∨ x ∈ s.left := by
  have htop : x ∈ numbered txt.line txt.rest → x.1 ∈ txt.rest := fun h => by
    rw [← map_fst_numbered txt.line txt.rest]
    exact List.mem_map_of_mem h
  rw [left, push] at hx
  rw [left]
  cases hobjs : s.scanobjs with
  | nil =>
      rw [hobjs] at hx
      exact .inl (htop (by simpa using hx))
  | cons t ts =>
      rw [hobjs] at hx
      rcases List.mem_append.mp hx with h | h
      · exact .inl (htop h)
      · exact .inr h

/-- Nothing left to read is a null byte, and the line is never frozen. -/
theorem Reachable.invariant (h : Reachable s) : s.freezeLine = false ∧ ∀ x ∈ s.left, x.1 ≠ 0 := by
  induction h with
  | new idstart => exact ⟨rfl, nofun⟩
  | push h hnul ih =>
      refine ⟨ih.1, fun x hx => ?_⟩
      rcases mem_left_push hx with hx | hx
      · exact hnul x.1 hx
      · exact ih.2 x hx
  | pushtoken h nt val ih => exact ih
  | @token s s' tok h hcut ht ih =>
      cases hnext : s.nexttoken with
      | some t =>
          cases (token_of_nexttoken hnext).symm.trans ht
          exact ih
      | none =>
          obtain ⟨tok₁, s₁, hs₁, hcons⟩ := token_conserved ih.1 ih.2 (hcut hnext) hnext
          cases hs₁.symm.trans ht
          obtain ⟨ws, u, -, hcons, -, -⟩ := hcons
          obtain ⟨done, -, hall⟩ := hcons.left
          exact ⟨hcons.freezeLine, fun x hx => ih.2 x (by rw [hall]; simp [hx])⟩

theorem nulFree_singleton {b : Byte} (hb : b ≠ 0) : ∀ c ∈ [b], c ≠ 0 := by
  rintro c hc rfl
  exact hb (List.mem_singleton.mp hc).symm

/-- A bracket at the end of a string, with another string below. -/
def bracketOverText : Scanner :=
  ({ newScanner with idstart := [] }.push { data := lit "b", sp := 0, line := 5 }).push
    { data := lit "(", sp := 0, line := 9 }

theorem Rounds.bracketOverText {st : LookState} {s : Scanner} (h : Rounds bracketOverText st s) :
    (st = s0 ∧ s = { bracketOverText with startLine := 9, text := [] }) ∨
      (st = s1000 ∧ lookStep s1000 s = some (done .lparen (nextchar s).2)) := by
  induction h with
  | start => exact .inl ⟨rfl, rfl⟩
  | round h hs ih =>
      rcases ih with ⟨rfl, rfl⟩ | ⟨rfl, hdone⟩
      · have hfirst : ∃ s', lookStep s0 { Scanner.bracketOverText with startLine := 9, text := [] } =
            some (more s1000 s') ∧ lookStep s1000 s' = some (done .lparen (nextchar s').2) := ⟨_, rfl, rfl⟩
        obtain ⟨s', hfirst, hdone⟩ := hfirst
        cases hfirst.symm.trans hs
        exact .inr ⟨rfl, hdone⟩
      · cases hdone.symm.trans hs

end Swig.Scanner
