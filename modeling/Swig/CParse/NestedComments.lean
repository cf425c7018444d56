import Swig.DOH.CType
import Mathlib.Tactic.Common

/-!
`strip_comments` (`parser.y`), which blanks the comments in the text of a nested class.
-/

namespace Swig.CParse.Nested

/-! ### The automaton -/

/-- The states 0 to 6 of the source. -/
inductive State
  | outside
  | cComment
  | cppComment
  | string
  | slash
  | star
  | backslash
  deriving DecidableEq

/-- The loop from `c` on; `done` is the text in front of it, its last byte first. -/
def stripLoop : State → (done : List Byte) → List Byte → List Byte
  | _, done, [] => done.reverse
  | .outside, done, c :: s =>
      stripLoop (if c = chr '"' then .string else if c = chr '/' then .slash else .outside) (c :: done) s
  | .cComment, done, c :: s => stripLoop (if c = chr '*' then .star else .cComment) (chr ' ' :: done) s
  | .cppComment, done, c :: s =>
      if c = chr '\n' then stripLoop .outside (c :: done) s else stripLoop .cppComment (chr ' ' :: done) s
  | .string, done, c :: s =>
      stripLoop (if c = chr '"' then .outside else if c = chr '\\' then .backslash else .string) (c :: done) s
  | .slash, done, c :: s =>
      -- `*(c-1)` is the slash
      if c = chr '/' then stripLoop .cppComment (chr ' ' :: done.set 0 (chr ' ')) s
      else if c = chr '*' then stripLoop .cComment (chr ' ' :: done.set 0 (chr ' ')) s
      else stripLoop .outside (c :: done) s
  | .star, done, c :: s => stripLoop (if c = chr '/' then .outside else .cComment) (chr ' ' :: done) s
  | .backslash, done, c :: s => stripLoop .string (c :: done) s

/-- `strip_comments`, on the bytes of a C string. -/
def stripComments (string : List Byte) : List Byte := stripLoop .outside [] string

/-! ### Comments and literals -/

/-- Where a byte stands: in a comment from its second byte on, at the slash that ends one, or in a
literal between the quotes. -/
inductive Mode
  | code
  | opened
  | comment
  | closing
  | line
  | literal (quote : Byte)
  | escaped (quote : Byte)
  deriving DecidableEq

namespace Mode

/-- Behind the byte `c`, with `next` the byte that follows it. -/
def step : Mode → (c : Byte) → (next : Option Byte) → Mode
  | code, c, next =>
      if c = chr '/' ∧ next = some (chr '*') then opened
      else if c = chr '/' ∧ next = some (chr '/') then line
      else if c = chr '"' ∨ c = chr '\'' then literal c
      else code
  | opened, _, _ => comment
  | comment, c, next => if c = chr '*' ∧ next = some (chr '/') then closing else comment
  | closing, _, _ => code
  | line, c, _ => if c = chr '\n' then code else line
  | literal quote, c, _ => if c = quote then code else if c = chr '\\' then escaped quote else literal quote
  | escaped quote, _, _ => literal quote

/-- The byte belongs to a comment. -/
def blanks : Mode → (c : Byte) → (next : Option Byte) → Bool
  | code, c, next => c == chr '/' && (next == some (chr '*') || next == some (chr '/'))
  | line, c, _ => c != chr '\n'
  | literal _, _, _ => false
  | escaped _, _, _ => false
  | _, _, _ => true

/-- The byte belongs to a literal, its quotes included. -/
def isLiteral : Mode → (c : Byte) → Bool
  | code, c => c == chr '"' || c == chr '\''
  | literal _, _ => true
  | escaped _, _ => true
  | _, _ => false

end Mode

/-- A byte of a text without comments, and whether it belongs to a literal. -/
abbrev Mark := Byte × Bool

def blank : Mark := (chr ' ', false)

/-- The text with its comments blanked. -/
def lexed : Mode → List Byte → List Mark
  | _, [] => []
  | m, c :: s => (if m.blanks c s.head? then blank else (c, m.isLiteral c)) :: lexed (m.step c s.head?) s

/-- The bytes of a marked text. -/
def bytes (ms : List Mark) : List Byte := ms.map Prod.fst

/-- What the automaton does not know: a string literal directly behind a slash, a character literal
with a double quote or the beginning of a comment in it, and an even number of asterisks at the end
of a comment. `odd` says that an odd number of asterisks stands in front of the byte. -/
def Mode.knows (odd : Bool) : Mode → (c : Byte) → (next : Option Byte) → Prop
  | code, c, next => ¬(c = chr '/' ∧ next = some (chr '"'))
  | comment, c, next => c = chr '*' ∧ next = some (chr '/') → odd = false
  | literal quote, c, next =>
      quote = chr '\'' → c ≠ chr '"' ∧ ¬(c = chr '/' ∧ (next = some (chr '*') ∨ next = some (chr '/')))
  | escaped quote, c, next =>
      quote = chr '\'' → c ≠ chr '"' ∧ ¬(c = chr '/' ∧ (next = some (chr '*') ∨ next = some (chr '/')))
  | _, _, _ => True

def Known : Mode → Bool → List Byte → Prop
  | _, _, [] => True
  | m, odd, c :: s =>
      m.knows odd c s.head? ∧ Known (m.step c s.head?) (m == .comment && c == chr '*' && !odd) s

instance (odd : Bool) (m : Mode) (c : Byte) (next : Option Byte) : Decidable (m.knows odd c next) := by
  cases m <;> unfold Mode.knows <;> infer_instance

instance decidableKnown : ∀ (m : Mode) (odd : Bool) (s : List Byte), Decidable (Known m odd s)
  | _, _, [] => inferInstanceAs (Decidable True)
  | _, _, _ :: s => @instDecidableAnd _ _ _ (decidableKnown _ _ s)

variable {m : Mode} {s done : List Byte} {c d : Byte} {odd : Bool}

/-! ### The rounds of the automaton -/

theorem stripLoop_append (st : State) (done front s : List Byte) (h : st = .slash → done ≠ []) :
    stripLoop st (done ++ front) s = front.reverse ++ stripLoop st done s := by
  induction s generalizing st done with
  | nil => rw [stripLoop, stripLoop, List.reverse_append]
  | cons c s ih =>
      have hcons (st : State) (c : Byte) :
          stripLoop st (c :: (done ++ front)) s = front.reverse ++ stripLoop st (c :: done) s :=
        ih st (c :: done) fun _ => List.cons_ne_nil _ _
      cases st with
      | outside => exact hcons _ _
      | cComment => exact hcons _ _
      | cppComment =>
          rw [stripLoop, stripLoop]
          split <;> exact hcons _ _
      | string => exact hcons _ _
      | slash =>
          obtain ⟨d, done, rfl⟩ := List.exists_cons_of_ne_nil (h rfl)
          rw [stripLoop, stripLoop]
          split
          · exact ih _ (chr ' ' :: chr ' ' :: done) fun _ => List.cons_ne_nil _ _
          · split
            · exact ih _ (chr ' ' :: chr ' ' :: done) fun _ => List.cons_ne_nil _ _
            · exact hcons _ _
      | star => exact hcons _ _
      | backslash => exact hcons _ _

/-- The text that the loop leaves from here on. -/
def left (st : State) (s : List Byte) : List Byte := stripLoop st [] s

theorem stripLoop_cons {st : State} (c : Byte) (h : st ≠ .slash) : stripLoop st [c] s = c :: left st s :=
  stripLoop_append st [] [c] s fun hst => absurd hst h

theorem left_outside (hquote : c ≠ chr '"') (hslash : c ≠ chr '/') : left .outside (c :: s) = c :: left .outside s := by
  rw [left, stripLoop, if_neg hquote, if_neg hslash]
  exact stripLoop_cons c nofun

theorem left_quote (s : List Byte) : left .outside (chr '"' :: s) = chr '"' :: left .string s :=
  stripLoop_cons _ nofun

/-- A slash that begins no comment. -/
theorem left_slash (hstar : s.head? ≠ some (chr '*')) (hslash : s.head? ≠ some (chr '/'))
    (hquote : s.head? ≠ some (chr '"')) : left .outside (chr '/' :: s) = chr '/' :: left .outside s := by
  have hstart : left .outside (chr '/' :: s) = stripLoop .slash [chr '/'] s := rfl
  rw [hstart]
  cases s with
  | nil => rfl
  | cons d s =>
      have hd₁ : d ≠ chr '*' := fun h => hstar (congrArg some h)
      have hd₂ : d ≠ chr '/' := fun h => hslash (congrArg some h)
      have hd₃ : d ≠ chr '"' := fun h => hquote (congrArg some h)
      rw [stripLoop, if_neg hd₂, if_neg hd₁, left_outside hd₃ hd₂]
      exact stripLoop_append .outside [d] [chr '/'] s nofun |>.trans (congrArg _ (stripLoop_cons d nofun))

theorem left_open (s : List Byte) : left .outside (chr '/' :: chr '*' :: s) = chr ' ' :: chr ' ' :: left .cComment s :=
  stripLoop_append .cComment [] [chr ' ', chr ' '] s nofun

theorem left_line (s : List Byte) :
    left .outside (chr '/' :: chr '/' :: s) = chr ' ' :: chr ' ' :: left .cppComment s :=
  stripLoop_append .cppComment [] [chr ' ', chr ' '] s nofun

theorem left_cComment (c : Byte) (s : List Byte) :
    left .cComment (c :: s) = chr ' ' :: left (if c = chr '*' then .star else .cComment) s :=
  stripLoop_cons _ (by split <;> exact nofun)

theorem left_star (c : Byte) (s : List Byte) :
    left .star (c :: s) = chr ' ' :: left (if c = chr '/' then .outside else .cComment) s :=
  stripLoop_cons _ (by split <;> exact nofun)

theorem left_cppComment (hc : c ≠ chr '\n') : left .cppComment (c :: s) = chr ' ' :: left .cppComment s := by
  rw [left, stripLoop, if_neg hc]
  exact stripLoop_cons _ nofun

theorem left_newline (s : List Byte) : left .cppComment (chr '\n' :: s) = chr '\n' :: left .outside s :=
  stripLoop_cons _ nofun

theorem left_string (c : Byte) (s : List Byte) : left .string (c :: s) =
    c :: left (if c = chr '"' then .outside else if c = chr '\\' then .backslash else .string) s :=
  stripLoop_cons _ (by split <;> [exact nofun; (split <;> exact nofun)])

theorem left_backslash (c : Byte) (s : List Byte) : left .backslash (c :: s) = c :: left .string s :=
  stripLoop_cons _ nofun

/-! ### The automaton in step -/

namespace Mode

/-- The state of the automaton. -/
def state (odd : Bool) : Mode → State
  | code => .outside
  | opened => .star
  | comment => if odd then .star else .cComment
  | closing => .star
  | line => .cppComment
  | literal quote => if quote = chr '"' then .string else .outside
  | escaped quote => if quote = chr '"' then .backslash else .outside

/-- What the mode says of the next byte. -/
def Fits (odd : Bool) : Mode → Option Byte → Prop
  | opened, next => next = some (chr '*')
  | comment, next => odd = true → next ≠ some (chr '/')
  | closing, next => next = some (chr '/')
  | literal quote, _ => quote = chr '"' ∨ quote = chr '\''
  | escaped quote, _ => quote = chr '"' ∨ quote = chr '\''
  | _, _ => True

end Mode

/-- A byte of a character literal. -/
theorem left_character (hquote : c ≠ chr '"')
    (hopen : ¬(c = chr '/' ∧ (s.head? = some (chr '*') ∨ s.head? = some (chr '/'))))
    (hnext : c = chr '/' → s.head? ≠ some (chr '"')) : left .outside (c :: s) = c :: left .outside s := by
  by_cases hslash : c = chr '/'
  · subst hslash
    exact left_slash (fun h => hopen ⟨rfl, .inl h⟩) (fun h => hopen ⟨rfl, .inr h⟩) (hnext rfl)
  · exact left_outside hquote hslash

theorem lexed_kept (h : m.blanks c s.head? = false) :
    bytes (lexed m (c :: s)) = c :: bytes (lexed (m.step c s.head?) s) := by
  rw [lexed, h]
  rfl

theorem lexed_blank (h : m.blanks c s.head? = true) :
    bytes (lexed m (c :: s)) = chr ' ' :: bytes (lexed (m.step c s.head?) s) := by
  rw [lexed, h]
  rfl

/-- The automaton and the modes, from the same byte on. -/
def InStep (s : List Byte) : Prop :=
  ∀ (m : Mode) (odd : Bool), m.Fits odd s.head? → Known m odd s → left (m.state odd) s = bytes (lexed m s)

theorem inStep_code (ih : InStep s) (h : Known .code odd (c :: s)) :
    left .outside (c :: s) = bytes (lexed .code (c :: s)) := by
  obtain ⟨hknows, h⟩ := h
  by_cases hslash : c = chr '/'
  · subst hslash
    by_cases hstar : s.head? = some (chr '*')
    · obtain ⟨s, rfl⟩ := List.head?_eq_some_iff.mp hstar
      rw [lexed_blank rfl, left_open]
      exact congrArg (chr ' ' :: ·) ((left_star (chr '*') s).symm.trans (ih .opened false rfl h))
    · by_cases hline : s.head? = some (chr '/')
      · obtain ⟨s, rfl⟩ := List.head?_eq_some_iff.mp hline
        rw [lexed_blank rfl, left_line, ← left_cppComment (by decide : chr '/' ≠ chr '\n')]
        exact congrArg (chr ' ' :: ·) (ih .line false trivial h)
      · have hstep : Mode.code.step (chr '/') s.head? = .code := by
          rw [Mode.step, if_neg fun h => hstar h.2, if_neg fun h => hline h.2]
          rfl
        have hkept : Mode.code.blanks (chr '/') s.head? = false := by simp [Mode.blanks, hstar, hline]
        rw [hstep] at h
        rw [lexed_kept hkept, hstep, left_slash hstar hline fun hquote => hknows ⟨rfl, hquote⟩]
        exact congrArg (chr '/' :: ·) (ih .code _ trivial h)
  · have hkept : Mode.code.blanks c s.head? = false := by simp [Mode.blanks, hslash]
    have hstep : Mode.code.step c s.head? = if c = chr '"' ∨ c = chr '\'' then .literal c else .code := by
      rw [Mode.step, if_neg fun h => hslash h.1, if_neg fun h => hslash h.1]
    rw [hstep] at h
    rw [lexed_kept hkept, hstep]
    by_cases hquote : c = chr '"'
    · subst hquote
      rw [left_quote]
      exact congrArg (chr '"' :: ·) (ih (.literal (chr '"')) _ (.inl rfl) h)
    · rw [left_outside hquote hslash]
      refine congrArg (c :: ·) ?_
      by_cases hchar : c = chr '\''
      · subst hchar
        exact ih (.literal (chr '\'')) _ (.inr rfl) h
      · rw [if_neg fun hc => hc.elim hquote hchar] at h ⊢
        exact ih .code _ trivial h

theorem inStep_comment (ih : InStep s) (hfits : Mode.comment.Fits odd (some c)) (h : Known .comment odd (c :: s)) :
    left (Mode.comment.state odd) (c :: s) = bytes (lexed .comment (c :: s)) := by
  obtain ⟨hknows, h⟩ := h
  rw [lexed_blank rfl]
  by_cases hstar : c = chr '*'
  · subst hstar
    have hleft : left (Mode.comment.state odd) (chr '*' :: s) = chr ' ' :: left (Mode.comment.state !odd) s := by
      cases odd with
      | false => exact left_cComment _ s
      | true => exact left_star _ s
    rw [hleft]
    refine congrArg (chr ' ' :: ·) ?_
    by_cases hend : s.head? = some (chr '/')
    · have hstep : Mode.comment.step (chr '*') s.head? = .closing := by rw [Mode.step, if_pos ⟨rfl, hend⟩]
      obtain rfl := hknows ⟨rfl, hend⟩
      rw [hstep] at h ⊢
      exact ih .closing _ hend h
    · have hstep : Mode.comment.step (chr '*') s.head? = .comment := by rw [Mode.step, if_neg fun h => hend h.2]
      rw [hstep] at h ⊢
      have hodd : ((Mode.comment == .comment) && chr '*' == chr '*' && !odd) = !odd := by cases odd <;> rfl
      rw [hodd] at h
      exact ih .comment _ (fun _ => hend) h
  · have hstep : Mode.comment.step c s.head? = .comment := by rw [Mode.step, if_neg fun h => hstar h.1]
    have hodd : ((Mode.comment == .comment) && c == chr '*' && !odd) = false := by
      rw [beq_eq_false_iff_ne.mpr hstar, Bool.and_false, Bool.false_and]
    rw [hstep, hodd] at h
    have hleft : left (Mode.comment.state odd) (c :: s) = chr ' ' :: left .cComment s := by
      cases odd with
      | false => exact (left_cComment c s).trans (by rw [if_neg hstar])
      | true => exact (left_star c s).trans (by rw [if_neg fun hc => hfits rfl (congrArg some hc)])
    rw [hleft, hstep]
    exact congrArg (chr ' ' :: ·) (ih .comment false nofun h)

/-- In a string literal. -/
theorem inStep_string (ih : InStep s) (h : Known (.literal (chr '"')) odd (c :: s)) :
    left .string (c :: s) = bytes (lexed (.literal (chr '"')) (c :: s)) := by
  obtain ⟨-, h⟩ := h
  rw [lexed_kept rfl, left_string]
  refine congrArg (c :: ·) ?_
  rw [Mode.step] at h ⊢
  by_cases hquote : c = chr '"'
  · rw [if_pos hquote] at h ⊢
    rw [if_pos hquote]
    exact ih .code _ trivial h
  · rw [if_neg hquote] at h ⊢
    rw [if_neg hquote]
    by_cases hback : c = chr '\\'
    · rw [if_pos hback] at h ⊢
      rw [if_pos hback]
      exact ih (.escaped (chr '"')) _ (.inl rfl) h
    · rw [if_neg hback] at h ⊢
      rw [if_neg hback]
      exact ih (.literal (chr '"')) _ (.inl rfl) h

/-- In a character literal, where the automaton is outside of everything. -/
theorem inStep_character (ih : InStep s) (hm : m = .literal (chr '\'') ∨ m = .escaped (chr '\''))
    (h : Known m odd (c :: s)) : left .outside (c :: s) = bytes (lexed m (c :: s)) := by
  obtain ⟨hknows, h⟩ := h
  have hkept : m.blanks c s.head? = false := by rcases hm with rfl | rfl <;> rfl
  have hbyte : c ≠ chr '"' ∧ ¬(c = chr '/' ∧ (s.head? = some (chr '*') ∨ s.head? = some (chr '/'))) := by
    rcases hm with rfl | rfl <;> exact hknows rfl
  have hleft : left .outside (c :: s) = c :: left .outside s := by
    refine left_character hbyte.1 hbyte.2 fun hslash hquote => ?_
    subst hslash
    have hstep : m.step (chr '/') s.head? = .literal (chr '\'') := by rcases hm with rfl | rfl <;> rfl
    obtain ⟨s, rfl⟩ := List.head?_eq_some_iff.mp hquote
    rw [hstep] at h
    exact (h.1 rfl).1 rfl
  have hnext : m.step c s.head? = .code ∨ m.step c s.head? = .literal (chr '\'') ∨
      m.step c s.head? = .escaped (chr '\'') := by
    rcases hm with rfl | rfl
    · rw [Mode.step]
      split
      · exact .inl rfl
      · split
        · exact .inr (.inr rfl)
        · exact .inr (.inl rfl)
    · exact .inr (.inl rfl)
  rw [lexed_kept hkept, hleft]
  refine congrArg (c :: ·) ?_
  rcases hnext with hnext | hnext | hnext
  · rw [hnext] at h ⊢
    exact ih .code _ trivial h
  · rw [hnext] at h ⊢
    exact ih (.literal (chr '\'')) _ (.inr rfl) h
  · rw [hnext] at h ⊢
    exact ih (.escaped (chr '\'')) _ (.inr rfl) h

theorem left_eq (s : List Byte) : InStep s := by
  induction s with
  | nil => exact fun _ _ _ _ => rfl
  | cons c s ih =>
      intro m odd hfits h
      cases m with
      | code => exact inStep_code ih h
      | opened =>
          obtain rfl := Option.some.inj hfits
          exact (left_star _ s).trans (congrArg (chr ' ' :: ·) (ih .comment false nofun h.2))
      | comment => exact inStep_comment ih hfits h
      | closing =>
          obtain rfl := Option.some.inj hfits
          exact (left_star _ s).trans (congrArg (chr ' ' :: ·) (ih .code _ trivial h.2))
      | line =>
          obtain ⟨-, h⟩ := h
          by_cases hend : c = chr '\n'
          · subst hend
            exact (left_newline s).trans (congrArg (chr '\n' :: ·) (ih .code _ trivial h))
          · have hstep : Mode.line.step c s.head? = .line := if_neg hend
            have hblank : Mode.line.blanks c s.head? = true := bne_iff_ne.mpr hend
            rw [hstep] at h
            rw [lexed_blank hblank, hstep]
            exact (left_cppComment hend).trans (congrArg (chr ' ' :: ·) (ih .line _ trivial h))
      | literal quote =>
          obtain rfl | rfl := hfits
          · exact inStep_string ih h
          · exact inStep_character ih (.inl rfl) h
      | escaped quote =>
          obtain rfl | rfl := hfits
          · exact (left_backslash c s).trans (congrArg (c :: ·) (ih (.literal (chr '"')) _ (.inl rfl) h.2))
          · exact inStep_character ih (.inr rfl) h

/-- In a text of which it knows all, the automaton blanks the comments. -/
theorem stripComments_eq (h : Known .code false s) : stripComments s = bytes (lexed .code s) :=
  left_eq s .code false trivial h

end Swig.CParse.Nested
