import Swig.Preprocessor.LineContexts

/-!
The lines that `Preprocessor_parse` takes for directives, over whole texts: they are the lines that
begin with `#` in ordinary text, as long as no character slips past the state that reads it.
-/

namespace Swig.Preprocessor

/-! ### The file that a directive names -/

/-- `get_options`, behind an opening parenthesis. -/
def optionsEnd : ℕ → List Byte → List Byte
  | _, [] => []
  | level, c :: s =>
      if c = chr ')' then if level = 1 then s else optionsEnd (level - 1) s
      else optionsEnd (if c = chr '(' then level + 1 else level) s

/-- What `get_options` leaves of the text. -/
def optionsRest (s : List Byte) : List Byte :=
  match s.dropWhile isspace with
  | [] => []
  | c :: s => if c = chr '(' then optionsEnd 1 s else c :: s

/-- What `get_filename` leaves of the text. -/
def filenameRest (s : List Byte) : List Byte :=
  match s.dropWhile isspace with
  | [] => []
  | c :: s =>
      if c = chr '"' then (s.dropWhile (· != chr '"')).tail
      else if c = chr '<' then (s.dropWhile (· != chr '>')).tail
      else s.dropWhile (!isspace ·)

/-- The text behind the options and the file name of an `%include`. -/
def fileRest (s : List Byte) : List Byte := filenameRest (optionsRest s)

/-- The options and the file name. -/
def fileText (s : List Byte) : List Byte := readOf s (fileRest s)

/-- The loop goes on behind the file name of an `%include` in state 1, and behind the line of an
`#include` in state 0. -/
structure FileInclusion (W : Type) extends Inclusion W where
  state : ∀ p c s, (after p c s).1.state = if p.state = .swigName then .text else .firstColumn
  dlevel : ∀ p c s, (after p c s).1.dlevel = p.dlevel
  rest : ∀ p c s, (after p c s).2 = if p.state = .swigName then fileRest (c :: s) else s

theorem optionsEnd_suffix (level : ℕ) (s : List Byte) : optionsEnd level s <:+ s := by
  fun_induction optionsEnd level s with
  | case1 => exact List.suffix_rfl
  | case2 s => exact List.suffix_cons _ s
  | case3 level s h ih => exact ih.trans (List.suffix_cons _ s)
  | case4 level c s h ih => exact ih.trans (List.suffix_cons c s)

theorem optionsRest_suffix (s : List Byte) : optionsRest s <:+ s := by
  have hdrop : s.dropWhile isspace <:+ s := List.dropWhile_suffix _
  rw [optionsRest]
  split
  · exact List.nil_suffix
  · rename_i c u hu
    rw [hu] at hdrop
    split
    · exact (optionsEnd_suffix 1 u).trans ((List.suffix_cons c u).trans hdrop)
    · exact hdrop

theorem filenameRest_suffix (s : List Byte) : filenameRest s <:+ s := by
  have hdrop : s.dropWhile isspace <:+ s := List.dropWhile_suffix _
  rw [filenameRest]
  split
  · exact List.nil_suffix
  · rename_i c u hu
    rw [hu] at hdrop
    have hu : u <:+ s := (List.suffix_cons c u).trans hdrop
    split
    · exact (List.tail_suffix _).trans ((List.dropWhile_suffix _).trans hu)
    · split
      · exact (List.tail_suffix _).trans ((List.dropWhile_suffix _).trans hu)
      · exact (List.dropWhile_suffix _).trans hu

theorem fileRest_suffix (s : List Byte) : fileRest s <:+ s :=
  (filenameRest_suffix _).trans (optionsRest_suffix s)

open Locals

variable {W : Type} {t : MacroTable W} {p q r : Locals W} {c : Byte} {s rest : List Byte}

/-! ### State 40 -/

namespace Locals

variable (t) in
/-- With this character the loop gets to state 40. -/
def StartsDirective (p : Locals W) (c : Byte) : Prop := p.state ≠ .hash ∧ ∃ q, p.step t c = some q ∧ q.state = .hash

theorem text_ne_hash (p : Locals W) (c : Byte) : (p.text c).state ≠ .hash := by
  rw [text]
  split
  · rintro ⟨⟩
  · split
    · rintro ⟨⟩
    · split
      · rintro ⟨⟩
      · split <;> rintro ⟨⟩

theorem directive_ne_hash (h : p.directive t = some q) : q.state ≠ .hash := by
  rw [directive] at h
  split at h
  · cases h
    rintro ⟨⟩
  · obtain ⟨r, -, rfl⟩ := Option.map_eq_some_iff.mp h
    rintro ⟨⟩

theorem readValue_ne_hash (h : p.readValue t c = some q) : q.state ≠ .hash := by
  rw [readValue] at h
  split at h
  · exact directive_ne_hash h
  · split at h
    · cases h
      rintro ⟨⟩
    · split at h
      · cases h
        rintro ⟨⟩
      · cases h
        dsimp only [goto]
        split <;> rintro ⟨⟩

theorem beforeValue_ne_hash (h : p.beforeValue t c = some q) : q.state ≠ .hash := by
  rw [beforeValue] at h
  split at h
  · split at h
    · exact directive_ne_hash h
    · cases h
      rintro ⟨⟩
  · exact readValue_ne_hash h

theorem name_ne_hash (h : p.name t c = some q) : q.state ≠ .hash := by
  rw [name] at h
  split at h
  · dsimp only at h
    split at h
    · exact directive_ne_hash h
    · split at h
      · cases h
        rintro ⟨⟩
      · exact beforeValue_ne_hash h
  · cases h
    rintro ⟨⟩

theorem firstColumn_hash (h : (p.firstColumn t c).state = .hash) : c = chr '#' := by
  rw [firstColumn] at h
  split at h
  · rename_i hhash
    exact hhash
  · split at h
    · cases h
    · exact absurd h (text_ne_hash p c)

theorem define_ne_hash (p : Locals W) (c : Byte) : (p.define c).state ≠ .hash := by
  rw [define]
  dsimp only [goto]
  split <;> rintro ⟨⟩

theorem defineEnd_ne_hash (w : List Byte) (p : Locals W) (c : Byte) : (p.defineEnd t w c).state ≠ .hash := by
  rw [defineEnd]
  split
  · rename_i hblank
    split
    · exact define_ne_hash _ c
    · split
      · intro h
        rw [firstColumn_hash h] at hblank
        exact absurd hblank (by decide)
      · exact define_ne_hash _ c
  · exact define_ne_hash p c

theorem swigName_ne_hash (hstate : p.state = .swigName) (h : p.swigName t c = some q) : q.state ≠ .hash := by
  rw [swigName] at h
  split at h
  · cases h
    dsimp only
    rw [hstate]
    rintro ⟨⟩
  · split at h
    · split at h
      · cases h
      · cases h
        exact text_ne_hash p c
    · split at h
      · cases h
        exact text_ne_hash p c
      · split at h
        · cases h
          exact define_ne_hash _ c
        · cases h
          exact text_ne_hash _ c

/-- State 40 is entered from state 0, with a `#`. -/
theorem dispatch_hash (h : p.dispatch t c = some q) (hq : q.state = .hash) :
    p.state = .hash ∨ p.state = .firstColumn ∧ c = chr '#' := by
  rw [dispatch] at h
  cases hstate : p.state with
  | firstColumn =>
      rw [hstate] at h
      cases h
      exact .inr ⟨rfl, firstColumn_hash hq⟩
  | hash => exact .inl rfl
  | text =>
      rw [hstate] at h
      cases h
      exact absurd hq (text_ne_hash p c)
  | name =>
      rw [hstate] at h
      exact absurd hq (name_ne_hash h)
  | beforeValue =>
      rw [hstate] at h
      exact absurd hq (beforeValue_ne_hash h)
  | value =>
      rw [hstate] at h
      exact absurd hq (readValue_ne_hash h)
  | swigName =>
      rw [hstate] at h
      exact absurd hq (swigName_ne_hash hstate h)
  | define =>
      rw [hstate] at h
      cases h
      exact absurd hq (define_ne_hash p c)
  | defineEnd w =>
      rw [hstate] at h
      cases h
      exact absurd hq (defineEnd_ne_hash w p c)
  | valueEscape =>
      rw [hstate] at h
      dsimp only [valueEscape] at h
      split at h
      · cases h
        cases hq
      · exact absurd hq (readValue_ne_hash h)
  | valueSlash =>
      rw [hstate] at h
      dsimp only [valueSlash] at h
      split at h
      · cases h
        cases hq
      · split at h
        · cases h
          cases hq
        · split at h
          · exact absurd hq (directive_ne_hash h)
          · cases h
            cases hq
  | valueLineComment =>
      rw [hstate] at h
      dsimp only [valueLineComment] at h
      split at h
      · exact absurd hq (directive_ne_hash h)
      · cases h
        rw [show (p.putComment c).state = .valueLineComment from hstate] at hq
        cases hq
  | percent =>
      rw [hstate] at h
      cases h
      rw [percent] at hq
      split at hq
      · cases hq
      · split at hq
        · cases hq
        · split at hq <;> cases hq
  | defineWord w =>
      rw [hstate] at h
      cases h
      dsimp only [defineWord, goto] at hq
      split at hq
      · cases hq
      · split at hq <;> cases hq
  | embedded =>
      rw [hstate] at h
      cases h
      split at hq
      · cases hq
      · dsimp only [goto] at hq
        split at hq <;> cases hq
  | valueBlockComment =>
      rw [hstate] at h
      cases h
      split at hq
      · cases hq
      · rw [show (p.putComment c).state = .valueBlockComment from hstate] at hq
        cases hq
  | valueBlockStar =>
      rw [hstate] at h
      cases h
      rw [valueBlockStar] at hq
      split at hq
      · cases hq
      · split at hq
        · rw [show (p.putComment c).state = .valueBlockStar from hstate] at hq
          cases hq
        · cases hq
  | literal | slash | lineComment | blockComment | blockStar | valueLiteral | block | blockPercent =>
      rw [hstate] at h
      cases h
      dsimp only [goto] at hq
      split_ifs at hq
  | literalEscape | valueLiteralEscape | embeddedEscape =>
      rw [hstate] at h
      cases h
      cases hq

theorem startsDirective_iff : p.StartsDirective t c ↔ p.state = .firstColumn ∧ c = chr '#' := by
  constructor
  · rintro ⟨hhash, q, hstep, hq⟩
    exact (dispatch_hash hstep hq).resolve_left hhash
  · rintro ⟨hstate, rfl⟩
    have hstep : p.step t (chr '#') = some ({ p with line := p.line + 0 }.firstColumn t (chr '#')) := by
      rw [step, dispatch]
      dsimp only
      rw [hstate]
      rfl
    refine ⟨by rw [hstate]; rintro ⟨⟩, _, hstep, ?_⟩
    rw [firstColumn, if_pos rfl]

end Locals

/-! ### Whole texts -/

/-- A line that begins with `#` in ordinary text begins here. -/
def DirectiveAt (read : List Byte) (c : Byte) : Prop := Context.after read = .lineStart ∧ c = chr '#'

/-- No such line begins in the text behind what is read. -/
def NoDirectiveIn (read text : List Byte) : Prop := ∀ u c v, text = u ++ c :: v → ¬ DirectiveAt (read ++ u) c

/-- The round reads the name of a file for an `%include`. -/
def Locals.Includes (t : MacroTable W) (p : Locals W) (c : Byte) : Prop := p.state = .swigName ∧ p.Follows t c

variable (t) in
/-- What is asked of a state with the text in front of it: a line is handled as a directive exactly
if it is one. -/
def Recognised (read : List Byte) (p : Locals W) : List Byte → Prop
  | [] => True
  | c :: s =>
      (p.Includes t c → NoDirectiveIn read (fileText (c :: s))) ∧
        (¬ p.Includes t c → (p.StartsDirective t c ↔ DirectiveAt read c))

variable (t) in
/-- No character slips past the state it is read in, and the name of a file is a piece of ordinary
text. -/
def Straight (read : List Byte) (p : Locals W) : List Byte → Prop
  | [] => True
  | c :: s =>
      ¬ (Context.after read).Slips c ∧
        (p.Includes t c → NoDirectiveIn read (fileText (c :: s)) ∧
          ∃ last, Context.after (read ++ fileText (c :: s)) = .ordinary last ∧ last ≠ chr '/' ∧ last ≠ chr '%')

variable (t) in
/-- The loop takes the text for what it is. -/
def Treated (read : List Byte) (p : Locals W) (rest : List Byte) : Prop :=
  (Context.after read).Admits p.state ∧ Recognised t read p rest

theorem Context.after_append (u v : List Byte) : after (u ++ v) = v.foldl next (after u) := List.foldl_append

theorem Context.admits_firstColumn {ctx : Context} (h : ctx.Admits .firstColumn) :
    ctx = .lineStart ∨ ctx = .behindDefine := by
  cases ctx with
  | lineStart => exact .inl rfl
  | behindDefine => exact .inr rfl
  | word | lineComment | directiveLineComment => cases h
  | define level name =>
      obtain ⟨-, h⟩ := h
      cases name with
      | none => cases h
      | some w =>
          rw [defineState] at h
          split_ifs at h
  | ordinary | literal | blockComment | block | percentLine | directiveLiteral | directiveBlockComment =>
      rw [Admits] at h
      split_ifs at h
  | directive last =>
      rw [Admits] at h
      split at h
      · cases h
      · split at h
        · cases h
        · simp at h

theorem recognised_of_fits {read : List Byte} (hp : (Context.after read).Fits p) (hstraight : Straight t read p s) :
    Recognised t read p s := by
  cases s with
  | nil => trivial
  | cons c s =>
      obtain ⟨hslip, hfile⟩ := hstraight
      refine ⟨fun hincl => (hfile hincl).1, fun hincl => ?_⟩
      rw [startsDirective_iff, DirectiveAt]
      refine and_congr_left fun hc => ?_
      constructor
      · intro h
        have hstate := hp.state
        rw [h] at hstate
        refine (Context.admits_firstColumn hstate).resolve_right fun hbehind => hslip ?_
        rw [hbehind]
        exact hc
      · intro h
        have hstate := hp.state
        rw [h] at hstate
        exact hstate

theorem Rounds.suffix {incl : Inclusion W} {ds : List (Conditional × ℕ)} (h : Rounds t incl p s ds r rest) :
    rest <:+ s := by
  induction h with
  | refl p s => exact List.suffix_rfl
  | @read p q r c s rest ds _ _ ih => exact ih.trans (List.suffix_cons c s)
  | @include_ p r c s rest ds _ _ ih => exact ih.trans (incl.suffix p c s)

theorem Rounds.trans {incl : Inclusion W} {ds es : List (Conditional × ℕ)} {m : List Byte}
    (h : Rounds t incl p s ds q m)
    (h' : Rounds t incl q m es r rest) : Rounds t incl p s (ds ++ es) r rest := by
  induction h with
  | refl p s => exact h'
  | read hstep _ ih =>
      rw [List.append_assoc]
      exact .read hstep (ih h')
  | include_ hfollows _ ih => exact .include_ hfollows (ih h')

theorem readOf_trans {m : List Byte} (hrest : rest <:+ m) (hm : m <:+ s) :
    readOf s rest = readOf s m ++ readOf m rest := by
  have happ : readOf s rest ++ rest = readOf s m ++ readOf m rest ++ rest := by
    rw [readOf_append (hrest.trans hm), List.append_assoc, readOf_append hrest, readOf_append hm]
  exact List.append_cancel_right happ

theorem readOf_self (s : List Byte) : readOf s s = [] := by rw [readOf, Nat.sub_self, List.take_zero]

theorem readOf_cons (c : Byte) (s : List Byte) : readOf (c :: s) s = [c] := by
  rw [readOf, List.length_cons, Nat.add_sub_cancel_left]
  rfl

theorem Locals.step_fits {ctx : Context} (hp : ctx.Fits p) (hslip : ¬ ctx.Slips c) (h : p.step t c = some q) :
    (ctx.next c).Fits q :=
  Context.dispatch_fits (p := { p with line := p.line + if c = chr '\n' then 1 else 0 }) ⟨hp.state, hp.level, hp.decl⟩
    hslip h

theorem Context.level_of_admits {ctx : Context} {s : ParseState} (h : ctx.Admits s) (hs : s.inDefine = false) :
    ctx.level = 0 := by
  cases ctx with
  | define level name =>
      obtain ⟨-, rfl⟩ := h
      cases name with
      | none => cases hs
      | some w =>
          rw [defineState] at hs
          split_ifs at hs
          all_goals cases hs
  | lineStart | behindDefine | ordinary | literal | lineComment | blockComment | word | block | percentLine | directive
  | directiveLiteral | directiveLineComment | directiveBlockComment => rfl

/-- A directive that ends at a newline is read to the end of its line. -/
theorem Context.next_ending {ctx : Context} {s : ParseState} (h : ctx.Admits s) (hs : s ∈ ParseState.ending) :
    ctx.next (chr '\n') = .lineStart := by
  cases ctx with
  | directiveLineComment => rfl
  | directive last =>
      have hlast : last ≠ chr '\\' := by
        rintro rfl
        have hstate : s = .valueEscape := h
        rw [hstate] at hs
        exact absurd hs (by decide)
      rw [next, if_pos rfl, if_neg hlast]
  | lineStart | behindDefine | word | lineComment =>
      rw [show s = _ from h] at hs
      exact absurd hs (by decide)
  | define level name =>
      obtain ⟨-, rfl⟩ := h
      cases name with
      | none => exact absurd hs (by decide)
      | some w =>
          rw [defineState] at hs
          split_ifs at hs <;> simp [ParseState.ending] at hs
  | ordinary | literal | blockComment | block | percentLine | directiveLiteral | directiveBlockComment =>
      rw [show s = _ from h] at hs
      split_ifs at hs <;> simp [ParseState.ending] at hs

/-- The line of an `#include` is read to its end. -/
theorem include_fits {ctx : Context} (incl : FileInclusion W) (hp : ctx.Fits p) (hstate : p.state ≠ .swigName)
    (hfollows : p.Follows t c) (s : List Byte) : c = chr '\n' ∧ (ctx.next c).Fits (incl.after p c s).1 := by
  obtain ⟨-, ⟨hswig, -⟩ | ⟨-, found, hended, -⟩⟩ := hfollows
  · exact absurd hswig hstate
  · have hending : p.state ∈ ParseState.ending := by
      by_contra hs
      rw [not_ended rfl hs] at hended
      cases hended
    have hc : c = chr '\n' := by
      by_contra hc
      rw [ended, if_neg hc] at hended
      cases hended
    subst hc
    have hout : p.state.inDefine = false :=
      (by decide : ∀ s ∈ ParseState.ending, s.inDefine = false) _ hending
    rw [Context.next_ending hp.state hending]
    refine ⟨rfl, Context.fits_firstColumn ?_ ?_⟩
    · rw [incl.state, if_neg hstate]
    · rw [incl.dlevel, hp.level, Context.level_of_admits hp.state hout]

theorem Rounds.fits {incl : FileInclusion W} {ds : List (Conditional × ℕ)} {read : List Byte}
    (h : Rounds t incl.toInclusion p s ds r rest) (hp : (Context.after read).Fits p)
    (hstraight : ∀ ds q rest, Rounds t incl.toInclusion p s ds q rest → Straight t (read ++ readOf s rest) q rest) :
    (Context.after (read ++ readOf s rest)).Fits r := by
  induction h generalizing read with
  | refl p s => rwa [readOf_self, List.append_nil]
  | @read p q r c s rest ds hstep hrest ih =>
      have hhere := hstraight _ _ _ (.refl p (c :: s))
      rw [readOf_self, List.append_nil] at hhere
      have hq : (Context.after (read ++ [c])).Fits q := by
        rw [Context.after_append]
        exact step_fits hp hhere.1 hstep
      have hmore {rest' : List Byte} (h : rest' <:+ s) :
          read ++ readOf (c :: s) rest' = (read ++ [c]) ++ readOf s rest' := by
        rw [readOf_trans h (List.suffix_cons c s), readOf_cons, List.append_assoc]
      rw [hmore hrest.suffix]
      refine ih hq fun ds' q' rest' hrounds => ?_
      rw [← hmore hrounds.suffix]
      exact hstraight _ _ _ (.read hstep hrounds)
  | @include_ p r c s rest ds hfollows hrest ih =>
      have hhere := hstraight _ _ _ (.refl p (c :: s))
      rw [readOf_self, List.append_nil] at hhere
      have hq : (Context.after (read ++ readOf (c :: s) (incl.after p c s).2)).Fits (incl.after p c s).1 := by
        by_cases hswig : p.state = .swigName
        · obtain ⟨-, last, hlast, hslash, hpercent⟩ := hhere.2 ⟨hswig, hfollows⟩
          rw [incl.rest, if_pos hswig]
          rw [fileText] at hlast
          rw [hlast]
          refine Context.fits_ordinary ?_ ?_
          · rw [incl.dlevel, hp.level, Context.level_of_admits hp.state (by rw [hswig]; rfl)]
          · rw [incl.state, if_pos hswig, if_neg hslash, if_neg hpercent]
        · rw [incl.rest, if_neg hswig, readOf_cons, Context.after_append]
          exact (include_fits incl hp hswig hfollows s).2
      have hmore {rest' : List Byte} (h : rest' <:+ (incl.after p c s).2) :
          read ++ readOf (c :: s) rest' =
            (read ++ readOf (c :: s) (incl.after p c s).2) ++ readOf (incl.after p c s).2 rest' := by
        rw [readOf_trans h (incl.suffix p c s), List.append_assoc]
      rw [hmore hrest.suffix]
      refine ih hq fun ds' q' rest' hrounds => ?_
      rw [← hmore hrounds.suffix]
      exact hstraight _ _ _ (.include_ hfollows hrounds)

/-! ### Slips -/

theorem Context.ofText_not_text (h : c = chr '\n' ∨ isQuote c ∨ c = chr '%' ∨ c = chr '/') :
    ¬ (ofText c).Admits .text := by
  rcases h with rfl | (rfl | rfl) | rfl | rfl <;> decide

/-- Behind a character that slips the state is not one that goes with the text. -/
theorem Locals.step_slips {ctx : Context} (hp : ctx.Admits p.state) (hslip : ctx.Slips c) (hctx : ctx ≠ .behindDefine) :
    ∃ q, p.step t c = some q ∧ ¬ (ctx.next c).Admits q.state := by
  rw [step, dispatch]
  dsimp only
  cases ctx with
  | behindDefine => exact absurd rfl hctx
  | lineStart | literal | lineComment | blockComment | word | directiveLiteral | directiveLineComment
  | directiveBlockComment => exact hslip.elim
  | ordinary last =>
      rcases hslip with ⟨rfl, hc⟩ | ⟨rfl, hc⟩
      · rw [show p.state = .slash from hp]
        refine ⟨_, rfl, ?_⟩
        dsimp only
        rcases hc with rfl | (rfl | rfl) | rfl <;> decide
      · rw [show p.state = .percent from hp]
        refine ⟨_, rfl, ?_⟩
        -- each of them is put into the chunk, in state 1
        rcases hc with rfl | (rfl | rfl) | rfl | rfl
        all_goals
          change ¬ ((Context.ordinary (chr '%')).next _).Admits .text
          decide
  | block percent =>
      obtain ⟨rfl, rfl⟩ := hslip
      rw [show p.state = .blockPercent from hp]
      exact ⟨_, rfl, by rintro ⟨⟩⟩
  | percentLine last =>
      obtain ⟨rfl, rfl⟩ := hslip
      rw [show p.state = .embeddedEscape from hp]
      exact ⟨_, rfl, by rintro ⟨⟩⟩
  | define level name =>
      obtain ⟨rfl, w, hw, hbegun, hlen⟩ := hslip
      cases hw
      have hstate : p.state = .defineWord w := by
        rw [hp.2, Context.defineState, if_pos hbegun, if_neg hlen.ne]
      have hmore := Context.begun_append_of_not_alpha w (show isalpha (chr '%') = false by decide)
      rw [hstate]
      refine ⟨_, rfl, ?_⟩
      rintro ⟨-, hdefine⟩
      rw [Context.begun, Bool.or_eq_false_iff] at hmore
      dsimp only [Locals.defineWord, goto] at hdefine
      rw [if_pos (by rw [hmore.1, hmore.2]; rfl)] at hdefine
      cases hdefine
  | directive last =>
      obtain ⟨rfl, hc⟩ := hslip
      rw [show p.state = .valueSlash from hp]
      rcases hc with (rfl | rfl) | rfl
      all_goals
        refine ⟨_, rfl, ?_⟩
        change ¬ ((Context.directive (chr '/')).next _).Admits .value
        decide

theorem Context.admits_text {ctx : Context} (h : ctx.Admits .text) :
    ∃ last, ctx = .ordinary last ∧ last ≠ chr '/' ∧ last ≠ chr '%' := by
  cases ctx with
  | ordinary last =>
      rw [Admits] at h
      split_ifs at h with hslash hpercent
      exact ⟨last, rfl, hslash, hpercent⟩
  | lineStart | behindDefine | word | lineComment | directiveLineComment => cases h
  | define level name =>
      obtain ⟨-, h⟩ := h
      cases name with
      | none => cases h
      | some w =>
          rw [defineState] at h
          split_ifs at h
  | literal | blockComment | block | percentLine | directiveLiteral | directiveBlockComment =>
      rw [Admits] at h
      split_ifs at h
  | directive last =>
      rw [Admits] at h
      split at h
      · cases h
      · split at h
        · cases h
        · simp at h

/-- Files of which nothing is included. -/
def emptyFiles : FileInclusion Unit where
  after p c s :=
    ({ p with state := if p.state = .swigName then .text else .firstColumn },
      if p.state = .swigName then fileRest (c :: s) else s)
  same _ _ _ := ⟨rfl, rfl⟩
  suffix p c s := by
    dsimp only
    split
    · exact fileRest_suffix (c :: s)
    · exact List.suffix_cons c s
  state _ _ _ := rfl
  dlevel _ _ _ := rfl
  rest _ _ _ := rfl

/-- No character slips past the state it is read in, as far as the text says. -/
def Clean (read s : List Byte) : Prop :=
  Ledger.Throughout (fun ctx c => some (Context.next ctx c)) (fun ctx c => ¬ ctx.Slips c) (Context.after read) s

/-- Where no file is included, the text alone decides. -/
theorem Rounds.straight {incl : Inclusion W} {ds : List (Conditional × ℕ)} {read : List Byte}
    (h : Rounds t incl p s ds r rest) (hno : Ledger.Throughout (Locals.step t) (fun p c => ¬ p.Follows t c) p s)
    (hclean : Clean read s) : Straight t (read ++ readOf s rest) r rest := by
  induction h generalizing read with
  | refl p s =>
      rw [readOf_self, List.append_nil]
      cases s with
      | nil => trivial
      | cons c s => exact ⟨hclean.1, fun hincl => absurd hincl.2 hno.1⟩
  | @read p q r c s rest ds hstep hrest ih =>
      rw [readOf_trans hrest.suffix (List.suffix_cons c s), readOf_cons, ← List.append_assoc]
      refine ih (hno.2 q hstep) ?_
      rw [Clean, Context.after_append]
      exact hclean.2 _ rfl
  | @include_ p r c s rest ds hfollows hrest ih => exact absurd hfollows hno.1

end Swig.Preprocessor
