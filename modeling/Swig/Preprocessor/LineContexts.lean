import Swig.Preprocessor.CondLines

/-!
What the lines of an interface file are, read off the text alone, and the states of
`Preprocessor_parse` that go with it.
-/

namespace Swig.Preprocessor

/-! ### The text -/

/-- What the text read so far ends in. -/
inductive Context
  /-- Ordinary text, with nothing but blanks before it on its line. -/
  | lineStart
  /-- Ordinary text, with nothing but blanks between it and an `%enddef` on its line. -/
  | behindDefine
  /-- Ordinary text, with the byte before it. -/
  | ordinary (last : Byte)
  | literal (ch : Byte) (escaped : Bool)
  | lineComment
  | blockComment (star : Bool)
  /-- A word with a `%` before it. -/
  | word (name : List Byte)
  /-- A `%{ %}` block; `percent` says that the last byte was a `%`. -/
  | block (percent : Bool)
  /-- A line that begins with `%#`, and the lines it is continued on. -/
  | percentLine (last : Byte)
  /-- The bodies of `%define`s, and what is read of them since the last `%` or blank. -/
  | define (level : ℕ) (word : Option (List Byte))
  /-- The line of a directive, and the lines it is continued on. -/
  | directive (last : Byte)
  | directiveLiteral (ch : Byte) (escaped : Bool)
  | directiveLineComment
  | directiveBlockComment (star : Bool)
  deriving DecidableEq

abbrev isQuote (c : Byte) : Prop := c = chr '"' ∨ c = chr '\''

namespace Context

/-- Ordinary text that nothing goes on with. -/
def plain : Context := .ordinary (chr ' ')

/-- Ordinary text, with the byte read. -/
def ofText (c : Byte) : Context :=
  if c = chr '\n' then .lineStart else if isQuote c then .literal c false else .ordinary c

/-- The body of a `%define`, with the byte read. -/
def inDefine (level : ℕ) (name : Option (List Byte)) (c : Byte) : Context :=
  if c = chr '%' then .define level (some [])
  else if isspace c then
    if name = some (lit "enddef") then
      if level ≤ 1 then if c = chr '\n' then .lineStart else .behindDefine
      else .define (level - 1) none
    else if name = some (lit "define") then .define (level + 1) none
    else .define level none
  else .define level (name.map (· ++ [c]))

def next : Context → Byte → Context
  | lineStart, c => if c = chr '#' then .directive c else if isspace c then .lineStart else ofText c
  | behindDefine, c => if c ≠ chr '\n' ∧ isspace c then .behindDefine else ofText c
  | ordinary last, c =>
      if last = chr '/' ∧ c = chr '/' then .lineComment
      else if last = chr '/' ∧ c = chr '*' then .blockComment false
      else if last = chr '%' ∧ c = chr '\x7b' then .block false
      else if last = chr '%' ∧ c = chr '#' then .percentLine c
      else if last = chr '%' ∧ isidentifier c then .word [c]
      else ofText c
  | literal ch true, _ => .literal ch false
  | literal ch false, c => if c = ch then plain else .literal ch (c == chr '\\')
  | lineComment, c => if c = chr '\n' then .lineStart else .lineComment
  | blockComment star, c => if star && c == chr '/' then plain else .blockComment (c == chr '*')
  | word name, c =>
      if isidchar c then .word (name ++ [c])
      else if name = lit "define" then inDefine 1 none c
      else ofText c
  | block percent, c => if percent && c == chr '\x7d' then plain else .block (c == chr '%')
  | percentLine last, c => if c = chr '\n' ∧ last ≠ chr '\\' then .lineStart else .percentLine c
  | define level name, c => inDefine level name c
  | directive last, c =>
      if c = chr '\n' then if last = chr '\\' then .directive c else .lineStart
      else if isQuote c then .directiveLiteral c false
      else if last = chr '/' ∧ c = chr '/' then .directiveLineComment
      else if last = chr '/' ∧ c = chr '*' then .directiveBlockComment false
      else .directive c
  | directiveLiteral ch true, _ => .directiveLiteral ch false
  | directiveLiteral ch false, c =>
      if c = ch then .directive (chr ' ') else .directiveLiteral ch (c == chr '\\')
  | directiveLineComment, c => if c = chr '\n' then .lineStart else .directiveLineComment
  | directiveBlockComment star, c =>
      if star && c == chr '/' then .directive (chr ' ') else .directiveBlockComment (c == chr '*')

/-- What a text ends in. -/
def after (s : List Byte) : Context := s.foldl next lineStart

/-- The text ends in no literal, block comment, block or `%define`. -/
def Closed : Context → Bool
  | literal .. | blockComment _ | block _ | define .. | directiveLiteral .. | directiveBlockComment _ => false
  | _ => true

/-- Part of `enddef` or `define`, or the whole. -/
def begun (w : List Byte) : Bool := w.isPrefixOf (lit "enddef") || w.isPrefixOf (lit "define")

/-- The byte is one that the loop does not look at as what it is: it stands behind a byte that
something else was to go on with. -/
def Slips : Context → Byte → Prop
  | ordinary last, c =>
      (last = chr '/' ∧ (c = chr '\n' ∨ isQuote c ∨ c = chr '%')) ∨
        (last = chr '%' ∧ (c = chr '\n' ∨ isQuote c ∨ c = chr '%' ∨ c = chr '/'))
  | directive last, c => last = chr '/' ∧ (isQuote c ∨ c = chr '\\')
  | block percent, c => percent = true ∧ c = chr '%'
  | percentLine last, c => last = chr '\\' ∧ c = chr '\\'
  | define _ name, c => c = chr '%' ∧ ∃ w ∈ name, begun w = true ∧ w.length < 6
  | behindDefine, c => c = chr '#'
  | _, _ => False

instance (ctx : Context) (c : Byte) : Decidable (ctx.Slips c) :=
  match ctx with
  | ordinary last => inferInstanceAs (Decidable ((last = _ ∧ _) ∨ (last = _ ∧ _)))
  | directive last => inferInstanceAs (Decidable (last = _ ∧ _))
  | block percent => inferInstanceAs (Decidable (percent = true ∧ _))
  | percentLine last => inferInstanceAs (Decidable (last = _ ∧ _))
  | define _ name => inferInstanceAs (Decidable (_ ∧ ∃ w ∈ name, begun w = true ∧ w.length < 6))
  | behindDefine => inferInstanceAs (Decidable (c = _))
  | lineStart | literal .. | lineComment | blockComment _ | word _ | directiveLiteral .. | directiveLineComment
  | directiveBlockComment _ => instDecidableFalse

/-! ### The states -/

/-- The state in the body of a `%define`. -/
def defineState : Option (List Byte) → ParseState
  | none => .define
  | some w => if begun w then if w.length = 6 then .defineEnd w else .defineWord w else .define

/-- The states that go with it. -/
def Admits : Context → ParseState → Prop
  | lineStart, s | behindDefine, s => s = .firstColumn
  | ordinary last, s => s = if last = chr '/' then .slash else if last = chr '%' then .percent else .text
  | literal ch escaped, s => s = if escaped then .literalEscape ch else .literal ch
  | lineComment, s => s = .lineComment
  | blockComment star, s => s = if star then .blockStar else .blockComment
  | word _, s => s = .swigName
  | block percent, s => s = if percent then .blockPercent else .block
  | percentLine last, s => s = if last = chr '\\' then .embeddedEscape else .embedded
  | define level name, s => 1 ≤ level ∧ s = defineState name
  | directive last, s =>
      if last = chr '/' then s = .valueSlash
      else if last = chr '\\' then s = .valueEscape
      else s ∈ [.hash, .name, .beforeValue, .value]
  | directiveLiteral ch escaped, s => s = if escaped then .valueLiteralEscape ch else .valueLiteral ch
  | directiveLineComment, s => s = .valueLineComment
  | directiveBlockComment star, s => s = if star then .valueBlockStar else .valueBlockComment

instance (ctx : Context) (s : ParseState) : Decidable (ctx.Admits s) :=
  match ctx with
  | define level name => inferInstanceAs (Decidable (1 ≤ level ∧ s = defineState name))
  | directive last => inferInstanceAs (Decidable (if last = _ then s = _ else if last = _ then s = _ else s ∈ _))
  | lineStart | behindDefine | ordinary _ | literal .. | lineComment | blockComment _ | word _ | block _ | percentLine _
  | directiveLiteral .. | directiveLineComment | directiveBlockComment _ => inferInstanceAs (Decidable (s = _))

def level : Context → ℕ
  | define level _ => level
  | _ => 0

variable {W : Type} {t : MacroTable W} {p q : Locals W} {c : Byte}

/-- The locals are those of the loop in front of text of this kind. -/
structure Fits (ctx : Context) (p : Locals W) : Prop where
  state : ctx.Admits p.state
  level : p.dlevel = ctx.level
  decl : ∀ name, ctx = .word name → p.decl = chr '%' :: name

theorem ofText_of_ne (hnewline : c ≠ chr '\n') (hquote : ¬ isQuote c) : ofText c = .ordinary c := by
  rw [ofText, if_neg hnewline, if_neg hquote]

theorem fits_firstColumn (hstate : p.state = .firstColumn) (hlevel : p.dlevel = 0) : lineStart.Fits p :=
  ⟨hstate, hlevel, nofun⟩

theorem fits_ordinary {last : Byte} (hlevel : p.dlevel = 0)
    (hstate : p.state = if last = chr '/' then .slash else if last = chr '%' then .percent else .text) :
    (ordinary last).Fits p := ⟨hstate, hlevel, nofun⟩

theorem fits_plain (hstate : p.state = .text) (hlevel : p.dlevel = 0) : plain.Fits p := fits_ordinary hlevel hstate

theorem fits_directive {last : Byte} (hslash : last ≠ chr '/') (hescape : last ≠ chr '\\')
    (hstate : p.state ∈ [.hash, .name, .beforeValue, .value]) (hlevel : p.dlevel = 0) : (directive last).Fits p := by
  refine ⟨?_, hlevel, nofun⟩
  rwa [Admits, if_neg hslash, if_neg hescape]

theorem text_fits (hlevel : p.dlevel = 0) (c : Byte) : (ofText c).Fits (p.text c) := by
  rw [Locals.text]
  split
  · rename_i hpercent
    subst hpercent
    exact fits_ordinary hlevel rfl
  · rename_i hpercent
    split
    · rename_i hnewline
      subst hnewline
      exact fits_firstColumn rfl hlevel
    · rename_i hnewline
      split
      · rename_i hquote
        change isQuote c at hquote
        rw [ofText, if_neg hnewline, if_pos hquote]
        exact ⟨rfl, hlevel, by rintro _ ⟨⟩⟩
      · rename_i hquote
        rw [ofText_of_ne hnewline hquote]
        split
        · exact fits_ordinary hlevel (if_pos ‹_›).symm
        · rename_i hslash
          exact fits_ordinary hlevel (by rw [if_neg hslash, if_neg hpercent]; rfl)

theorem firstColumn_fits (hlevel : p.dlevel = 0) (c : Byte) : (next lineStart c).Fits (p.firstColumn t c) := by
  rw [Locals.firstColumn, next]
  split
  · rename_i hhash
    subst hhash
    exact fits_directive (by decide) (by decide) (List.mem_cons_self ..) hlevel
  · split
    · exact fits_firstColumn rfl hlevel
    · exact text_fits hlevel c

theorem behindDefine_fits (hlevel : p.dlevel = 0) (hslip : ¬ behindDefine.Slips c) :
    (next behindDefine c).Fits (p.firstColumn t c) := by
  have hhash : c ≠ chr '#' := hslip
  rw [Locals.firstColumn, if_neg hhash, next]
  by_cases hnewline : c = chr '\n'
  · subst hnewline
    exact fits_firstColumn rfl hlevel
  · by_cases hspace : isspace c = true
    · rw [if_pos hspace, if_pos ⟨hnewline, hspace⟩]
      exact ⟨rfl, hlevel, by rintro _ ⟨⟩⟩
    · rw [if_neg hspace, if_neg fun h => hspace h.2]
      exact text_fits hlevel c

/-- A slash goes on with nothing but a comment. -/
theorem slash_fits {q : Locals W} (hlevel : q.dlevel = 0) (hslip : ¬ (ordinary (chr '/')).Slips c)
    (hstate : q.state = if c = chr '/' then .lineComment else if c = chr '*' then .blockComment else .text) :
    (next (ordinary (chr '/')) c).Fits q := by
  rw [next]
  by_cases hslash : c = chr '/'
  · rw [if_pos ⟨rfl, hslash⟩]
    rw [if_pos hslash] at hstate
    exact ⟨hstate, hlevel, nofun⟩
  · rw [if_neg hslash] at hstate
    rw [if_neg fun h => hslash h.2]
    by_cases hstar : c = chr '*'
    · rw [if_pos ⟨rfl, hstar⟩]
      rw [if_pos hstar] at hstate
      exact ⟨hstate, hlevel, nofun⟩
    · rw [if_neg hstar] at hstate
      have hno : chr '/' ≠ chr '%' := by decide
      rw [if_neg fun h => hstar h.2, if_neg fun h => hno h.1, if_neg fun h => hno h.1, if_neg fun h => hno h.1,
        ofText_of_ne (fun h => hslip (.inl ⟨rfl, .inl h⟩)) (fun h => hslip (.inl ⟨rfl, .inr (.inl h)⟩))]
      refine fits_ordinary hlevel ?_
      rw [hstate, if_neg hslash, if_neg fun h => hslip (.inl ⟨rfl, .inr (.inr h)⟩)]

theorem percent_fits (hlevel : p.dlevel = 0) (hslip : ¬ (ordinary (chr '%')).Slips c) :
    (next (ordinary (chr '%')) c).Fits (p.percent t c) := by
  have hno : chr '%' ≠ chr '/' := by decide
  rw [Locals.percent, next, if_neg fun h => hno h.1, if_neg fun h => hno h.1]
  by_cases hbrace : c = chr '\x7b'
  · rw [if_pos hbrace, if_pos ⟨rfl, hbrace⟩]
    exact ⟨rfl, hlevel, by rintro _ ⟨⟩⟩
  · rw [if_neg hbrace, if_neg fun h => hbrace h.2]
    by_cases hhash : c = chr '#'
    · subst hhash
      rw [if_pos rfl, if_pos ⟨rfl, rfl⟩]
      exact ⟨rfl, hlevel, by rintro _ ⟨⟩⟩
    · rw [if_neg hhash, if_neg fun h => hhash h.2]
      by_cases hid : isidentifier c = true
      · rw [if_pos hid, if_pos ⟨rfl, hid⟩]
        refine ⟨rfl, hlevel, fun name h => ?_⟩
        cases h
        rfl
      · rw [if_neg hid, if_neg fun h => hid h.2,
          ofText_of_ne (fun h => hslip (.inr ⟨rfl, .inl h⟩)) (fun h => hslip (.inr ⟨rfl, .inr (.inl h)⟩))]
        refine fits_ordinary hlevel ?_
        rw [if_neg fun h => hslip (.inr ⟨rfl, .inr (.inr (.inr h))⟩),
          if_neg fun h => hslip (.inr ⟨rfl, .inr (.inr (.inl h))⟩)]
        rfl

/-! ### The body of a `%define` -/

theorem begun_iff {w : List Byte} : begun w = true ↔ w <+: lit "enddef" ∨ w <+: lit "define" := by
  rw [begun, Bool.or_eq_true, List.isPrefixOf_iff_prefix, List.isPrefixOf_iff_prefix]

theorem begun_of_append {w v : List Byte} (h : begun (w ++ v) = true) : begun w = true :=
  begun_iff.mpr ((begun_iff.mp h).imp (List.prefix_append w v).trans (List.prefix_append w v).trans)

theorem begun_length {w : List Byte} (h : begun w = true) : w.length ≤ 6 :=
  (begun_iff.mp h).elim (·.length_le) (·.length_le)

theorem begun_alpha {w : List Byte} (h : begun w = true) : ∀ c ∈ w, isalpha c = true :=
  (begun_iff.mp h).elim (fun hw c hc => (List.all_eq_true.mp rfl : ∀ c ∈ lit "enddef", isalpha c = true) c (hw.subset hc))
    (fun hw c hc => (List.all_eq_true.mp rfl : ∀ c ∈ lit "define", isalpha c = true) c (hw.subset hc))

theorem begun_append_of_not_alpha (w : List Byte) (h : isalpha c = false) : begun (w ++ [c]) = false := by
  rw [Bool.eq_false_iff]
  intro hbegun
  have hc := begun_alpha hbegun c (List.mem_append_right w (List.mem_singleton_self c))
  rw [h] at hc
  cases hc

theorem not_alpha_of_space : ∀ c : Byte, isspace c = true → isalpha c = false := by decide +kernel

theorem begun_whole {w : List Byte} (h : begun w = true) (hlen : w.length = 6) : w = lit "enddef" ∨ w = lit "define" :=
  (begun_iff.mp h).imp (·.eq_of_length hlen) (·.eq_of_length hlen)

theorem fits_define {level : ℕ} {name : Option (List Byte)} (hlevel : p.dlevel = level) (hpos : 1 ≤ level)
    (hstate : p.state = defineState name) : (define level name).Fits p := ⟨⟨hpos, hstate⟩, hlevel, nofun⟩

/-- Where no word is begun, or more than one of the words is read. -/
theorem define_fits {level : ℕ} {name : Option (List Byte)} (hlevel : p.dlevel = level) (hpos : 1 ≤ level)
    (hspace : isspace c = true → name ≠ some (lit "enddef") ∧ name ≠ some (lit "define"))
    (hname : ∀ w ∈ name, begun (w ++ [c]) = false) : (inDefine level name c).Fits (p.define c) := by
  rw [Locals.define, inDefine]
  by_cases hpercent : c = chr '%'
  · rw [if_pos hpercent, if_pos hpercent]
    exact fits_define hlevel hpos rfl
  · rw [if_neg hpercent, if_neg hpercent]
    by_cases hblank : isspace c = true
    · rw [if_pos hblank, if_neg (hspace hblank).1, if_neg (hspace hblank).2]
      exact fits_define hlevel hpos rfl
    · rw [if_neg hblank]
      refine fits_define hlevel hpos ?_
      cases name with
      | none => rfl
      | some w =>
          rw [Option.map_some, defineState, if_neg (Bool.eq_false_iff.mp (hname w rfl))]
          rfl

theorem defineWord_fits {level : ℕ} {w : List Byte} (hlevel : p.dlevel = level) (hpos : 1 ≤ level)
    (hlen : w.length < 6) (hpercent : c ≠ chr '%') : (inDefine level (some w) c).Fits (p.defineWord w c) := by
  have hwhole {v : List Byte} (hv : v.length = 6) : some w ≠ some v := by
    rintro h
    cases h
    omega
  have hstate : (p.defineWord w c).state = defineState (some (w ++ [c])) := by
    rw [Locals.defineWord, defineState]
    cases hmore : begun (w ++ [c]) with
    | true =>
        rw [begun, Bool.or_eq_true] at hmore
        dsimp only [Locals.goto]
        rw [if_neg, if_pos rfl]
        rcases hmore with h | h <;> simp [h]
    | false =>
        rw [begun, Bool.or_eq_false_iff] at hmore
        dsimp only [Locals.goto]
        rw [if_pos, if_neg Bool.false_ne_true]
        rw [hmore.1, hmore.2]
        rfl
  rw [inDefine, if_neg hpercent]
  by_cases hblank : isspace c = true
  · rw [if_pos hblank, if_neg (hwhole rfl), if_neg (hwhole rfl)]
    refine fits_define hlevel hpos ?_
    have hnot := begun_append_of_not_alpha w (not_alpha_of_space c hblank)
    exact hstate.trans (if_neg (Bool.eq_false_iff.mp hnot))
  · rw [if_neg hblank]
    exact fits_define hlevel hpos hstate

theorem defineEnd_fits {level : ℕ} {w : List Byte} (hlevel : p.dlevel = level) (hpos : 1 ≤ level)
    (hbegun : begun w = true) (hlen : w.length = 6) : (inDefine level (some w) c).Fits (p.defineEnd t w c) := by
  rw [Locals.defineEnd]
  split
  · rename_i hblank
    have hpercent : c ≠ chr '%' := by
      rintro rfl
      exact absurd hblank (by decide)
    rw [inDefine, if_neg hpercent, if_pos hblank]
    rcases begun_whole hbegun hlen with rfl | rfl
    · have hword : lit "enddef" ≠ lit "define" := by decide
      rw [if_pos rfl, if_neg hword]
      by_cases hlast : level ≤ 1
      · have hzero : p.dlevel - 1 = 0 := by omega
        have hhash : c ≠ chr '#' := by
          rintro rfl
          exact absurd hblank (by decide)
        rw [if_pos hzero, if_pos hlast, Locals.firstColumn, if_neg hhash, if_pos hblank]
        by_cases hnewline : c = chr '\n'
        · rw [if_pos hnewline]
          exact fits_firstColumn rfl hzero
        · rw [if_neg hnewline]
          exact ⟨rfl, hzero, by rintro _ ⟨⟩⟩
      · rw [if_neg hlast, if_neg (show ¬ p.dlevel - 1 = 0 by omega), Locals.define, if_neg hpercent]
        exact fits_define (by dsimp only [Locals.putValue, Locals.goto]; omega) (by omega) rfl
    · have hword : some (lit "define") ≠ some (lit "enddef") := by decide
      rw [if_pos rfl, if_neg hword, if_pos rfl, Locals.define, if_neg hpercent]
      exact fits_define (by dsimp only [Locals.putValue, Locals.goto]; omega) (by omega) rfl
  · rename_i hblank
    refine define_fits hlevel hpos (fun h => absurd h hblank) fun v hv => ?_
    cases hv
    rw [Bool.eq_false_iff]
    intro h
    have := begun_length h
    rw [List.length_append, hlen, List.length_singleton] at this
    omega

/-! ### Directives -/

theorem directive_fits (hlevel : p.dlevel = 0) (h : p.directive t = some q) : lineStart.Fits q := by
  rw [Locals.directive] at h
  split at h
  · cases h
    exact fits_firstColumn rfl hlevel
  · obtain ⟨r, -, rfl⟩ := Option.map_eq_some_iff.mp h
    exact fits_firstColumn rfl hlevel

/-- Behind a byte of a directive that nothing goes on with. -/
theorem next_directive {last : Byte} (hslash : last ≠ chr '/') (hescape : c = chr '\n' → last ≠ chr '\\') :
    next (.directive last) c =
      if c = chr '\n' then .lineStart else if isQuote c then .directiveLiteral c false else .directive c := by
  have hno (d : Byte) : ¬ (last = chr '/' ∧ c = d) := fun h => hslash h.1
  rw [next, if_neg (hno (chr '/')), if_neg (hno (chr '*'))]
  split
  · rw [if_neg (hescape ‹_›)]
  · rfl

theorem readValue_fits {last : Byte} (hlevel : p.dlevel = 0) (hslash : last ≠ chr '/')
    (hescape : c = chr '\n' → last ≠ chr '\\') (h : p.readValue t c = some q) : (next (.directive last) c).Fits q := by
  rw [next_directive hslash hescape]
  rw [Locals.readValue] at h
  split
  · rw [if_pos ‹_›] at h
    exact directive_fits hlevel h
  · rename_i hnewline
    rw [if_neg hnewline] at h
    split at h
    · rename_i hc
      cases h
      subst hc
      exact ⟨rfl, hlevel, by rintro _ ⟨⟩⟩
    · rename_i hc
      split
      · rename_i hquote
        rw [if_pos hquote] at h
        cases h
        exact ⟨rfl, hlevel, by rintro _ ⟨⟩⟩
      · rename_i hquote
        rw [if_neg hquote] at h
        cases h
        refine ⟨?_, hlevel, by rintro _ ⟨⟩⟩
        rw [Admits, if_neg hc]
        by_cases hback : c = chr '\\'
        · rw [if_pos hback, if_pos hback]
          rfl
        · rw [if_neg hback, if_neg hback]
          simp [Locals.goto]

/-- A blank or a letter goes on with nothing. -/
theorem next_directive_quiet {last : Byte} (hslash : last ≠ chr '/') (hc : isspace c = true ∨ isalpha c = true)
    (hnewline : c ≠ chr '\n') : next (.directive last) c = .directive c := by
  have hquote : ¬ isQuote c := by
    rintro (rfl | rfl) <;> exact absurd hc (by decide)
  rw [next_directive hslash (absurd · hnewline), if_neg hnewline, if_neg hquote]

theorem quiet_fits (hlevel : p.dlevel = 0) (hc : isspace c = true ∨ isalpha c = true)
    (hstate : p.state ∈ [.hash, .name, .beforeValue, .value]) : (directive c).Fits p := by
  refine fits_directive ?_ ?_ hstate hlevel
  · rintro rfl
    exact absurd hc (by decide)
  · rintro rfl
    exact absurd hc (by decide)

theorem beforeValue_fits {last : Byte} (hlevel : p.dlevel = 0) (hslash : last ≠ chr '/') (hescape : last ≠ chr '\\')
    (h : p.beforeValue t c = some q) : (next (.directive last) c).Fits q := by
  rw [Locals.beforeValue] at h
  split at h
  · rename_i hblank
    split at h
    · rename_i hnewline
      rw [next_directive hslash fun _ => hescape, if_pos hnewline]
      exact directive_fits hlevel h
    · rename_i hnewline
      cases h
      rw [next_directive_quiet hslash (.inl hblank) hnewline]
      exact quiet_fits hlevel (.inl hblank) (by simp [Locals.goto])
  · exact readValue_fits hlevel hslash (fun _ => hescape) h

theorem name_fits {last : Byte} (hlevel : p.dlevel = 0) (hslash : last ≠ chr '/') (hescape : last ≠ chr '\\')
    (h : p.name t c = some q) : (next (.directive last) c).Fits q := by
  rw [Locals.name] at h
  split at h
  · dsimp only at h
    split at h
    · rename_i hnewline
      rw [next_directive hslash fun _ => hescape, if_pos hnewline]
      exact directive_fits (p := { p with value := [], comment := [] }) hlevel h
    · rename_i hnewline
      split at h
      · rename_i hblank
        cases h
        rw [next_directive_quiet hslash (.inl hblank) hnewline]
        exact quiet_fits hlevel (.inl hblank) (by simp [Locals.goto])
      · exact beforeValue_fits (p := { p with value := [], comment := [] }) hlevel hslash hescape h
  · rename_i hletter
    have halpha : isalpha c = true := by
      have hboth : isspace c = false ∧ isalpha c = true := by simpa using hletter
      exact hboth.2
    have hnewline : c ≠ chr '\n' := by
      rintro rfl
      exact absurd halpha (by decide)
    cases h
    rw [next_directive_quiet hslash (.inr halpha) hnewline]
    exact quiet_fits hlevel (.inr halpha) (by simp)

theorem hash_fits {last : Byte} (hlevel : p.dlevel = 0) (hstate : p.state = .hash) (hslash : last ≠ chr '/')
    (hescape : last ≠ chr '\\') (h : p.hash t c = some q) : (next (.directive last) c).Fits q := by
  rw [Locals.hash] at h
  split at h
  · rename_i hnewline
    cases h
    rw [next_directive hslash fun _ => hescape, if_pos hnewline]
    exact fits_firstColumn rfl hlevel
  · rename_i hnewline
    split at h
    · rename_i hblank
      cases h
      rw [next_directive_quiet hslash (.inl hblank) hnewline]
      exact quiet_fits hlevel (.inl hblank) (by simp [hstate])
    · exact name_fits (p := { p with id := [], idLine := p.line }) hlevel hslash hescape h

theorem valueEscape_fits (hlevel : p.dlevel = 0) (h : p.valueEscape t c = some q) :
    (next (.directive (chr '\\')) c).Fits q := by
  rw [Locals.valueEscape] at h
  split at h
  · rename_i hnewline
    cases h
    subst hnewline
    exact fits_directive (by decide) (by decide) (by simp) hlevel
  · exact readValue_fits hlevel (by decide) (absurd · ‹_›) h

theorem valueSlash_fits (hlevel : p.dlevel = 0) (hslip : ¬ (directive (chr '/')).Slips c)
    (h : p.valueSlash t c = some q) : (next (.directive (chr '/')) c).Fits q := by
  rw [Locals.valueSlash] at h
  split at h
  · rename_i hc
    cases h
    subst hc
    exact ⟨rfl, hlevel, by rintro _ ⟨⟩⟩
  · rename_i hslash
    split at h
    · rename_i hc
      cases h
      subst hc
      exact ⟨rfl, hlevel, by rintro _ ⟨⟩⟩
    · rename_i hstar
      split at h
      · rename_i hc
        subst hc
        exact directive_fits (p := { p.putValue (chr '/') with cppLines := p.cppLines + 1 }) hlevel h
      · rename_i hnewline
        cases h
        rw [next, if_neg hnewline, if_neg fun h => hslip ⟨rfl, .inl h⟩, if_neg fun h => hslash h.2,
          if_neg fun h => hstar h.2]
        exact fits_directive hslash (fun h => hslip ⟨rfl, .inr h⟩) (by simp [Locals.goto]) hlevel

/-! ### One round -/

theorem swigName_fits {name : List Byte} (hlevel : p.dlevel = 0) (hstate : p.state = .swigName)
    (hdecl : p.decl = chr '%' :: name) (h : p.swigName t c = some q) : (next (.word name) c).Fits q := by
  have hdefine : name = lit "define" ↔ p.decl = lit "%define" := by
    rw [hdecl, show lit "%define" = chr '%' :: lit "define" from rfl, List.cons_inj_right]
  rw [Locals.swigName] at h
  rw [next]
  split
  · rw [if_pos ‹_›] at h
    cases h
    refine ⟨hstate, hlevel, fun n hn => ?_⟩
    cases hn
    dsimp only
    rw [hdecl, List.cons_append]
  · rename_i hid
    rw [if_neg hid] at h
    split at h
    · rename_i hfile
      have hname : name ≠ lit "define" := by
        rw [ne_eq, hdefine]
        intro hd
        rw [hd] at hfile
        exact absurd hfile (by decide)
      rw [if_neg hname]
      split at h
      · cases h
      · cases h
        exact text_fits hlevel c
    · split at h
      · rename_i hline
        have hname : name ≠ lit "define" := by
          rw [ne_eq, hdefine, hline]
          decide
        rw [if_neg hname]
        cases h
        exact text_fits hlevel c
      · split at h
        · rename_i hd
          rw [if_pos (hdefine.mpr hd)]
          cases h
          exact define_fits (congrArg (· + 1) hlevel) le_rfl (fun _ => ⟨by rintro ⟨⟩, by rintro ⟨⟩⟩)
            (by rintro _ ⟨⟩)
        · rename_i hd
          rw [if_neg (mt hdefine.mp hd)]
          cases h
          exact text_fits (p := { p with chunk := p.chunk ++ p.decl }) hlevel c

theorem dispatch_fits {ctx : Context} (h : ctx.Fits p) (hslip : ¬ ctx.Slips c) (hq : p.dispatch t c = some q) :
    (ctx.next c).Fits q := by
  obtain ⟨hstate, hlevel, hdecl⟩ := h
  rw [Locals.dispatch] at hq
  cases ctx with
  | lineStart =>
      rw [show p.state = .firstColumn from hstate] at hq
      cases hq
      exact firstColumn_fits hlevel c
  | behindDefine =>
      rw [show p.state = .firstColumn from hstate] at hq
      cases hq
      exact behindDefine_fits hlevel hslip
  | ordinary last =>
      rw [Admits] at hstate
      split at hstate
      · rename_i hlast
        subst hlast
        rw [hstate] at hq
        cases hq
        exact slash_fits hlevel hslip rfl
      · rename_i hslash
        split at hstate
        · rename_i hlast
          subst hlast
          rw [hstate] at hq
          cases hq
          exact percent_fits hlevel hslip
        · rename_i hpercent
          rw [hstate] at hq
          cases hq
          rw [next, if_neg fun h => hslash h.1, if_neg fun h => hslash h.1, if_neg fun h => hpercent h.1,
            if_neg fun h => hpercent h.1, if_neg fun h => hpercent h.1]
          exact text_fits hlevel c
  | literal ch escaped =>
      cases escaped with
      | true =>
          rw [show p.state = .literalEscape ch from hstate] at hq
          cases hq
          exact ⟨rfl, hlevel, by rintro _ ⟨⟩⟩
      | false =>
          rw [show p.state = .literal ch from hstate] at hq
          cases hq
          rw [next]
          split
          · exact fits_plain rfl hlevel
          · refine ⟨?_, hlevel, by rintro _ ⟨⟩⟩
            simp only [Admits, Locals.goto, beq_iff_eq]
  | lineComment =>
      rw [show p.state = .lineComment from hstate] at hq
      cases hq
      rw [next]
      split
      · exact fits_firstColumn rfl hlevel
      · exact ⟨rfl, hlevel, by rintro _ ⟨⟩⟩
  | blockComment star =>
      cases star with
      | true =>
          rw [show p.state = .blockStar from hstate] at hq
          cases hq
          rw [next]
          by_cases hslash : c = chr '/'
          · rw [if_pos (by rw [hslash]; rfl)]
            exact fits_plain (if_pos hslash) hlevel
          · rw [Bool.true_and, if_neg (mt beq_iff_eq.mp hslash)]
            refine ⟨?_, hlevel, by rintro _ ⟨⟩⟩
            simp only [Admits, Locals.goto, if_neg hslash, beq_iff_eq]
      | false =>
          rw [show p.state = .blockComment from hstate] at hq
          cases hq
          rw [next, Bool.false_and, if_neg Bool.false_ne_true]
          refine ⟨?_, hlevel, by rintro _ ⟨⟩⟩
          simp only [Admits, Locals.goto, beq_iff_eq]
  | word name =>
      have hswig : p.state = .swigName := hstate
      rw [hswig] at hq
      exact swigName_fits hlevel hswig (hdecl name rfl) hq
  | block percent =>
      cases percent with
      | true =>
          have hpercent : c ≠ chr '%' := fun h => hslip ⟨rfl, h⟩
          rw [show p.state = .blockPercent from hstate] at hq
          cases hq
          rw [next, Bool.true_and]
          by_cases hbrace : c = chr '\x7d'
          · rw [if_pos hbrace, if_pos (beq_iff_eq.mpr hbrace)]
            exact fits_plain rfl hlevel
          · rw [if_neg hbrace, if_neg (mt beq_iff_eq.mp hbrace), beq_eq_false_iff_ne.mpr hpercent]
            exact ⟨rfl, hlevel, by rintro _ ⟨⟩⟩
      | false =>
          rw [show p.state = .block from hstate] at hq
          cases hq
          rw [next, Bool.false_and, if_neg Bool.false_ne_true]
          refine ⟨?_, hlevel, by rintro _ ⟨⟩⟩
          simp only [Admits, Locals.goto, beq_iff_eq]
  | percentLine last =>
      rw [Admits] at hstate
      split at hstate
      · rename_i hlast
        have hback : c ≠ chr '\\' := fun h => hslip ⟨hlast, h⟩
        rw [hstate] at hq
        cases hq
        rw [next, if_neg fun h => h.2 hlast]
        exact ⟨(if_neg hback).symm, hlevel, by rintro _ ⟨⟩⟩
      · rename_i hlast
        rw [hstate] at hq
        dsimp only at hq
        rw [next]
        split
        · rename_i hc
          rw [if_pos hc.1] at hq
          cases hq
          exact fits_firstColumn rfl hlevel
        · rename_i hc
          rw [if_neg fun h => hc ⟨h, hlast⟩] at hq
          cases hq
          exact ⟨rfl, hlevel, by rintro _ ⟨⟩⟩
  | define level name =>
      obtain ⟨hpos, hstate⟩ := hstate
      cases name with
      | none =>
          rw [show p.state = .define from hstate] at hq
          cases hq
          exact define_fits hlevel hpos (fun _ => ⟨by rintro ⟨⟩, by rintro ⟨⟩⟩) (by rintro _ ⟨⟩)
      | some w =>
          rw [defineState] at hstate
          split at hstate
          · rename_i hbegun
            split at hstate
            · rw [hstate] at hq
              cases hq
              exact defineEnd_fits hlevel hpos hbegun ‹_›
            · rename_i hlen
              have hlt : w.length < 6 := lt_of_le_of_ne (begun_length hbegun) hlen
              rw [hstate] at hq
              cases hq
              exact defineWord_fits hlevel hpos hlt fun h => hslip ⟨h, w, rfl, hbegun, hlt⟩
          · rename_i hbegun
            rw [hstate] at hq
            cases hq
            refine define_fits hlevel hpos (fun _ => ⟨?_, ?_⟩) fun v hv => ?_
            · rintro ⟨⟩
              exact hbegun rfl
            · rintro ⟨⟩
              exact hbegun rfl
            · cases hv
              exact Bool.eq_false_iff.mpr (mt begun_of_append hbegun)
  | directive last =>
      rw [Admits] at hstate
      split at hstate
      · rename_i hlast
        subst hlast
        rw [hstate] at hq
        exact valueSlash_fits hlevel hslip hq
      · rename_i hslash
        split at hstate
        · rename_i hlast
          subst hlast
          rw [hstate] at hq
          exact valueEscape_fits hlevel hq
        · rename_i hescape
          simp only [List.mem_cons, List.not_mem_nil, or_false] at hstate
          rcases hstate with hstate | hstate | hstate | hstate
          · rw [hstate] at hq
            exact hash_fits hlevel hstate hslash hescape hq
          · rw [hstate] at hq
            exact name_fits hlevel hslash hescape hq
          · rw [hstate] at hq
            exact beforeValue_fits hlevel hslash hescape hq
          · rw [hstate] at hq
            exact readValue_fits hlevel hslash (fun _ => hescape) hq
  | directiveLiteral ch escaped =>
      cases escaped with
      | true =>
          rw [show p.state = .valueLiteralEscape ch from hstate] at hq
          cases hq
          exact ⟨rfl, hlevel, by rintro _ ⟨⟩⟩
      | false =>
          rw [show p.state = .valueLiteral ch from hstate] at hq
          cases hq
          rw [next]
          split
          · rename_i hc
            exact fits_directive (by decide) (by decide) (by simp [Locals.goto, hc]) hlevel
          · refine ⟨?_, hlevel, by rintro _ ⟨⟩⟩
            simp only [Admits, Locals.goto, beq_iff_eq]
  | directiveLineComment =>
      rw [show p.state = .valueLineComment from hstate] at hq
      dsimp only [Locals.valueLineComment] at hq
      rw [next]
      split
      · rw [if_pos ‹_›] at hq
        exact directive_fits (p := { p with cppLines := p.cppLines + 1 }) hlevel hq
      · rw [if_neg ‹_›] at hq
        cases hq
        exact ⟨hstate, hlevel, by rintro _ ⟨⟩⟩
  | directiveBlockComment star =>
      cases star with
      | true =>
          rw [show p.state = .valueBlockStar from hstate] at hq
          cases hq
          rw [next, Bool.true_and, Locals.valueBlockStar]
          by_cases hslash : c = chr '/'
          · rw [if_pos hslash, if_pos (beq_iff_eq.mpr hslash)]
            exact fits_directive (by decide) (by decide) (by simp [Locals.goto]) hlevel
          · rw [if_neg hslash, if_neg (mt beq_iff_eq.mp hslash)]
            by_cases hstar : c = chr '*'
            · rw [if_pos hstar, beq_iff_eq.mpr hstar]
              exact ⟨hstate, hlevel, by rintro _ ⟨⟩⟩
            · rw [if_neg hstar, beq_eq_false_iff_ne.mpr hstar]
              exact ⟨rfl, hlevel, by rintro _ ⟨⟩⟩
      | false =>
          rw [show p.state = .valueBlockComment from hstate] at hq
          cases hq
          rw [next, Bool.false_and, if_neg Bool.false_ne_true]
          by_cases hstar : c = chr '*'
          · rw [if_pos hstar, beq_iff_eq.mpr hstar]
            exact ⟨rfl, hlevel, by rintro _ ⟨⟩⟩
          · rw [if_neg hstar, beq_eq_false_iff_ne.mpr hstar]
            exact ⟨hstate, hlevel, by rintro _ ⟨⟩⟩

end Context

end Swig.Preprocessor
