import Swig.DOH.Text
import Swig.Preprocessor.MacroReplace

/-!
`find_args` (`cpp.c`) on a string with its read position, and the argument lists of the
language that it reads.
-/

namespace Swig

namespace Text

/-- `String_ungetc`. -/
def ungetc (t : Text) (c : Byte) : Text :=
  if t.sp = 0 then t else { t with sp := t.sp - 1, line := if c = chr '\n' then t.line - 1 else t.line }

/-- The loop of `skip_whitespace`. -/
def skipWhitespaceFrom : ℕ → Text → Text
  | 0, t => t
  | n + 1, t =>
      match t.getc with
      | (none, t) => t
      | (some c, t) => if isspace c then skipWhitespaceFrom n t else t.ungetc c

/-- `skip_whitespace`, with nothing put out. -/
def skipWhitespace (t : Text) : Text := skipWhitespaceFrom (t.data.length + 1) t

/-- The loop of `skip_tochar`, with what is put out. -/
def skipTocharFrom (ch : Byte) : ℕ → Text → List Byte × Text
  | 0, t => ([], t)
  | n + 1, t =>
      match t.getc with
      | (none, t) => ([], t)
      | (some c, t) =>
          if c = ch then ([c], t)
          else if c = chr '\\' then
            match t.getc with
            | (none, t) => ([c], t)
            | (some d, t) => (c :: d :: (skipTocharFrom ch n t).1, (skipTocharFrom ch n t).2)
          else (c :: (skipTocharFrom ch n t).1, (skipTocharFrom ch n t).2)

/-- `skip_tochar`. -/
def skipTochar (t : Text) (ch : Byte) : List Byte × Text := skipTocharFrom ch (t.data.length + 1) t

end Text

namespace Preprocessor

/-- The inner loop of `find_args`: `level`, `str`, `c` and the string behind it. -/
def readArgument : ℕ → ℕ → List Byte → Option Byte → Text → ℕ × List Byte × Option Byte × Text
  | 0, level, str, c, t => (level, str, c, t)
  | _ + 1, level, str, none, t => (level, str, none, t)
  | n + 1, level, str, some c, t =>
      if c = chr '"' ∨ c = chr '\'' then
        let (u, t) := t.skipTochar c
        let (d, t) := t.getc
        readArgument n level (str ++ c :: u) d t
      else if c = chr ',' ∧ level = 0 then (level, str, some c, t)
      else if c = chr ')' ∧ level = 0 then (level, str, some c, t)
      else
        let (d, t) := t.getc
        readArgument n (if c = chr '(' then level + 1 else if c = chr ')' then level - 1 else level) (str ++ [c]) d t

/-- The outer loop of `find_args`. -/
def readArguments : ℕ → List (List Byte) → Option Byte → Text → List (List Byte) × Text
  | 0, args, _, t => (args, t)
  | _ + 1, args, none, t => (args, t)
  | n + 1, args, some c, t =>
      let (c, t) := if isspace c then t.skipWhitespace.getc else (some c, t)
      let (level, str, c, t) := readArgument (t.data.length + 2) 0 [] c t
      if 0 < level then (args, t)
      else if c = some (chr ')') then (addArg args str, t)
      else readArguments n (addArg args str) t.getc.1 t.getc.2

/-- `find_args`: `none` is a null pointer. -/
def findArgsText (t : Text) : Option (List (List Byte)) × Text :=
  match t.skipWhitespace.getc with
  | (none, u) => (none, u.seek t.sp .set)
  | (some c, u) =>
      if c ≠ chr '(' then (none, u.seek t.sp .set)
      else
        let r := readArguments (t.data.length + 2) [] u.getc.1 u.getc.2
        (some r.1, r.2)

example : (findArgsText (.ofBytes (lit " (a, f(b,c) ,\")\")x"))) =
    (some [lit "a", lit "f(b,c)", lit "\")\""], ⟨lit " (a, f(b,c) ,\")\")x", 17, 1⟩) := by
  decide +kernel

/-! ### Reading a string byte by byte -/

end Preprocessor

namespace Text

/-- The string holds `d`, and `s` of it is not read yet. -/
structure On (t : Text) (d s : List Byte) : Prop where
  data : t.data = d
  rest : t.rest = s
  sp : t.sp + s.length = d.length

variable {t : Text} {d s : List Byte} {c ch : Byte} {n : ℕ}

theorem On.length_le (h : t.On d s) : s.length ≤ t.data.length := by
  rw [h.data, ← h.sp]
  exact Nat.le_add_left ..

theorem On.getc_nil (h : t.On d []) : t.getc = (none, t) := getc_of_rest_nil h.rest

theorem On.getc_cons (h : t.On d (c :: s)) : ∃ u, t.getc = (some c, u) ∧ u.On d s ∧ u.ungetc c = t := by
  refine ⟨_, getc_of_rest_cons h.rest, ⟨h.data, rest_succ h.rest _, ?_⟩, ?_⟩
  · rw [← h.sp, List.length_cons]
    exact Nat.add_right_comm t.sp 1 s.length
  rw [ungetc, if_neg (Nat.succ_ne_zero _)]
  by_cases hc : c = chr '\n'
  · simp [hc]
  · simp [hc]

theorem On.skipWhitespaceFrom (h : t.On d s) (hn : s.length < n) :
    (Text.skipWhitespaceFrom n t).On d (s.dropWhile isspace) := by
  induction n generalizing t s with
  | zero => exact absurd hn (Nat.not_lt_zero _)
  | succ n ih =>
      rw [Text.skipWhitespaceFrom]
      cases s with
      | nil =>
          rw [h.getc_nil]
          exact h
      | cons c s =>
          obtain ⟨u, hget, hu, hback⟩ := h.getc_cons
          rw [hget]
          dsimp only
          by_cases hc : isspace c = true
          · rw [if_pos hc, List.dropWhile_cons_of_pos hc]
            exact ih hu (Nat.lt_of_succ_lt_succ hn)
          · rw [if_neg hc, List.dropWhile_cons_of_neg hc, hback]
            exact h

theorem On.skipWhitespace (h : t.On d s) : t.skipWhitespace.On d (s.dropWhile isspace) :=
  h.skipWhitespaceFrom (Nat.lt_succ_of_le h.length_le)

theorem On.skipTocharFrom (h : t.On d s) (hn : s.length < n) :
    (Text.skipTocharFrom ch n t).1 = (Preprocessor.skipTochar ch s).1 ∧
      (Text.skipTocharFrom ch n t).2.On d (Preprocessor.skipTochar ch s).2 := by
  induction n generalizing t s with
  | zero => exact absurd hn (Nat.not_lt_zero _)
  | succ n ih =>
      rw [Text.skipTocharFrom]
      cases s with
      | nil =>
          rw [h.getc_nil]
          exact ⟨rfl, h⟩
      | cons c s =>
          obtain ⟨u, hget, hu, -⟩ := h.getc_cons
          rw [hget, Preprocessor.skipTochar.eq_def]
          dsimp only
          by_cases hc : c = ch
          · rw [if_pos hc, if_pos hc]
            exact ⟨rfl, hu⟩
          · rw [if_neg hc, if_neg hc]
            by_cases hb : c = chr '\\'
            · rw [if_pos hb, if_pos hb]
              cases s with
              | nil =>
                  rw [hu.getc_nil]
                  exact ⟨rfl, hu⟩
              | cons e s =>
                  obtain ⟨v, hget, hv, -⟩ := hu.getc_cons
                  rw [hget]
                  dsimp only
                  obtain ⟨htext, hon⟩ := ih hv (by rw [List.length_cons, List.length_cons] at hn; omega)
                  exact ⟨by rw [htext], hon⟩
            · rw [if_neg hb, if_neg hb]
              obtain ⟨htext, hon⟩ := ih hu (Nat.lt_of_succ_lt_succ hn)
              exact ⟨by rw [htext], hon⟩

theorem On.skipTochar (h : t.On d s) (ch : Byte) : (t.skipTochar ch).1 = (Preprocessor.skipTochar ch s).1 ∧
    (t.skipTochar ch).2.On d (Preprocessor.skipTochar ch s).2 :=
  h.skipTocharFrom (Nat.lt_succ_of_le h.length_le)

theorem data_seekForward (t : Text) (n : ℕ) : (t.seekForward n).data = t.data ∧ (t.seekForward n).sp = t.sp + n := by
  induction n generalizing t with
  | zero => exact ⟨rfl, rfl⟩
  | succ n ih =>
      obtain ⟨hdata, hsp⟩ := ih { t with
        sp := t.sp + 1
        line := if t.at_ (t.sp + 1) = chr '\n' then t.line + 1 else t.line }
      exact ⟨hdata, hsp.trans (Nat.add_right_comm t.sp 1 n)⟩

theorem data_seekBackward (t : Text) (n : ℕ) : (t.seekBackward n).data = t.data ∧ (t.seekBackward n).sp = t.sp - n := by
  induction n generalizing t with
  | zero => exact ⟨rfl, rfl⟩
  | succ n ih =>
      obtain ⟨hdata, hsp⟩ := ih { t with
        sp := t.sp - 1
        line := if t.at_ (t.sp - 1) = chr '\n' then t.line - 1 else t.line }
      exact ⟨hdata, hsp.trans (by dsimp only; omega)⟩

/-- Back to a position inside the string. -/
theorem sp_seek_set {i : ℕ} (hi : i ≤ t.data.length) : (t.seek i .set).sp = i := by
  have htarget : t.seekTarget i .set = i := by
    simp only [seekTarget]
    split <;> split <;> omega
  rw [seek, htarget]
  split
  · rw [(data_seekForward t _).2]
    omega
  · rw [(data_seekBackward t _).2]
    omega

end Text

namespace Preprocessor

/-! ### The loops of `find_args` on the text that is left -/

variable {level n m : ℕ} {str s : List Byte} {args : List (List Byte)} {c : Byte}

theorem length_skipTochar_le (ch : Byte) (s : List Byte) : (skipTochar ch s).2.length ≤ s.length :=
  (skipTochar_suffix ch s).length_le

/-- The number of rounds is enough, whatever it is. -/
theorem argLoop_rounds (hn : s.length < n) (hm : s.length < m) :
    argLoop n level str args s = argLoop m level str args s := by
  induction n generalizing m level str args s with
  | zero => exact absurd hn (Nat.not_lt_zero _)
  | succ n ih =>
      obtain ⟨m, rfl⟩ := Nat.exists_eq_succ_of_ne_zero (Nat.ne_of_gt (Nat.zero_lt_of_lt hm))
      cases s with
      | nil => rfl
      | cons c s =>
          replace hn := Nat.lt_of_succ_lt_succ hn
          replace hm := Nat.lt_of_succ_lt_succ hm
          have hskip := length_skipTochar_le c s
          have hdrop := (List.dropWhile_suffix isspace (l := s)).length_le
          rw [argLoop, argLoop]
          split
          · exact ih (by omega) (by omega)
          · split
            · split
              · rfl
              · exact ih (by omega) (by omega)
            · split
              · rfl
              · exact ih hn hm

/-- The arguments and the rest, from inside an argument on. -/
def argsFrom (level : ℕ) (str : List Byte) (args : List (List Byte)) (s : List Byte) :
    List (List Byte) × List Byte :=
  argLoop (s.length + 1) level str args s

theorem argLoop_eq (hn : s.length < n) : argLoop n level str args s = argsFrom level str args s :=
  argLoop_rounds hn (Nat.lt_succ_self _)

theorem argsFrom_nil : argsFrom level str args [] = (if 0 < level then args else addArg args str, []) := rfl

theorem argsFrom_quote (hc : c = chr '"' ∨ c = chr '\'') :
    argsFrom level str args (c :: s) =
      argsFrom level (str ++ c :: (skipTochar c s).1) args (skipTochar c s).2 := by
  rw [argsFrom, List.length_cons, argLoop, if_pos hc]
  exact argLoop_eq (Nat.lt_succ_of_le (length_skipTochar_le c s))

theorem argsFrom_comma (hs : s ≠ []) :
    argsFrom 0 str args (chr ',' :: s) = argsFrom 0 [] (addArg args str) (s.dropWhile isspace) := by
  rw [argsFrom, List.length_cons, argLoop, if_neg (by decide), if_pos ⟨rfl, rfl⟩, if_neg hs]
  exact argLoop_eq (Nat.lt_succ_of_le (List.dropWhile_suffix isspace).length_le)

theorem argsFrom_comma_nil : argsFrom 0 str args [chr ','] = (addArg args str, []) := rfl

theorem argsFrom_close : argsFrom 0 str args (chr ')' :: s) = (addArg args str, s) := by
  rw [argsFrom, List.length_cons, argLoop, if_neg (by decide), if_neg (by decide), if_pos ⟨rfl, rfl⟩]

/-- Any other byte is taken into the argument. -/
theorem argsFrom_other (hquote : ¬ (c = chr '"' ∨ c = chr '\'')) (hcomma : ¬ (c = chr ',' ∧ level = 0))
    (hclose : ¬ (c = chr ')' ∧ level = 0)) :
    argsFrom level str args (c :: s) =
      argsFrom (if c = chr '(' then level + 1 else if c = chr ')' then level - 1 else level)
        (str ++ [c]) args s := by
  rw [argsFrom, List.length_cons, argLoop, if_neg hquote, if_neg hcomma, if_neg hclose]
  rfl

/-- The string behind a character that was read, if there was one. -/
theorem On.getc {d : List Byte} {t : Text} (h : t.On d s) :
    ∃ s', t.getc.2.On d s' ∧ s = t.getc.1.toList ++ s' ∧ (t.getc.1 = none → s' = []) := by
  cases s with
  | nil =>
      rw [h.getc_nil]
      exact ⟨[], h, rfl, fun _ => rfl⟩
  | cons c s =>
      obtain ⟨u, hget, hu, -⟩ := h.getc_cons
      rw [hget]
      exact ⟨s, hu, rfl, nofun⟩

/-- What the inner loop leaves: the text behind it, and the byte that ended it. -/
structure Broken (d : List Byte) (size level : ℕ) (c : Option Byte) (t : Text) (s : List Byte) : Prop where
  on : t.On d s
  ended : c = none → s = []
  byte : ∀ b ∈ c, (b = chr ',' ∨ b = chr ')') ∧ level = 0 ∧ s.length < size

/-- The inner loop of `find_args` takes the text up to a comma or a parenthesis outside
of the open ones, or up to the end. -/
theorem readArgument_broken (level : ℕ) (str : List Byte) {d : List Byte} {t : Text} {c : Option Byte} (ht : t.On d s) (hc : c = none → s = [])
    (hn : (c.toList ++ s).length < n) :
    ∃ s' level' str' c' t', readArgument n level str c t = (level', str', c', t') ∧
      Broken d (c.toList ++ s).length level' c' t' s' ∧
      ∀ args, argsFrom level str args (c.toList ++ s) = argsFrom level' str' args (c'.toList ++ s') := by
  induction n generalizing level str c t s with
  | zero => exact absurd hn (Nat.not_lt_zero _)
  | succ n ih =>
      cases c with
      | none => exact ⟨s, level, str, none, t, rfl, ⟨ht, hc, nofun⟩, fun _ => rfl⟩
      | some c =>
          replace hn : s.length < n := Nat.lt_of_succ_lt_succ hn
          -- the rounds behind this one start at the next character of `u`
          have hnext {u : Text} {r : List Byte} (hu : u.On d r) (hr : r.length ≤ s.length) (level : ℕ)
              (str : List Byte) : ∃ s' level' str' c' t',
                readArgument n level str u.getc.1 u.getc.2 = (level', str', c', t') ∧
                Broken d (s.length + 1) level' c' t' s' ∧
                ∀ args, argsFrom level str args r = argsFrom level' str' args (c'.toList ++ s') := by
            obtain ⟨r', hon, rfl, hend⟩ := On.getc hu
            obtain ⟨s', level', str', c', t', hread, hbroken, hargs⟩ :=
              ih level str hon hend (Nat.lt_of_le_of_lt hr hn)
            refine ⟨s', level', str', c', t', hread, ⟨hbroken.on, hbroken.ended, fun b hb => ?_⟩, hargs⟩
            obtain ⟨hbyte, hlevel, hlen⟩ := hbroken.byte b hb
            exact ⟨hbyte, hlevel, by omega⟩
          rw [readArgument]
          by_cases hquote : c = chr '"' ∨ c = chr '\''
          · rw [if_pos hquote]
            obtain ⟨htext, hon⟩ := ht.skipTochar c
            obtain ⟨s', level', str', c', t', hread, hbroken, hargs⟩ :=
              hnext hon (length_skipTochar_le c s) level (str ++ c :: (t.skipTochar c).1)
            refine ⟨s', level', str', c', t', hread, hbroken, fun args => ?_⟩
            rw [← hargs args, htext]
            exact argsFrom_quote hquote
          · rw [if_neg hquote]
            by_cases hcomma : c = chr ',' ∧ level = 0
            · rw [if_pos hcomma]
              exact ⟨s, level, str, some c, t, rfl, ⟨ht, hc, fun b hb => ⟨.inl (Option.mem_some.mp hb ▸ hcomma.1),
                hcomma.2, Nat.lt_succ_self _⟩⟩, fun _ => rfl⟩
            · rw [if_neg hcomma]
              by_cases hclose : c = chr ')' ∧ level = 0
              · rw [if_pos hclose]
                exact ⟨s, level, str, some c, t, rfl, ⟨ht, hc, fun b hb => ⟨.inr (Option.mem_some.mp hb ▸ hclose.1),
                  hclose.2, Nat.lt_succ_self _⟩⟩, fun _ => rfl⟩
              · rw [if_neg hclose]
                obtain ⟨s', level', str', c', t', hread, hbroken, hargs⟩ := hnext ht le_rfl
                  (if c = chr '(' then level + 1 else if c = chr ')' then level - 1 else level) (str ++ [c])
                refine ⟨s', level', str', c', t', hread, hbroken, fun args => ?_⟩
                rw [← hargs args]
                exact argsFrom_other hquote hcomma hclose

/-- The outer loop of `find_args`, from a character it has read on. -/
theorem readArguments_eq (args : List (List Byte)) (c : Byte) {d : List Byte} {t : Text} (ht : t.On d s) (hn : s.length + 1 < n) :
    (readArguments n args (some c) t).1 = (argsFrom 0 [] args ((c :: s).dropWhile isspace)).1 ∧
      (readArguments n args (some c) t).2.On d (argsFrom 0 [] args ((c :: s).dropWhile isspace)).2 := by
  induction n generalizing args c t s with
  | zero => exact absurd hn (Nat.not_lt_zero _)
  | succ n ih =>
      -- where the argument begins
      obtain ⟨r, c₁, t₁, hskip, hon, hr, hend, hlen⟩ : ∃ r c₁ t₁,
          (if isspace c then t.skipWhitespace.getc else (some c, t)) = (c₁, t₁) ∧ t₁.On d r ∧
          (c :: s).dropWhile isspace = c₁.toList ++ r ∧ (c₁ = none → r = []) ∧
          (c₁.toList ++ r).length ≤ s.length + 1 := by
        have hdrop := (List.dropWhile_suffix isspace (l := s)).length_le
        by_cases hc : isspace c = true
        · obtain ⟨r, hon, hr, hend⟩ := On.getc ht.skipWhitespace
          exact ⟨r, _, _, if_pos hc, hon, (List.dropWhile_cons_of_pos hc).trans hr, hend,
            hr ▸ hdrop.trans (Nat.le_succ _)⟩
        · exact ⟨s, some c, t, if_neg hc, ht, List.dropWhile_cons_of_neg hc, nofun, le_rfl⟩
      rw [readArguments, hskip, hr]
      dsimp only
      have hfuel : (c₁.toList ++ r).length < t₁.data.length + 2 := by
        have := hon.length_le
        rw [List.length_append]
        cases c₁ <;> simp only [Option.toList, List.length_nil, List.length_singleton] <;> omega
      obtain ⟨s', level', str', c', t', hread, hbroken, hargs⟩ := readArgument_broken 0 [] hon hend hfuel
      rw [hread, hargs args]
      dsimp only
      cases c' with
      | none =>
          rw [hbroken.ended rfl, Option.toList_none, List.nil_append, argsFrom_nil]
          have hnil := hbroken.ended rfl ▸ hbroken.on
          by_cases hlevel : 0 < level'
          · rw [if_pos hlevel, if_pos hlevel]
            exact ⟨rfl, hnil⟩
          · rw [if_neg hlevel, if_neg hlevel, if_neg nofun, hnil.getc_nil]
            cases n with
            | zero => exact ⟨rfl, hnil⟩
            | succ n => exact ⟨rfl, hnil⟩
      | some b =>
          obtain ⟨hbyte, rfl, hs'⟩ := hbroken.byte b rfl
          rw [if_neg (Nat.lt_irrefl 0)]
          rcases hbyte with rfl | rfl
          · rw [if_neg (by decide)]
            cases s' with
            | nil =>
                rw [hbroken.on.getc_nil]
                cases n with
                | zero => exact ⟨rfl, hbroken.on⟩
                | succ n => exact ⟨rfl, hbroken.on⟩
            | cons e s' =>
                obtain ⟨u, hget, hu, -⟩ := hbroken.on.getc_cons
                rw [hget]
                have := ih (addArg args str') e hu (by rw [List.length_cons] at hs'; omega)
                rwa [← argsFrom_comma (List.cons_ne_nil e s')] at this
          · rw [if_pos rfl]
            exact ⟨by rw [Option.toList_some, List.singleton_append, argsFrom_close],
              by rw [Option.toList_some, List.singleton_append, argsFrom_close]; exact hbroken.on⟩

/-- `find_args` and what it reads of the text that is left. -/
theorem findArgsText_of_some {d : List Byte} {t : Text} {r : List (List Byte) × List Byte} (ht : t.On d s)
    (h : findArgs s = some r) : (findArgsText t).1 = some r.1 ∧ (findArgsText t).2.On d r.2 := by
  have hskip := ht.skipWhitespace
  rw [findArgs] at h
  rw [findArgsText]
  cases hdrop : s.dropWhile isspace with
  | nil =>
      rw [hdrop] at h
      cases h
  | cons c s' =>
      rw [hdrop] at h hskip
      obtain ⟨u, hget, hon, -⟩ := hskip.getc_cons
      rw [hget]
      dsimp only at h ⊢
      split at h
      · cases h
      · next hc =>
          rw [if_neg hc]
          split at h
          · next hnil =>
              subst hnil
              cases h
              rw [hon.getc_nil]
              exact ⟨rfl, hon⟩
          · next hne =>
              cases h
              obtain ⟨e, s', rfl⟩ := List.exists_cons_of_ne_nil hne
              obtain ⟨v, hget, hv, -⟩ := hon.getc_cons
              rw [hget]
              have hfuel : s'.length + 1 < t.data.length + 2 := by
                have := hv.length_le
                rw [hv.data, ← ht.data] at this
                omega
              rw [argLoop_eq (Nat.lt_succ_of_le (List.dropWhile_suffix isspace).length_le)]
              obtain ⟨hargs, hrest⟩ := readArguments_eq [] e hv hfuel
              exact ⟨congrArg some hargs, hrest⟩

theorem findArgsText_of_none {d : List Byte} {t : Text} (ht : t.On d s)
    (h : findArgs s = none) : (findArgsText t).1 = none ∧ (findArgsText t).2.sp = t.sp := by
  have hskip := ht.skipWhitespace
  have hsp : t.sp ≤ d.length := ht.sp ▸ Nat.le_add_right ..
  rw [findArgs] at h
  rw [findArgsText]
  cases hdrop : s.dropWhile isspace with
  | nil =>
      rw [hdrop] at hskip
      rw [hskip.getc_nil]
      exact ⟨rfl, Text.sp_seek_set (by rw [hskip.data]; exact hsp)⟩
  | cons c s' =>
      rw [hdrop] at h hskip
      obtain ⟨u, hget, hon, -⟩ := hskip.getc_cons
      rw [hget]
      dsimp only at h ⊢
      split at h
      · next hc =>
          rw [if_pos hc]
          exact ⟨rfl, Text.sp_seek_set (by rw [hon.data]; exact hsp)⟩
      · split at h <;> cases h

/-! ### Argument lists -/

/-- Behind an opening quote, up to the closing one: a backslash takes the next byte with it. -/
inductive Closing (q : Byte) : List Byte → Prop
  | quote : Closing q [q]
  | plain {c : Byte} {u : List Byte} (hq : c ≠ q) (hb : c ≠ chr '\\') (h : Closing q u) : Closing q (c :: u)
  | escape (c : Byte) {u : List Byte} (hq : chr '\\' ≠ q) (h : Closing q u) : Closing q (chr '\\' :: c :: u)

/-- A text in which parentheses are balanced and quotes are closed. Commas outside of both are
allowed if `inner`. -/
inductive Balanced : Bool → List Byte → Prop
  | nil (inner : Bool) : Balanced inner []
  | plain {inner : Bool} {c : Byte} {u : List Byte} (hquote : ¬ (c = chr '"' ∨ c = chr '\''))
      (hopen : c ≠ chr '(') (hclose : c ≠ chr ')') (hcomma : c = chr ',' → inner = true) (h : Balanced inner u) :
      Balanced inner (c :: u)
  | quoted {inner : Bool} {q : Byte} {u v : List Byte} (hq : q = chr '"' ∨ q = chr '\'') (hu : Closing q u)
      (h : Balanced inner v) : Balanced inner (q :: (u ++ v))
  | group {inner : Bool} {u v : List Byte} (hu : Balanced true u) (h : Balanced inner v) :
      Balanced inner (chr '(' :: (u ++ chr ')' :: v))

theorem Closing.skipTochar_eq {q : Byte} {u : List Byte} (h : Closing q u) (s : List Byte) :
    skipTochar q (u ++ s) = (u, s) := by
  induction h with
  | quote =>
      rw [List.singleton_append, skipTochar.eq_def]
      exact if_pos rfl
  | plain hq hb _ ih =>
      rw [List.cons_append, skipTochar.eq_def]
      dsimp only
      rw [if_neg hq, if_neg hb, ih]
  | escape c hq _ ih =>
      rw [List.cons_append, List.cons_append, skipTochar.eq_def]
      dsimp only
      rw [if_neg hq, if_pos rfl, ih]

/-- A balanced text is taken into the argument as it is. -/
theorem Balanced.argsFrom_append {inner : Bool} {u : List Byte} (h : Balanced inner u)
    (hlevel : inner = true → 0 < level) (str : List Byte) (args : List (List Byte)) (s : List Byte) :
    argsFrom level str args (u ++ s) = argsFrom level (str ++ u) args s := by
  induction h generalizing level str s with
  | nil => rw [List.nil_append, List.append_nil]
  | plain hquote hopen hclose hcomma _ ih =>
      rw [List.cons_append, argsFrom_other hquote (fun h => (hlevel (hcomma h.1)).ne' h.2) (fun h => hclose h.1),
        if_neg hopen, if_neg hclose, ih hlevel, List.append_assoc, List.singleton_append]
  | quoted hq hu _ ih =>
      rw [List.cons_append, List.append_assoc, argsFrom_quote hq, hu.skipTochar_eq, ih hlevel, List.append_assoc,
        List.cons_append]
  | @group inner u v hu _ ihu ih =>
      have hopen : argsFrom level str args (chr '(' :: (u ++ chr ')' :: (v ++ s))) =
          argsFrom (level + 1) (str ++ [chr '(']) args (u ++ chr ')' :: (v ++ s)) :=
        argsFrom_other (by decide) (fun h => absurd h.1 (by decide)) (fun h => absurd h.1 (by decide))
      have hclose : argsFrom (level + 1) (str ++ [chr '('] ++ u) args (chr ')' :: (v ++ s)) =
          argsFrom level (str ++ [chr '('] ++ u ++ [chr ')']) args (v ++ s) :=
        argsFrom_other (by decide) (fun h => absurd h.1 (by decide)) (fun h => absurd h.2 (Nat.succ_ne_zero _))
      rw [List.cons_append, List.append_assoc, List.cons_append, hopen, ihu fun _ => Nat.succ_pos _, hclose, ih hlevel]
      simp only [List.append_assoc, List.cons_append, List.nil_append]

theorem Balanced.dropWhile {inner : Bool} {u : List Byte} (h : Balanced inner u) :
    Balanced inner (u.dropWhile isspace) := by
  induction h with
  | nil => exact .nil _
  | @plain _ c u hquote hopen hclose hcomma hu ih =>
      by_cases hc : isspace c = true
      · rwa [List.dropWhile_cons_of_pos hc]
      · rw [List.dropWhile_cons_of_neg hc]
        exact .plain hquote hopen hclose hcomma hu
  | @quoted _ q u v hq hu hv ih =>
      have hc : ¬ isspace q = true := by rcases hq with rfl | rfl <;> decide
      rw [List.dropWhile_cons_of_neg hc]
      exact .quoted hq hu hv
  | group hu hv ihu ih =>
      rw [List.dropWhile_cons_of_neg (by decide)]
      exact .group hu hv

/-- An argument without the white space around it. -/
def strip (a : List Byte) : List Byte := chop (a.dropWhile isspace)

/-- The list of arguments that begins with `args`, with the arguments `as` behind. -/
def addArgs (args as : List (List Byte)) : List (List Byte) :=
  as.foldl (fun args a => addArg args (a.dropWhile isspace)) args

theorem addArgs_of_ne_nil {as : List (List Byte)} (h : args ≠ []) : addArgs args as = args ++ as.map strip := by
  induction as generalizing args with
  | nil => rw [addArgs, List.foldl_nil, List.map_nil, List.append_nil]
  | cons a as ih =>
      have hadd : addArg args (a.dropWhile isspace) = args ++ [strip a] := if_pos (.inl h)
      rw [addArgs, List.foldl_cons, hadd, ← addArgs, ih (List.append_ne_nil_of_left_ne_nil h _), List.append_assoc]
      rfl

/-- Empty arguments are added behind the first that is not empty. -/
theorem addArgs_nil (as : List (List Byte)) : addArgs [] as = (as.map strip).dropWhile (· = []) := by
  induction as with
  | nil => rfl
  | cons a as ih =>
      rw [addArgs, List.foldl_cons, ← addArgs, List.map_cons]
      by_cases ha : strip a = []
      · have hadd : addArg [] (a.dropWhile isspace) = [] := if_neg fun h => h.elim (· rfl) (· ha)
        rw [hadd, ih, List.dropWhile_cons_of_pos (by simpa using ha)]
      · have hadd : addArg [] (a.dropWhile isspace) = [strip a] := if_pos (.inr ha)
        rw [hadd, addArgs_of_ne_nil (List.cons_ne_nil _ _), List.dropWhile_cons_of_neg (by simpa using ha)]
        rfl

/-- The arguments of a call with the comma between them, up to the closing parenthesis. -/
def argsText : List (List Byte) → List Byte
  | [] => [chr ')']
  | [a] => a ++ [chr ')']
  | a :: b :: as => a ++ chr ',' :: argsText (b :: as)

theorem dropWhile_append_cons {c : Byte} (hc : isspace c = false) (a s : List Byte) :
    (a ++ c :: s).dropWhile isspace = a.dropWhile isspace ++ c :: s := by
  induction a with
  | nil => exact List.dropWhile_cons_of_neg (by rw [hc]; exact Bool.false_ne_true)
  | cons b a ih =>
      by_cases hb : isspace b = true
      · rw [List.cons_append, List.dropWhile_cons_of_pos hb, List.dropWhile_cons_of_pos hb, ih]
      · rw [List.cons_append, List.dropWhile_cons_of_neg hb, List.dropWhile_cons_of_neg hb, List.cons_append]

/-- The whole list. -/
theorem argsFrom_argsText {as : List (List Byte)} (h : ∀ a ∈ as, Balanced false a) (args : List (List Byte))
    (s : List Byte) :
    argsFrom 0 [] args ((argsText as ++ s).dropWhile isspace) = (addArgs args (if as = [] then [[]] else as), s) := by
  induction as generalizing args with
  | nil =>
      rw [argsText, List.singleton_append, List.dropWhile_cons_of_neg (by decide), argsFrom_close]
      rfl
  | cons a as ih =>
      obtain ⟨ha, has⟩ := List.forall_mem_cons.mp h
      have htake (s : List Byte) : argsFrom 0 [] args (a.dropWhile isspace ++ s) =
          argsFrom 0 (a.dropWhile isspace) args s := ha.dropWhile.argsFrom_append nofun [] args s
      rw [if_neg (List.cons_ne_nil a as)]
      cases as with
      | nil =>
          rw [argsText, List.append_assoc, List.singleton_append, dropWhile_append_cons (by decide), htake, argsFrom_close]
          rfl
      | cons b as =>
          rw [argsText, List.append_assoc, List.cons_append, dropWhile_append_cons (by decide), htake, argsFrom_comma ?_,
            ih has, if_neg (List.cons_ne_nil b as)]
          · rfl
          · cases as <;> simp [argsText]

/-- Blanks and an argument list, with the parentheses. -/
structure ArgumentList where
  blanks : List Byte
  args : List (List Byte)
  blank : ∀ c ∈ blanks, isspace c = true
  balanced : ∀ a ∈ args, Balanced false a

namespace ArgumentList

def text (k : ArgumentList) : List Byte := k.blanks ++ chr '(' :: argsText k.args

/-- The arguments of the call: there is none if nothing but blanks stands in the parentheses. -/
def texts (k : ArgumentList) : List (List Byte) :=
  if k.args.map strip = [[]] then [] else k.args.map strip

/-- The first argument is not blank, unless it is the only one. -/
def Kept (k : ArgumentList) : Prop := k.args.map strip = [[]] ∨ (k.args.map strip).head? ≠ some []

variable (k : ArgumentList)

theorem findArgs_text (rest : List Byte) :
    findArgs (k.text ++ rest) = some ((k.args.map strip).dropWhile (· = []), rest) := by
  have hblanks (s : List Byte) : (k.blanks ++ s).dropWhile isspace = s.dropWhile isspace := by
    rw [List.dropWhile_append, List.dropWhile_eq_nil_iff.mpr k.blank]
    rfl
  rw [findArgs, text, List.append_assoc, hblanks, List.cons_append, List.dropWhile_cons_of_neg (by decide)]
  dsimp only
  have hne : argsText k.args ++ rest ≠ [] := by
    cases k.args with
    | nil => simp [argsText]
    | cons a as => cases as <;> simp [argsText]
  rw [if_neg (fun h => h rfl), if_neg hne, argLoop_eq (Nat.lt_succ_of_le (List.dropWhile_suffix isspace).length_le),
    argsFrom_argsText k.balanced, addArgs_nil]
  cases k.args with
  | nil => rfl
  | cons a as => rfl

theorem texts_eq_iff : (k.args.map strip).dropWhile (· = []) = k.texts ↔ k.Kept := by
  rw [texts, Kept]
  cases k.args.map strip with
  | nil => simp
  | cons a as =>
      by_cases ha : a = []
      · subst ha
        rw [List.dropWhile_cons_of_pos (by decide), List.head?_cons]
        cases as with
        | nil => simp
        | cons b as =>
            have hlen := (List.dropWhile_suffix (· = []) (l := b :: as)).length_le
            rw [if_neg (by simp)]
            refine iff_of_false (fun h => ?_) (by simp)
            rw [h, List.length_cons, List.length_cons] at hlen
            omega
      · rw [List.dropWhile_cons_of_neg (by simpa using ha), if_neg (by simp [ha]), List.head?_cons]
        simp [ha]

end ArgumentList

/-- `find_args` at the text `s` behind `before`: an argument list gives its arguments and
is read up to its end, and without one there is no result and nothing is read. -/
def FindsArguments (before s : List Byte) (line : ℤ) : Prop :=
  let r := findArgsText ⟨before ++ s, before.length, line⟩
  (∀ (k : ArgumentList) (rest : List Byte), s = k.text ++ rest →
    r.1 = some k.texts ∧ r.2.sp = before.length + k.text.length) ∧
  ((s.dropWhile isspace).head? ≠ some (chr '(') → r.1 = none ∧ r.2.sp = before.length)

/-- Empty arguments are dropped as long as no other was found: the arguments are the ones
of the call unless the first is blank and another one follows. -/
theorem findArgs_iff (before s : List Byte) (line : ℤ) :
    FindsArguments before s line ↔
      ∀ (k : ArgumentList) (rest : List Byte), s = k.text ++ rest → k.Kept := by
  have ht : Text.On ⟨before ++ s, before.length, line⟩ (before ++ s) s :=
    ⟨rfl, List.drop_left .., (List.length_append ..).symm⟩
  have hread (k : ArgumentList) (rest : List Byte) (hs : s = k.text ++ rest) :
      (findArgsText ⟨before ++ s, before.length, line⟩).1 = some k.texts ↔ k.Kept := by
    have hfind := k.findArgs_text rest
    rw [← hs] at hfind
    rw [(findArgsText_of_some ht hfind).1, Option.some.injEq]
    exact k.texts_eq_iff
  constructor
  · intro h k rest hs
    exact (hread k rest hs).mp (h.1 k rest hs).1
  · intro h
    refine ⟨fun k rest hs => ⟨(hread k rest hs).mpr (h k rest hs), ?_⟩, fun hhead => ?_⟩
    · have hfind := k.findArgs_text rest
      rw [← hs] at hfind
      have hend := (findArgsText_of_some ht hfind).2.sp
      rw [List.length_append, congrArg List.length hs, List.length_append, ← Nat.add_assoc] at hend
      exact Nat.add_right_cancel hend
    · refine findArgsText_of_none ht ?_
      rw [findArgs]
      cases hdrop : s.dropWhile isspace with
      | nil => rfl
      | cons c u =>
          rw [hdrop, List.head?_cons] at hhead
          exact if_pos fun h => hhead (congrArg some h)

/-- An empty argument before one that is not. -/
def firstEmpty : ArgumentList where
  blanks := []
  args := [[], lit "a"]
  blank := nofun
  balanced := List.forall_mem_cons.mpr ⟨.nil false, List.forall_mem_singleton.mpr
    (.plain (by decide) (by decide) (by decide) (by decide) (.nil false))⟩

/-- In `(,a)` the empty argument is lost. -/
theorem findArgs_firstEmpty : ¬ FindsArguments [] (lit "(,a)") 1 :=
  fun h => absurd (h.1 firstEmpty [] (by decide)).1 (by decide)

end Preprocessor

end Swig
