import Swig.Scanner.Token

/-!
`Scanner_skip_balanced` (`scanner.c`): the piece of code up to the character that ends it,
with the symbols in comments and literals left out of the count.
-/

namespace Swig.Scanner

/-- The states of `Scanner_skip_balanced`: 0, 10 to 13, 20, 21, 30 and 31. -/
inductive SkipState
  | code | slash | line | block | star | string | stringEscape | char | charEscape
  deriving DecidableEq

variable (start stop : Byte)

/-- The state after a character. -/
def SkipState.next : SkipState → Byte → SkipState
  | code, c =>
      if c = start then code
      else if c = stop then code
      else if c = chr '/' then slash
      else if c = chr '"' then string
      else if c = chr '\'' then char
      else code
  | slash, c => if c = chr '/' then line else if c = chr '*' then block else code
  | line, c => if c = chr '\n' then code else line
  | block, c => if c = chr '*' then star else block
  | star, c => if c = chr '*' then star else if c = chr '/' then code else block
  | string, c => if c = chr '"' then code else if c = chr '\\' then stringEscape else string
  | stringEscape, _ => string
  | char, c => if c = chr '\'' then code else if c = chr '\\' then charEscape else char
  | charEscape, _ => char

/-- `num_levels` after a character. -/
def SkipState.levels : SkipState → ℕ → Byte → ℕ
  | code, n, c => if c = start then n + 1 else if c = stop then n - 1 else n
  | _, n, _ => n

/-- The loop, of at most as many rounds as the number says. -/
def skipLoop : ℕ → SkipState → ℕ → Scanner → Option (ℤ × Scanner)
  | _, _, 0, s => some (0, s)
  | 0, _, _ + 1, _ => none
  | n + 1, σ, l + 1, s =>
      if (nextchar s).1 = 0 then some (-1, (nextchar s).2)
      else skipLoop n (σ.next start stop (nextchar s).1) (σ.levels start stop (l + 1) (nextchar s).1) (nextchar s).2

/-- `Scanner_skip_balanced`. -/
def skipBalanced (s : Scanner) : Option (ℤ × Scanner) :=
  skipLoop start stop (s.remaining + 1) .code 1 { s with text := [start], textLine := s.line }

/-! ### The matching end -/

/-- What the next character of a text belongs to. -/
inductive Region
  | code
  | line
  /-- The asterisk that opens a comment. -/
  | opening
  | block
  /-- The slash that closes a comment. -/
  | closing
  | quoted (q : Byte)
  | escaped (q : Byte)
  deriving DecidableEq

/-- The region behind a character, with the text that follows it. -/
def Region.next : Region → Byte → List Byte → Region
  | code, c, s =>
      if c = chr '/' ∧ s.head? = some (chr '/') then line
      else if c = chr '/' ∧ s.head? = some (chr '*') then opening
      else if c = chr '"' ∨ c = chr '\'' then quoted c
      else code
  | line, c, _ => if c = chr '\n' then code else line
  | opening, _, _ => block
  | block, c, s => if c = chr '*' ∧ s.head? = some (chr '/') then closing else block
  | closing, _, _ => code
  | quoted q, c, _ => if c = q then code else if c = chr '\\' then escaped q else quoted q
  | escaped q, _, _ => quoted q

/-- How far it is behind the end that matches a start before the text, with `n` more starts
open: only the characters outside of comments and literals count. -/
def matchingEnd : Region → ℕ → List Byte → Option ℕ
  | _, _, [] => none
  | g, n, c :: s =>
      if g = .code ∧ c = start then (matchingEnd (g.next c s) (n + 1) s).map (· + 1)
      else if g = .code ∧ c = stop then
        if n = 0 then some 1 else (matchingEnd (g.next c s) (n - 1) s).map (· + 1)
      else (matchingEnd (g.next c s) n s).map (· + 1)

/-- The text with a blank for the character behind a slash, where the slash does not
begin a comment. -/
def hide : SkipState → List Byte → List Byte
  | _, [] => []
  | σ, c :: s =>
      (if σ = .slash ∧ c ≠ chr '/' ∧ c ≠ chr '*' then chr ' ' else c) :: hide (σ.next start stop c) s

example : matchingEnd (chr '{') (chr '}') .code 0 (lit "a\x7b'\x7d'/*\x7d*/\x7d\x7d;") = some 12 := by decide
example : hide (chr '{') (chr '}') .code (lit "a/\x7b //\x7b") = lit "a/  //\x7b" := by decide

/-- A start and an end that are no part of comments and literals. -/
structure Delims where
  start : Byte
  stop : Byte
  differ : start ≠ stop
  start_plain : start ∉ 0 :: lit " /\"'"
  stop_plain : stop ∉ 0 :: lit " /\"'"

/-- The characters left in the stacked strings. -/
def unread (s : Scanner) : List Byte := s.scanobjs.flatMap Text.rest

/-- How it ends at `s'` when `e` characters were to be skipped: just behind them, with the
text that was skipped, and in failure if there is no end. -/
def Skipped (s : Scanner) (e : Option ℕ) (r : ℤ) (s' : Scanner) : Prop :=
  match e with
  | some k => r = 0 ∧ s'.unread = s.unread.drop k ∧ s'.text = s.text ++ s.unread.take k
  | none => r = -1

/-- The piece of code behind the start is skipped up to the matching end. -/
def SkipsBalanced (d : Delims) (s : Scanner) : Prop :=
  ∃ r s', skipBalanced d.start d.stop s = some (r, s') ∧
    Skipped { s with text := [d.start] } (matchingEnd d.start d.stop .code 0 s.unread) r s'

/-! ### Reading on -/

variable {s s' : Scanner} {c : Byte} {t : List Byte}

theorem nextcharFrom_unread {objs : List Text} (h : objs.flatMap Text.rest = c :: t) :
    ∃ s', nextcharFrom s objs = (c, s') ∧ s'.unread = t ∧ s'.text = s.text ++ [c] := by
  induction objs generalizing s with
  | nil => cases h
  | cons u us ih =>
      rw [List.flatMap_cons] at h
      cases hrest : u.rest with
      | nil =>
          rw [hrest, List.nil_append] at h
          simp only [nextcharFrom, Text.getc_of_rest_nil hrest]
          exact ih h
      | cons b r =>
          rw [hrest, List.cons_append] at h
          obtain ⟨rfl, rfl⟩ := List.cons.inj h
          simp only [nextcharFrom, Text.getc_of_rest_cons hrest]
          refine ⟨_, rfl, ?_, rfl⟩
          rw [unread, List.flatMap_cons, Text.rest_succ hrest]

theorem nextchar_unread (h : s.unread = c :: t) :
    ∃ s', nextchar s = (c, s') ∧ s'.unread = t ∧ s'.text = s.text ++ [c] := nextcharFrom_unread h

theorem nextcharFrom_end {objs : List Text} (h : objs.flatMap Text.rest = []) : (nextcharFrom s objs).1 = 0 := by
  induction objs generalizing s with
  | nil => rfl
  | cons u us ih =>
      rw [List.flatMap_cons, List.append_eq_nil_iff] at h
      simp only [nextcharFrom, Text.getc_of_rest_nil h.1]
      exact ih h.2

theorem nextchar_end (h : s.unread = []) : (nextchar s).1 = 0 := nextcharFrom_end h

theorem length_unread (s : Scanner) : s.unread.length = s.remaining := by
  rw [unread, remaining, List.length_flatMap]

theorem Skipped.step {e : Option ℕ} {r : ℤ} {s₁ : Scanner} (hs : s.unread = c :: t) (hunread : s₁.unread = t)
    (htext : s₁.text = s.text ++ [c]) (h : Skipped s₁ e r s') : Skipped s (e.map (· + 1)) r s' := by
  cases e with
  | none => exact h
  | some k =>
      obtain ⟨hr, hdrop, htake⟩ := h
      refine ⟨hr, ?_, ?_⟩
      · rw [hdrop, hunread, hs, List.drop_succ_cons]
      · rw [htake, htext, hunread, hs, List.take_succ_cons, List.append_assoc, List.singleton_append]

/-! ### The regions and the states -/

/-- The region of the next character, in a state of the scan. -/
def SkipState.region : SkipState → List Byte → Region
  | code, _ => .code
  | slash, t => Region.code.next (chr '/') t
  | line, _ => .line
  | block, _ => .block
  | star, t => Region.block.next (chr '*') t
  | string, _ => .quoted (chr '"')
  | stringEscape, _ => .escaped (chr '"')
  | char, _ => .quoted (chr '\'')
  | charEscape, _ => .escaped (chr '\'')

namespace SkipState

variable (d : Delims) {σ : SkipState}

/-- The character that is seen for `c`. -/
def seen (σ : SkipState) (c : Byte) : Byte :=
  if σ = .slash ∧ c ≠ chr '/' ∧ c ≠ chr '*' then chr ' ' else c

theorem seen_of_ne (h : σ ≠ .slash) (c : Byte) : σ.seen c = c := if_neg fun hs => h hs.1

theorem seen_slash {c : Byte} (h1 : c ≠ chr '/') (h2 : c ≠ chr '*') : slash.seen c = chr ' ' := if_pos ⟨rfl, h1, h2⟩

theorem next_slash_of_ne {c : Byte} (h1 : c ≠ chr '/') (h2 : c ≠ chr '*') (t : List Byte) :
    Region.code.next (chr '/') (c :: t) = .code := by
  simp [Region.next, h1, h2, (by decide : ¬ (chr '/' = chr '"' ∨ chr '/' = chr '\''))]

theorem plain_of_special {e : Byte} (he : e ∉ 0 :: lit " /\"'") : e ∉ lit "/\"'" :=
  fun h => he (List.mem_cons_of_mem _ (List.mem_cons_of_mem _ h))

theorem next_code_of_plain {e : Byte} (he : e ∉ lit "/\"'") (t : List Byte) : Region.code.next e t = .code := by
  have hslash : e ≠ chr '/' := fun h => he (by rw [h]; decide)
  have hquote : ¬ (e = chr '"' ∨ e = chr '\'') := by
    rintro (h | h) <;> exact he (by rw [h]; decide)
  rw [Region.next, if_neg fun h => hslash h.1, if_neg fun h => hslash h.1, if_neg hquote]

theorem region_next (σ : SkipState) (c : Byte) (t : List Byte) :
    (σ.region (σ.seen c :: t)).next (σ.seen c) t = (σ.next d.start d.stop c).region t := by
  cases σ with
  | code =>
      rw [seen_of_ne (by decide : code ≠ slash), region, next]
      by_cases hstart : c = d.start
      · rw [if_pos hstart, hstart]
        exact next_code_of_plain (plain_of_special d.start_plain) t
      · rw [if_neg hstart]
        by_cases hstop : c = d.stop
        · rw [if_pos hstop, hstop]
          exact next_code_of_plain (plain_of_special d.stop_plain) t
        · rw [if_neg hstop]
          by_cases hslash : c = chr '/'
          · rw [if_pos hslash, hslash]
            rfl
          · rw [if_neg hslash, Region.next, if_neg fun h => hslash h.1, if_neg fun h => hslash h.1]
            by_cases hstring : c = chr '"'
            · rw [if_pos hstring, if_pos (.inl hstring), hstring]
              rfl
            · rw [if_neg hstring]
              by_cases hchar : c = chr '\''
              · rw [if_pos hchar, if_pos (.inr hchar), hchar]
                rfl
              · rw [if_neg hchar, if_neg fun h => h.elim hstring hchar]
                rfl
  | slash =>
      rw [region, next]
      by_cases hslash : c = chr '/'
      · rw [if_pos hslash, hslash]
        rfl
      · rw [if_neg hslash]
        by_cases hstar : c = chr '*'
        · rw [if_pos hstar, hstar]
          rfl
        · rw [if_neg hstar, seen_slash hslash hstar, next_slash_of_ne (by decide) (by decide)]
          exact next_code_of_plain (by decide) t
  | line =>
      rw [seen_of_ne (by decide : line ≠ slash), region, next, Region.next]
      split <;> rfl
  | block =>
      rw [seen_of_ne (by decide : block ≠ slash), region, next]
      by_cases hstar : c = chr '*'
      · rw [if_pos hstar, hstar]
        rfl
      · rw [if_neg hstar, Region.next, if_neg fun h => hstar h.1]
        rfl
  | star =>
      rw [seen_of_ne (by decide : star ≠ slash), region, next]
      by_cases hstar : c = chr '*'
      · rw [if_pos hstar, hstar]
        rfl
      · rw [if_neg hstar]
        by_cases hslash : c = chr '/'
        · rw [if_pos hslash, hslash]
          rfl
        · have hblock : Region.block.next (chr '*') (c :: t) = .block := if_neg fun h => hslash (Option.some.inj h.2)
          rw [if_neg hslash, hblock, Region.next, if_neg fun h => hstar h.1]
          rfl
  | string =>
      rw [seen_of_ne (by decide : string ≠ slash), region, next, Region.next]
      split
      · rfl
      · split <;> rfl
  | char =>
      rw [seen_of_ne (by decide : char ≠ slash), region, next, Region.next]
      split
      · rfl
      · split <;> rfl
  | stringEscape | charEscape => rfl

/-- The scan counts the characters that are seen outside of comments and literals. -/
theorem seen_eq_iff {e : Byte} (he : e ∉ 0 :: lit " /\"'") (σ : SkipState) (c : Byte) (t : List Byte) :
    σ.region (σ.seen c :: t) = .code ∧ σ.seen c = e ↔ σ = .code ∧ c = e := by
  have hblank : e ≠ chr ' ' := fun h => he (by rw [h]; decide)
  cases σ with
  | code =>
      rw [seen_of_ne (by decide : code ≠ slash)]
      exact and_congr_left' (iff_of_true rfl rfl)
  | slash =>
      refine iff_of_false (fun ⟨hcode, hc⟩ => ?_) nofun
      by_cases hslash : c = chr '/'
      · rw [hslash] at hcode
        cases hcode
      · by_cases hstar : c = chr '*'
        · rw [hstar] at hcode
          cases hcode
        · rw [seen_slash hslash hstar] at hc
          exact hblank hc.symm
  | star =>
      refine iff_of_false (fun ⟨hcode, _⟩ => ?_) nofun
      rw [region, Region.next] at hcode
      split at hcode <;> cases hcode
  | line | block | string | stringEscape | char | charEscape => exact iff_of_false nofun nofun

end SkipState

/-! ### The scan -/

variable (d : Delims)

theorem skipLoop_skipped {n l : ℕ} {σ : SkipState} (hnul : 0 ∉ s.unread) (hn : s.unread.length < n) :
    ∃ r s', skipLoop d.start d.stop n σ (l + 1) s = some (r, s') ∧
      Skipped s (matchingEnd d.start d.stop (σ.region (hide d.start d.stop σ s.unread)) l
        (hide d.start d.stop σ s.unread)) r s' := by
  obtain ⟨t, ht⟩ : ∃ t, s.unread = t := ⟨_, rfl⟩
  induction t generalizing n l σ s with
  | nil =>
      obtain ⟨n, rfl⟩ := Nat.exists_eq_succ_of_ne_zero (Nat.ne_of_gt (Nat.zero_lt_of_lt hn))
      rw [skipLoop, if_pos (nextchar_end ht), ht]
      exact ⟨_, _, rfl, rfl⟩
  | cons c t ih =>
      rw [ht] at hnul hn
      obtain ⟨n, rfl⟩ := Nat.exists_eq_succ_of_ne_zero (Nat.ne_of_gt (Nat.zero_lt_of_lt hn))
      obtain ⟨s₁, hnext, hunread, htext⟩ := nextchar_unread ht
      have hc : c ≠ 0 := fun h => hnul (h ▸ List.mem_cons_self ..)
      have hrest (l : ℕ) := ih (s := s₁) (n := n) (l := l) (σ := σ.next d.start d.stop c)
        (by rw [hunread]; exact fun h => hnul (List.mem_cons_of_mem _ h))
        (by rw [hunread]; exact Nat.lt_of_succ_lt_succ hn) hunread
      rw [skipLoop, hnext, if_neg hc, ht]
      have hhide : hide d.start d.stop σ (c :: t) = σ.seen c :: hide d.start d.stop (σ.next d.start d.stop c) t := rfl
      rw [hhide, matchingEnd, SkipState.region_next d]
      have hlater {e : Option ℕ} {m : ℕ} (h : ∃ r s', skipLoop d.start d.stop n (σ.next d.start d.stop c) m s₁ =
          some (r, s') ∧ Skipped s₁ e r s') :
          ∃ r s', skipLoop d.start d.stop n (σ.next d.start d.stop c) m s₁ = some (r, s') ∧
            Skipped s (e.map (· + 1)) r s' := by
        obtain ⟨r, s', hloop, hskip⟩ := h
        exact ⟨r, s', hloop, hskip.step ht hunread htext⟩
      rw [hunread] at hrest
      by_cases hstart : σ = .code ∧ c = d.start
      · have hlevels : σ.levels d.start d.stop (l + 1) c = l + 1 + 1 := by
          rw [hstart.1, hstart.2]
          exact if_pos rfl
        rw [if_pos ((SkipState.seen_eq_iff d.start_plain σ c _).mpr hstart), hlevels]
        exact hlater (hrest (l + 1))
      · rw [if_neg (mt (SkipState.seen_eq_iff d.start_plain σ c _).mp hstart)]
        by_cases hstop : σ = .code ∧ c = d.stop
        · have hlevels : σ.levels d.start d.stop (l + 1) c = l := by
            rw [hstop.1, hstop.2]
            exact (if_neg d.differ.symm).trans (if_pos rfl)
          rw [if_pos ((SkipState.seen_eq_iff d.stop_plain σ c _).mpr hstop), hlevels]
          cases l with
          | zero =>
              rw [if_pos rfl]
              refine ⟨0, s₁, by cases n <;> rfl, rfl, ?_, ?_⟩
              · rw [hunread, ht, List.drop_succ_cons, List.drop_zero]
              · rw [htext, ht, List.take_succ_cons, List.take_zero]
          | succ l =>
              rw [if_neg (Nat.succ_ne_zero l)]
              exact hlater (hrest l)
        · have hlevels : σ.levels d.start d.stop (l + 1) c = l + 1 := by
            cases σ with
            | code => exact (if_neg fun h => hstart ⟨rfl, h⟩).trans (if_neg fun h => hstop ⟨rfl, h⟩)
            | _ => rfl
          rw [if_neg (mt (SkipState.seen_eq_iff d.stop_plain σ c _).mp hstop), hlevels]
          exact hlater (hrest l)

theorem matchingEnd_le {start stop : Byte} {g : Region} {n k : ℕ} {t : List Byte}
    (h : matchingEnd start stop g n t = some k) : k ≤ t.length := by
  induction t generalizing g n k with
  | nil => cases h
  | cons c t ih =>
      have hmap {n : ℕ} (h : (matchingEnd start stop (g.next c t) n t).map (· + 1) = some k) : k ≤ t.length + 1 := by
        obtain ⟨j, hj, rfl⟩ := Option.map_eq_some_iff.mp h
        exact Nat.succ_le_succ (ih hj)
      rw [matchingEnd] at h
      split at h
      · exact hmap h
      · split at h
        · split at h
          · cases h
            exact Nat.succ_le_succ (Nat.zero_le _)
          · exact hmap h
        · exact hmap h

theorem length_hide (start stop : Byte) (σ : SkipState) (t : List Byte) : (hide start stop σ t).length = t.length := by
  induction t generalizing σ with
  | nil => rfl
  | cons c t ih => exact congrArg (· + 1) (ih _)

/-- The scan ends where it ends in the text in which the characters behind a slash are hidden. -/
theorem skipBalanced_skipped (hnul : 0 ∉ s.unread) : ∃ r s', skipBalanced d.start d.stop s = some (r, s') ∧
    Skipped { s with text := [d.start] }
      (matchingEnd d.start d.stop .code 0 (hide d.start d.stop .code s.unread)) r s' :=
  skipLoop_skipped (s := { s with text := [d.start], textLine := s.line }) d hnul
    (Nat.lt_succ_of_le (length_unread s).le)

/-! ### Texts without a hidden character that counts -/

/-- Behind a slash that begins no comment, there is no start, no end and no quote. -/
def Clear (start stop : Byte) : Region → List Byte → Prop
  | _, [] => True
  | g, c :: s =>
      (g = .code → c = chr '/' → ∀ e ∈ s.head?, e ∉ [start, stop, chr '"', chr '\'']) ∧ Clear start stop (g.next c s) s

theorem SkipState.region_seen (σ : SkipState) (c : Byte) (t u : List Byte) :
    σ.region (σ.seen c :: t) = σ.region (c :: u) := by
  cases σ with
  | slash =>
      by_cases hslash : c = chr '/'
      · rw [hslash]
        rfl
      · by_cases hstar : c = chr '*'
        · rw [hstar]
          rfl
        · rw [seen_slash hslash hstar]
          exact (next_slash_of_ne (c := chr ' ') (by decide) (by decide) t).trans (next_slash_of_ne hslash hstar u).symm
  | star => rw [seen_of_ne (by decide : star ≠ slash)]; rfl
  | code | line | block | string | stringEscape | char | charEscape => rfl

theorem SkipState.next_eq_slash {start stop : Byte} {σ : SkipState} {c : Byte} (h : σ.next start stop c = .slash) :
    σ = .code ∧ c = chr '/' := by
  cases σ with
  | code =>
      refine ⟨rfl, by_contra fun hc => ?_⟩
      simp only [next, if_neg hc] at h
      split at h
      · cases h
      · split at h
        · cases h
        · split at h
          · cases h
          · split at h <;> cases h
  | stringEscape | charEscape => cases h
  | line | block =>
      rw [next] at h
      split at h <;> cases h
  | slash | star | string | char =>
      rw [next] at h
      split at h
      · cases h
      · split at h <;> cases h

/-- What is hidden makes no difference then. -/
theorem matchingEnd_hide (d : Delims) {σ : SkipState} {n : ℕ} {t : List Byte}
    (hclear : Clear d.start d.stop (σ.region t) t)
    (hhead : σ = .slash → ∀ e ∈ t.head?, e ∉ [d.start, d.stop, chr '"', chr '\'']) :
    matchingEnd d.start d.stop (σ.region (hide d.start d.stop σ t)) n (hide d.start d.stop σ t) =
      matchingEnd d.start d.stop (σ.region t) n t := by
  induction t generalizing σ n with
  | nil => rfl
  | cons c t ih =>
      have hhide : hide d.start d.stop σ (c :: t) = σ.seen c :: hide d.start d.stop (σ.next d.start d.stop c) t := rfl
      have hnext : (σ.region (c :: t)).next c t = (σ.next d.start d.stop c).region t := by
        by_cases hσ : σ = .slash
        · have hc := hhead hσ c rfl
          rw [← SkipState.region_next d, SkipState.region_seen σ c _ t]
          subst hσ
          by_cases hslash : c = chr '/'
          · rw [hslash]
            rfl
          · by_cases hstar : c = chr '*'
            · rw [hstar]
              rfl
            · rw [SkipState.seen_slash hslash hstar]
              refine (congrArg (Region.next · c t) (SkipState.next_slash_of_ne hslash hstar t)).trans ?_
              refine Eq.trans ?_ (congrArg (Region.next · (chr ' ') t) (SkipState.next_slash_of_ne hslash hstar t)).symm
              rw [SkipState.next_code_of_plain (e := chr ' ') (by decide)]
              refine SkipState.next_code_of_plain (fun h => ?_) t
              rcases List.mem_cons.mp h with rfl | h
              · exact hslash rfl
              · exact hc (List.mem_cons_of_mem _ (List.mem_cons_of_mem _ h))
        · have hregion := SkipState.region_next d σ c t
          rwa [SkipState.seen_of_ne hσ] at hregion
      have hcounts {e : Byte} (he : e ∉ 0 :: lit " /\"'") (hmem : e ∈ [d.start, d.stop]) :
          σ.region (c :: t) = .code ∧ c = e ↔ σ = .code ∧ c = e := by
        by_cases hσ : σ = .slash
        · have hc := hhead hσ c rfl
          have hne : c ≠ e := fun h => hc (h ▸ List.mem_append_left [chr '"', chr '\''] hmem)
          exact iff_of_false (fun h => hne h.2) (fun h => hne h.2)
        · have hseen := SkipState.seen_eq_iff he σ c t
          rwa [SkipState.seen_of_ne hσ] at hseen
      have hstart := hcounts d.start_plain (List.mem_cons_self ..)
      have hstop := hcounts d.stop_plain (List.mem_cons_of_mem _ (List.mem_cons_self ..))
      have hrest (n : ℕ) := ih (σ := σ.next d.start d.stop c) (n := n) (hnext ▸ hclear.2) fun hslash => by
        obtain ⟨rfl, rfl⟩ := SkipState.next_eq_slash hslash
        exact hclear.1 rfl rfl
      rw [hhide, matchingEnd, matchingEnd, SkipState.region_next d, hnext, hrest, hrest, hrest]
      simp only [SkipState.seen_eq_iff d.start_plain, SkipState.seen_eq_iff d.stop_plain, hstart, hstop]

/-! ### The result -/

theorem skipBalanced_iff (hnul : 0 ∉ s.unread) :
    SkipsBalanced d s ↔ matchingEnd d.start d.stop .code 0 (hide d.start d.stop .code s.unread) =
      matchingEnd d.start d.stop .code 0 s.unread := by
  obtain ⟨r, s', hrun, hskip⟩ := skipBalanced_skipped d hnul
  constructor
  · rintro ⟨r', s'', hrun', hskip'⟩
    rw [hrun, Option.some.injEq, Prod.mk.injEq] at hrun'
    obtain ⟨rfl, rfl⟩ := hrun'
    cases hseen : matchingEnd d.start d.stop .code 0 (hide d.start d.stop .code s.unread) with
    | none =>
        cases hend : matchingEnd d.start d.stop .code 0 s.unread with
        | none => rfl
        | some k =>
            rw [hseen] at hskip
            rw [hend] at hskip'
            exact absurd (hskip.symm.trans hskip'.1) (by decide)
    | some j =>
        cases hend : matchingEnd d.start d.stop .code 0 s.unread with
        | none =>
            rw [hseen] at hskip
            rw [hend] at hskip'
            exact absurd (hskip'.symm.trans hskip.1) (by decide)
        | some k =>
            rw [hseen] at hskip
            rw [hend] at hskip'
            have hj := length_hide d.start d.stop .code s.unread ▸ matchingEnd_le hseen
            have hk := matchingEnd_le hend
            have hdrop := congrArg List.length (hskip.2.1.symm.trans hskip'.2.1)
            rw [List.length_drop, List.length_drop, show unread { s with text := [d.start] } = s.unread from rfl] at hdrop
            rw [Option.some.injEq]
            omega
  · intro h
    exact ⟨r, s', hrun, h ▸ hskip⟩

/-- A scanner on a string, behind a start. -/
def scanning (t : List Byte) : Scanner := { newScanner with scanobjs := [.ofBytes t] }

def braces : Delims := ⟨chr '{', chr '}', by decide, by decide, by decide⟩

theorem skipBalanced_iff_string : SkipsBalanced braces (scanning (lit "'\x7d' /*\x7d*/ \x7b\x7d \x7d")) :=
  (skipBalanced_iff braces (by decide)).mpr (by decide)

/-- In `{/{}}`, the start behind the slash is not counted. -/
theorem skipBalanced_stops_early : ¬ SkipsBalanced braces (scanning (lit "/\x7b\x7d\x7d")) := by
  rintro ⟨r, s', hrun, hskip⟩
  have hstop : skipBalanced (chr '{') (chr '}') (scanning (lit "/\x7b\x7d\x7d")) = some (0, { newScanner with
      scanobjs := [⟨lit "/\x7b\x7d\x7d", 3, 1⟩], text := lit "\x7b/\x7b\x7d", textLine := 1 }) := by decide
  rw [show skipBalanced braces.start braces.stop _ = _ from hstop] at hrun
  cases hrun
  exact absurd hskip.2.2 (by decide)

end Swig.Scanner
