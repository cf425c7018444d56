import Swig.Scanner.Reading
import Swig.Scanner.Rounds

/-!
Every token uses up some of the input. What is left is weighed without its spaces, and so is
the text of a token: the text is never heavier than what was read for it.
-/

namespace Swig.Scanner

open LookResult LookState

/-! ### Weights -/

/-- The number of bytes that are not spaces. -/
def weight (bs : List Byte) : ℕ := bs.countP (· != chr ' ')

/-- The bytes that are left. -/
def bytesLeft (s : Scanner) : List Byte := s.scanobjs.flatMap Text.rest

/-- What is left together with the text of the token. -/
def total (s : Scanner) : ℕ := weight s.bytesLeft + weight s.text

variable {s s₁ : Scanner} {c : Byte} {w n : ℕ} {st : LookState} {tok : Token} {bs cs : List Byte}

theorem weight_append (bs cs : List Byte) : weight (bs ++ cs) = weight bs + weight cs := List.countP_append

theorem weight_cons (c : Byte) (bs : List Byte) : weight (c :: bs) = weight bs + weight [c] := by
  rw [← List.singleton_append, weight_append, Nat.add_comm]

theorem weight_singleton_le (c : Byte) : weight [c] ≤ 1 := List.countP_le_length

theorem weight_singleton (h : c ≠ chr ' ') : weight [c] = 1 := by
  rw [weight, List.countP_singleton, if_pos (by simpa using h)]

theorem weight_dropLast_le (bs : List Byte) : weight bs.dropLast ≤ weight bs := (List.dropLast_sublist bs).countP_le

/-! ### Reading -/

/-- `c` is a byte that was read, and can be given back. -/
structure Taken (s : Scanner) (c : Byte) (s₁ : Scanner) : Prop where
  left : s.bytesLeft = c :: s₁.bytesLeft
  text : s₁.text = s.text ++ [c]
  nexttoken : s₁.nexttoken = s.nexttoken
  back : ∃ s₂, s₁.retract 1 = some s₂ ∧ s₂.bytesLeft = s.bytesLeft ∧ s₂.text = s.text ∧
    s₂.nexttoken = s.nexttoken ∧ s₂.scanobjs ≠ []

/-- Nothing was left to read. -/
structure AtEnd (s s₁ : Scanner) : Prop where
  left : s.bytesLeft = []
  left' : s₁.bytesLeft = []
  text : s₁.text = s.text
  nexttoken : s₁.nexttoken = s.nexttoken

theorem nextcharFrom_cases (s : Scanner) (objs : List Text) :
    (objs.flatMap Text.rest = [] ∧ ∃ l, nextcharFrom s objs = (0, { s with scanobjs := [], line := l })) ∨
      ∃ c cs, ∃ t : Text, ∃ ts l, t.rest = c :: cs ∧ objs.flatMap Text.rest = c :: (cs ++ ts.flatMap Text.rest) ∧
        nextcharFrom s objs = (c, { s with scanobjs := t.getc.2 :: ts, line := l, text := s.text ++ [c] }) := by
  induction objs generalizing s with
  | nil => exact .inl ⟨rfl, s.line, rfl⟩
  | cons t ts ih =>
      cases hrest : t.rest with
      | nil =>
          have hgetc := Text.getc_of_rest_nil hrest
          rw [List.flatMap_cons, hrest, List.nil_append, nextcharFrom.eq_def]
          simp only [hgetc]
          exact ih _
      | cons c cs =>
          have hgetc := Text.getc_of_rest_cons hrest
          refine .inr ⟨c, cs, t, ts, if c = chr '\n' ∧ ¬ s.freezeLine then s.line + 1 else s.line, hrest, ?_, ?_⟩
          · rw [List.flatMap_cons, hrest, List.cons_append]
          · simp only [nextcharFrom, hgetc]

theorem retract_one {t : Text} {ts : List Text} (hobjs : s.scanobjs = t :: ts) (htext : s.text = bs ++ [c]) :
    ∃ l, s.retract 1 = some { s with scanobjs := t.seek (-1) .cur :: ts, line := l, text := bs } := by
  have hlength : 1 ≤ s.text.length := by rw [htext, List.length_append, List.length_singleton]; omega
  have hdrop : s.text.dropLast = bs := by rw [htext, List.dropLast_concat]
  rw [retract, if_pos hlength, retractLoop, retractStep, hobjs, Option.bind_some, retractLoop, hdrop]
  exact ⟨_, rfl⟩

theorem nextchar_cases (h : nextchar s = (c, s₁)) : Taken s c s₁ ∨ c = 0 ∧ AtEnd s s₁ := by
  rcases nextcharFrom_cases s s.scanobjs with ⟨hnil, l, hnext⟩ | ⟨c', cs, t, ts, l, hrest, hleft, hnext⟩
  · obtain ⟨rfl, rfl⟩ := Prod.mk.inj (hnext.symm.trans h)
    exact .inr ⟨rfl, hnil, rfl, rfl, rfl⟩
  · obtain ⟨rfl, rfl⟩ := Prod.mk.inj (hnext.symm.trans h)
    have hback := Text.seek_back_getc hrest
    have hafter : t.getc.2.rest = cs := by
      rw [Text.getc_of_rest_cons hrest]
      exact Text.rest_succ hrest _
    refine .inl ⟨?_, rfl, rfl, ?_⟩
    · rw [bytesLeft, hleft, bytesLeft, List.flatMap_cons, hafter]
    · obtain ⟨l', hretract⟩ :=
        retract_one (s := { s with scanobjs := t.getc.2 :: ts, line := l, text := s.text ++ [c'] }) rfl rfl
      rw [hback] at hretract
      refine ⟨_, hretract, ?_, rfl, rfl, List.cons_ne_nil _ _⟩
      rw [bytesLeft, bytesLeft, hleft, List.flatMap_cons, hrest, List.cons_append]

theorem weight_rest_seek_le (t : Text) : weight (t.seek (-1) .cur).rest ≤ weight t.rest + 1 := by
  have hdata (k : ℕ) (u : Text) : (u.seekBackward k).data = u.data ∧ (u.seekBackward k).sp = u.sp - k := by
    induction k generalizing u with
    | zero => exact ⟨rfl, rfl⟩
    | succ k ih =>
        obtain ⟨hdata, hsp⟩ := ih { u with
          sp := u.sp - 1
          line := if u.at_ (u.sp - 1) = chr '\n' then u.line - 1 else u.line }
        refine ⟨hdata, hsp.trans ?_⟩
        dsimp only
        omega
  have htarget : t.seekTarget (-1) .cur ≤ t.sp ∧
      (t.seekTarget (-1) .cur + 1 = t.sp ∨ t.seekTarget (-1) .cur = t.sp ∨
        t.data.length ≤ t.seekTarget (-1) .cur) := by
    simp only [Text.seekTarget]
    split <;> split <;> omega
  obtain ⟨hle, hcase⟩ := htarget
  have hrest : (t.seek (-1) .cur).rest = t.data.drop (t.seekTarget (-1) .cur) := by
    simp only [Text.seek, if_neg (Nat.not_lt.mpr hle)]
    obtain ⟨hd, hsp⟩ := hdata (t.sp - t.seekTarget (-1) .cur) t
    rw [Text.rest, hd, hsp]
    congr 1
    omega
  rw [hrest]
  rcases hcase with hone | hsame | hend
  · by_cases hlt : t.seekTarget (-1) .cur < t.data.length
    · rw [List.drop_eq_getElem_cons hlt, hone, weight_cons]
      exact Nat.add_le_add_left (weight_singleton_le _) _
    · rw [List.drop_eq_nil_iff.mpr (Nat.le_of_not_lt hlt)]
      exact Nat.zero_le _
  · rw [hsame]
    exact Nat.le_succ _
  · rw [List.drop_eq_nil_iff.mpr hend]
    exact Nat.zero_le _

/-- Giving back one character more than was read after `s`: a byte of the string on top comes back at
most, whichever it is. -/
theorem Taken.retract_two (h : Taken s c s₁) (htext : s.text ≠ []) :
    ∃ s₃, s₁.retract 2 = some s₃ ∧ s₃.text = s.text.dropLast ∧
      weight s₃.bytesLeft ≤ weight s.bytesLeft + 1 ∧ s₃.nexttoken = s.nexttoken := by
  obtain ⟨s₂, hback, hleft, htext₂, hnext, hobjs⟩ := h.back
  have hlen : 0 < s.text.length := List.length_pos_iff.mpr htext
  rw [retract, h.text, List.length_append, List.length_singleton] at hback
  rw [if_pos (by omega), retractLoop] at hback
  have hstep : retractStep (s.text.length + 1) s₁ = some s₂ := by
    cases hone : retractStep (s.text.length + 1) s₁ with
    | none =>
        rw [hone] at hback
        cases hback
    | some s' =>
        rw [hone] at hback
        exact hback
  obtain ⟨t, ts, hts⟩ := List.exists_cons_of_ne_nil hobjs
  rw [retract, h.text, List.length_append, List.length_singleton, if_pos (by omega), retractLoop, hstep,
    Option.bind_some, retractLoop, retractStep, hts]
  refine ⟨_, rfl, ?_, ?_, hnext⟩
  · rw [← htext₂]
  · rw [← hleft, bytesLeft, bytesLeft, hts, List.flatMap_cons, List.flatMap_cons, weight_append, weight_append]
    have hle := weight_rest_seek_le t
    omega

theorem Taken.weight_left (h : Taken s c s₁) : weight s.bytesLeft = weight s₁.bytesLeft + weight [c] := by
  rw [h.left, weight_cons]

theorem Taken.weight_text (h : Taken s c s₁) : weight s₁.text = weight s.text + weight [c] := by
  rw [h.text, weight_append]

theorem Taken.total (h : Taken s c s₁) : s₁.total = s.total := by
  have hleft := h.weight_left
  have htext := h.weight_text
  rw [Scanner.total, Scanner.total]
  omega

/-- A character that is not a space is not counted in a text that it is dropped from. -/
theorem Taken.total_drop (h : Taken s c s₁) : s₁.dropLastText.total + weight [c] = s.total := by
  have hleft := h.weight_left
  have htext : s₁.dropLastText.text = s.text := by rw [dropLastText, h.text, List.dropLast_concat]
  have hbytes : s₁.dropLastText.bytesLeft = s₁.bytesLeft := rfl
  rw [Scanner.total, Scanner.total, htext, hbytes]
  omega

theorem Taken.length_left (h : Taken s c s₁) : s₁.bytesLeft.length < s.bytesLeft.length := by
  rw [h.left, List.length_cons]
  omega

theorem AtEnd.total (h : AtEnd s s₁) : s₁.total = s.total := by
  rw [Scanner.total, Scanner.total, h.left, h.left', h.text]

theorem nextchar_total (h : nextchar s = (c, s₁)) : s₁.total = s.total := by
  rcases nextchar_cases h with htaken | ⟨-, hend⟩
  · exact htaken.total
  · exact hend.total

theorem nextchar_nexttoken (h : nextchar s = (c, s₁)) : s₁.nexttoken = s.nexttoken := by
  rcases nextchar_cases h with htaken | ⟨-, hend⟩
  · exact htaken.nexttoken
  · exact hend.nexttoken

theorem nextchar_taken (h : nextchar s = (c, s₁)) (hc : c ≠ 0) : Taken s c s₁ :=
  (nextchar_cases h).resolve_right fun hend => hc hend.1

theorem total_dropLastText_le (s : Scanner) : s.dropLastText.total ≤ s.total :=
  Nat.add_le_add_left (weight_dropLast_le s.text) _

theorem total_putText (s : Scanner) (bs : List Byte) : (s.putText bs).total = s.total + weight bs := by
  rw [total, total, putText, weight_append, Nat.add_assoc]
  rfl

/-! ### Escapes -/

/-- What an escape leaves; its backslash has been dropped from the text. -/
structure Escaped (s s' : Scanner) : Prop where
  total : s'.total ≤ s.total + 1
  length : s'.bytesLeft.length ≤ s.bytesLeft.length
  nexttoken : s'.nexttoken = s.nexttoken

theorem Escaped.trans_drop {s' : Scanner} (h : Taken s c s₁) (he : Escaped s₁.dropLastText s') : Escaped s s' := by
  have htotal := h.total_drop
  have hlength : s₁.dropLastText.bytesLeft.length < s.bytesLeft.length := h.length_left
  have hnext : s₁.dropLastText.nexttoken = s.nexttoken := h.nexttoken
  have hle := he.total
  exact ⟨by omega, by have := he.length; omega, he.nexttoken.trans hnext⟩

theorem Taken.escaped_drop (h : Taken s c s₁) : Escaped s s₁.dropLastText :=
  Escaped.trans_drop h ⟨Nat.le_succ _, le_rfl, rfl⟩

theorem Taken.escaped_put (h : Taken s c s₁) {bs : List Byte} (hbs : weight bs ≤ weight [c] + 1) :
    Escaped s (s₁.dropLastText.putText bs) := by
  have htotal := h.total_drop
  refine ⟨?_, h.length_left.le, h.nexttoken⟩
  rw [total_putText]
  omega

theorem Taken.escaped_back (h : Taken s c s₁) (b : Byte) :
    ∃ s', (s₁.retract 1).map (fun s => s.putText [b]) = some s' ∧ Escaped s s' := by
  obtain ⟨s₂, hback, hleft, htext, hnext, -⟩ := h.back
  refine ⟨s₂.putText [b], by rw [hback, Option.map_some], ?_, ?_, hnext⟩
  · rw [total_putText, Scanner.total, hleft, htext]
    exact Nat.add_le_add_left (weight_singleton_le b) _
  · exact (congrArg List.length hleft).le

theorem getEscapeLoop_escaped (n : ℕ) (est : EscState) (s : Scanner) :
    ∃ s', getEscapeLoop n est s = some s' ∧ Escaped s s' := by
  induction n generalizing est s with
  | zero => exact ⟨s, rfl, Nat.le_succ _, le_rfl, rfl⟩
  | succ n ih =>
      obtain ⟨c, s₁, hnext⟩ : ∃ c s₁, nextchar s = (c, s₁) := ⟨_, _, rfl⟩
      rw [getEscapeLoop, hnext]
      dsimp only
      split
      · refine ⟨s₁, rfl, (nextchar_total hnext).le.trans (Nat.le_succ _), ?_, nextchar_nexttoken hnext⟩
        rcases nextchar_cases hnext with htaken | ⟨-, hend⟩
        · exact htaken.length_left.le
        · rw [hend.left, hend.left']
      · rename_i hc
        have htaken := nextchar_taken hnext hc
        have hmore (est' : EscState) : ∃ s', getEscapeLoop n est' s₁.dropLastText = some s' ∧ Escaped s s' := by
          obtain ⟨s', hloop, hescaped⟩ := ih est' s₁.dropLastText
          exact ⟨s', hloop, hescaped.trans_drop htaken⟩
        cases est with
        | s0 =>
            dsimp only
            split
            · rename_i b _
              exact ⟨_, rfl, htaken.escaped_put ((weight_singleton_le b).trans (Nat.le_add_left _ _))⟩
            · split
              · exact ⟨_, rfl, htaken.escaped_drop⟩
              · split
                · exact hmore _
                · split
                  · exact hmore _
                  · refine ⟨_, rfl, htaken.escaped_put ?_⟩
                    rw [weight_cons]
                    exact Nat.add_le_add_left (weight_singleton_le _) _
        | s10 result =>
            dsimp only
            split
            · exact htaken.escaped_back _
            · exact hmore _
        | s20 result =>
            dsimp only
            split
            · exact htaken.escaped_back _
            · exact hmore _

/-! ### The rounds -/

/-- The token `tok` was read, of what weighed `w`. -/
structure Advanced (w : ℕ) (tok : Token) (s : Scanner) : Prop where
  nexttoken : s.nexttoken = none
  left : weight s.bytesLeft ≤ w
  used : tok ≠ .eof → weight s.bytesLeft + max 1 (weight s.text) ≤ w

/-- The text of a token is there already. -/
structure Solid (w : ℕ) (s : Scanner) : Prop where
  nexttoken : s.nexttoken = none
  total : s.total ≤ w
  text : 0 < weight s.text

/-- The marks around the text have been read. -/
structure Marked (w : ℕ) (s : Scanner) : Prop where
  nexttoken : s.nexttoken = none
  total : s.total < w

/-- What holds in the states of `look`. -/
def Holding (w : ℕ) : LookState → Scanner → Prop
  | s0, s => s.nexttoken = none ∧ s.total ≤ w
  | s1000, s => s.nexttoken = none ∧ s.text = [] ∧ weight s.bytesLeft ≤ w ∧ ∀ c ∈ s.bytesLeft.head?, c ≠ chr ' '
  | s2, s | s9, s | s900, s | s40, s | s41, s => Marked w s
  | s82, s | s820, s => Solid w s ∧ ∃ p e, s.text = p ++ [e] ∧ 0 < weight p ∧ e ≠ chr ' '
  | _, s => Solid w s

/-- Rounds still to come: only state 0 can pass a character on. -/
def roundsToCome (st : LookState) (s : Scanner) : ℕ := s.bytesLeft.length + if st = s0 then 1 else 0

/-- How a round may end. -/
def RoundHolds (w n : ℕ) : Option LookResult → Prop
  | none => False
  | some (done tok s) => Advanced w tok s
  | some (more st s) => Holding w st s ∧ roundsToCome st s < n

theorem roundHolds_ite {p : Prop} [Decidable p] {a b : Option LookResult} (ha : p → RoundHolds w n a)
    (hb : ¬p → RoundHolds w n b) : RoundHolds w n (if p then a else b) := by
  split
  · exact ha ‹_›
  · exact hb ‹_›

theorem Solid.advanced (h : Solid w s) (tok : Token) : Advanced w tok s := by
  have htotal := h.total
  have htext := h.text
  rw [Scanner.total] at htotal
  exact ⟨h.nexttoken, by omega, fun _ => by omega⟩

theorem Marked.advanced (h : Marked w s) (tok : Token) : Advanced w tok s := by
  have htotal := h.total
  rw [Scanner.total] at htotal
  exact ⟨h.nexttoken, by omega, fun _ => by omega⟩

theorem Solid.holding (h : Solid w s) (hst : plainState st) (hmark : ¬(st = s82 ∨ st = s820)) : Holding w st s := by
  cases st with
  | s0 | s1000 | s2 | s9 | s900 | s40 | s41 => cases hst
  | s82 | s820 => exact absurd (by decide) hmark
  | _ => exact h

theorem Solid.read (h : Solid w s) (hnext : nextchar s = (c, s₁)) : Solid w s₁ := by
  refine ⟨(nextchar_nexttoken hnext).trans h.nexttoken, (nextchar_total hnext).le.trans h.total, ?_⟩
  rcases nextchar_cases hnext with htaken | ⟨-, hend⟩
  · rw [htaken.weight_text]
    exact Nat.add_pos_left h.text _
  · rw [hend.text]
    exact h.text

theorem Solid.drop (h : Solid w s) (htaken : Taken s c s₁) : Solid w s₁.dropLastText := by
  have htext : s₁.dropLastText.text = s.text := by rw [dropLastText, htaken.text, List.dropLast_concat]
  refine ⟨htaken.nexttoken.trans h.nexttoken, ?_, htext ▸ h.text⟩
  have htotal := htaken.total_drop
  have hle := h.total
  omega

theorem Solid.back (h : Solid w s) (htaken : Taken s c s₁) : ∃ s₂, s₁.retract 1 = some s₂ ∧ Solid w s₂ := by
  obtain ⟨s₂, hback, hleft, htext, hnext, -⟩ := htaken.back
  have htotal : s₂.total = s.total := by rw [Scanner.total, Scanner.total, hleft, htext]
  exact ⟨s₂, hback, hnext.trans h.nexttoken, htotal ▸ h.total, htext ▸ h.text⟩

theorem Solid.roundHolds_back (h : Solid w s) (htaken : Taken s c s₁) (tok : Token) :
    RoundHolds w n (s₁.giveBack 1 tok) := by
  obtain ⟨s₂, hback, hsolid⟩ := h.back htaken
  rw [giveBack, hback]
  exact hsolid.advanced tok

/-- A text that is started again without the mark that was in it. -/
theorem Solid.restart (h : Solid w s) (s' : Scanner) (hobjs : s'.scanobjs = s.scanobjs) (htext : s'.text = [])
    (hnext : s'.nexttoken = s.nexttoken) : Marked w s' := by
  refine ⟨hnext.trans h.nexttoken, ?_⟩
  have htotal := h.total
  have hpos := h.text
  have hbytes : s'.bytesLeft = s.bytesLeft := congrArg (List.flatMap Text.rest) hobjs
  rw [Scanner.total] at htotal
  rw [Scanner.total, htext, hbytes]
  show weight s.bytesLeft + 0 < w
  omega

theorem Marked.read (h : Marked w s) (hnext : nextchar s = (c, s₁)) : Marked w s₁ :=
  ⟨(nextchar_nexttoken hnext).trans h.nexttoken, (nextchar_total hnext).trans_lt h.total⟩

theorem Marked.dropLastText (h : Marked w s) : Marked w s.dropLastText :=
  ⟨h.nexttoken, (total_dropLastText_le s).trans_lt h.total⟩

theorem roundsToCome_lt {s' : Scanner} (htaken : Taken s c s₁) (hs' : s'.bytesLeft = s₁.bytesLeft) (hst : st ≠ s0)
    (hn : s.bytesLeft.length ≤ n) : roundsToCome st s' < n := by
  rw [roundsToCome, if_neg hst, hs']
  have hlt := htaken.length_left
  omega

/-- A round from a state that only collects text. -/
theorem Solid.roundHolds (h : Solid w s) (hnext : nextchar s = (c, s₁)) (hn : s.bytesLeft.length ≤ n)
    {res : Option LookResult} (hres : PlainStep c s₁ res) : RoundHolds w n res := by
  have hread := h.read hnext
  cases hres with
  | eof hc => exact hread.advanced _
  | ended hc htok => exact hread.advanced _
  | error hc msg => exact Solid.advanced (s := s₁.swigError msg) ⟨hread.nexttoken, hread.total, hread.text⟩ _
  | done hc htok => exact hread.advanced _
  | back hc htok => exact h.roundHolds_back (nextchar_taken hnext hc) _
  | backDollar hc =>
      obtain ⟨s₂, hback, hsolid⟩ := h.back (nextchar_taken hnext hc)
      rw [hback]
      exact hsolid.advanced _
  | @more st hc hst hmark =>
      refine ⟨hread.holding hst hmark, roundsToCome_lt (nextchar_taken hnext hc) rfl ?_ hn⟩
      rintro rfl
      cases hst
  | mark hc he hst =>
      have htaken := nextchar_taken hnext hc
      have hne : c ≠ chr ' ' := by
        rintro rfl
        exact absurd he (by decide)
      rcases hst with rfl | rfl
      · exact ⟨⟨hread, s.text, c, htaken.text, h.text, hne⟩, roundsToCome_lt htaken rfl (by decide) hn⟩
      · exact ⟨⟨hread, s.text, c, htaken.text, h.text, hne⟩, roundsToCome_lt htaken rfl (by decide) hn⟩
  | float hc hf => exact (h.drop (nextchar_taken hnext hc)).advanced _
  | double hc hl => exact (h.drop (nextchar_taken hnext hc)).advanced _

/-- The rounds after the mark of an exponent. -/
theorem Solid.roundHolds_mark (h : Solid w s) {p : List Byte} {e : Byte} (htext : s.text = p ++ [e])
    (hp : 0 < weight p) (he : e ≠ chr ' ') (hnext : nextchar s = (c, s₁)) (hn : s.bytesLeft.length ≤ n)
    (hleft : s.bytesLeft ≠ []) (tok : Token) : RoundHolds w n (if c = 0 then s₁.giveBack 1 tok
      else if isdigit c || c == chr '-' || c == chr '+' then some (more s86 s₁) else s₁.giveBack 2 tok) := by
  have htaken : Taken s c s₁ := (nextchar_cases hnext).resolve_right fun hend => hleft hend.2.left
  refine roundHolds_ite (fun _ => h.roundHolds_back htaken tok) fun _ => ?_
  refine roundHolds_ite (fun _ => ⟨h.read hnext, roundsToCome_lt htaken rfl (by decide) hn⟩) fun _ => ?_
  obtain ⟨s₃, hback, htext₃, hweight, hnext₃⟩ := htaken.retract_two (by simp [htext])
  rw [giveBack, hback]
  rw [htext, List.dropLast_concat] at htext₃
  refine Solid.advanced ⟨hnext₃.trans h.nexttoken, ?_, htext₃ ▸ hp⟩ tok
  have htotal := h.total
  rw [Scanner.total, htext, weight_append, weight_singleton he] at htotal
  rw [Scanner.total, htext₃]
  omega

/-- Strings and character constants. -/
theorem Marked.roundHolds_quoted (h : Marked w s) (hnext : nextchar s = (c, s₁)) (hn : s.bytesLeft.length ≤ n)
    (hst : st = s2 ∨ st = s9) (q : Byte) (tok : Token) (msg : String) :
    RoundHolds w n (if c = 0 then some (done .error (s₁.swigError msg))
      else if c = q then some (done tok s₁.dropLastText)
      else if c = chr '\\' then (getEscape s₁.dropLastText).map (more st)
      else some (more st s₁)) := by
  have hread := h.read hnext
  have hmore {s' : Scanner} (hmarked : Marked w s') (hlt : s'.bytesLeft.length < n) :
      RoundHolds w n (some (more st s')) := by
    rcases hst with rfl | rfl
    · exact ⟨hmarked, hlt⟩
    · exact ⟨hmarked, hlt⟩
  refine roundHolds_ite (fun _ => Marked.advanced (s := s₁.swigError msg) ⟨hread.nexttoken, hread.total⟩ _) fun hc => ?_
  have htaken := nextchar_taken hnext hc
  refine roundHolds_ite (fun _ => hread.dropLastText.advanced _) fun _ => ?_
  refine roundHolds_ite (fun hb => ?_) fun _ => hmore hread (htaken.length_left.trans_le hn)
  obtain ⟨s', hescape, hescaped⟩ := getEscapeLoop_escaped (s₁.dropLastText.remaining + 1) .s0 s₁.dropLastText
  rw [getEscape, hescape]
  have hone : weight [c] = 1 := hb ▸ by decide
  have htotal := htaken.total_drop
  have hlt := h.total
  refine hmore ⟨hescaped.nexttoken.trans hread.nexttoken, ?_⟩ ?_
  · have hle := hescaped.total
    omega
  · exact (hescaped.length.trans_lt htaken.length_left).trans_le hn

/-- Blanks before the token. -/
theorem roundHolds_blank (h : Holding w s0 s) : RoundHolds w (roundsToCome s0 s) (lookStep s0 s) := by
  obtain ⟨hnone, htotal⟩ := h
  obtain ⟨c, s₁, hnext⟩ : ∃ c s₁, nextchar s = (c, s₁) := ⟨_, _, rfl⟩
  simp only [lookStep, hnext, reduceCtorEq, if_false]
  have hread : s₁.nexttoken = none ∧ s₁.total ≤ w :=
    ⟨(nextchar_nexttoken hnext).trans hnone, (nextchar_total hnext).le.trans htotal⟩
  refine roundHolds_ite (fun _ => ?_) fun hc => ?_
  · exact ⟨hread.1, (Nat.le_add_right _ _).trans hread.2, fun h => absurd rfl h⟩
  have htaken := nextchar_taken hnext hc
  refine roundHolds_ite (fun hnl => ?_) fun _ => ?_
  · refine Solid.advanced ⟨hread.1, hread.2, ?_⟩ _
    rw [htaken.weight_text, hnl]
    exact Nat.add_pos_right _ (by decide)
  refine roundHolds_ite (fun hspace => ?_) fun _ => ?_
  · obtain ⟨s₂, hback, hleft, -, hnext₂, -⟩ := htaken.back
    rw [hback]
    have hbytes : bytesLeft { s₂ with text := [], textLine := s₂.line } = c :: s₁.bytesLeft := hleft.trans htaken.left
    refine ⟨⟨hnext₂.trans hnone, rfl, ?_, ?_⟩, ?_⟩
    · rw [hbytes, ← htaken.left]
      exact (Nat.le_add_right _ _).trans htotal
    · rw [hbytes]
      rintro _ ⟨⟩ rfl
      exact absurd hspace (by decide)
    · rw [roundsToCome, roundsToCome, hbytes, ← htaken.left]
      simp
  · refine ⟨hread, ?_⟩
    have hlt := htaken.length_left
    simp only [roundsToCome, if_true]
    omega

/-- The first character of a token, which is not a space. -/
theorem roundHolds_first (h : Holding w s1000 s) : RoundHolds w (roundsToCome s1000 s) (lookStep s1000 s) := by
  obtain ⟨hnone, htext, hweight, hhead⟩ := h
  obtain ⟨c, s₁, hnext⟩ : ∃ c s₁, nextchar s = (c, s₁) := ⟨_, _, rfl⟩
  have hn : s.bytesLeft.length ≤ roundsToCome s1000 s := Nat.le_add_right _ _
  simp only [lookStep, hnext, reduceCtorEq, if_false]
  have htotal : s₁.total ≤ w := by
    rw [nextchar_total hnext, Scanner.total, htext]
    exact hweight
  have hsolid (hc : c ≠ 0) : Solid w s₁ := by
    have htaken := nextchar_taken hnext hc
    refine ⟨htaken.nexttoken.trans hnone, htotal, ?_⟩
    rw [htaken.weight_text, weight_singleton (hhead c (by rw [htaken.left]; rfl))]
    exact Nat.succ_pos _
  have hfirst := firstStep_lookFirst c s₁
  generalize lookFirst c s₁ = res at hfirst
  cases hfirst with
  | eof hc =>
      exact ⟨(nextchar_nexttoken hnext).trans hnone, (Nat.le_add_right _ _).trans htotal, fun h => absurd rfl h⟩
  | done hc htok => exact (hsolid hc).advanced _
  | more hc hst hmark =>
      refine ⟨(hsolid hc).holding hst hmark, roundsToCome_lt (nextchar_taken hnext hc) rfl ?_ hn⟩
      rintro rfl
      cases hst
  | percent h =>
      have hc : c ≠ 0 := h ▸ by decide
      exact ⟨hsolid hc, roundsToCome_lt (nextchar_taken hnext hc) rfl (by decide) hn⟩
  | slash h =>
      have hc : c ≠ 0 := h ▸ by decide
      refine ⟨?_, roundsToCome_lt (nextchar_taken hnext hc) rfl (by decide) hn⟩
      exact ⟨(hsolid hc).nexttoken, (hsolid hc).total, (hsolid hc).text⟩
  | quote h =>
      have hc : c ≠ 0 := by rcases h with ⟨h, -⟩ | ⟨h, -⟩ | ⟨h, -⟩ <;> exact h ▸ by decide
      have htaken := nextchar_taken hnext hc
      have hmarked := (hsolid hc).restart { s₁ with startLine := s₁.line, text := [] } rfl rfl rfl
      rcases h with ⟨-, rfl⟩ | ⟨-, rfl⟩ | ⟨-, rfl⟩
      · exact ⟨hmarked, roundsToCome_lt htaken rfl (by decide) hn⟩
      · exact ⟨hmarked, roundsToCome_lt htaken rfl (by decide) hn⟩
      · exact ⟨hmarked, roundsToCome_lt htaken rfl (by decide) hn⟩

/-- After a slash the text of a comment is started again, with the same mark. -/
theorem roundHolds_slash (h : Solid w s) : RoundHolds w (roundsToCome s1 s) (lookStep s1 s) := by
  obtain ⟨c, s₁, hnext⟩ : ∃ c s₁, nextchar s = (c, s₁) := ⟨_, _, rfl⟩
  have hn : s.bytesLeft.length ≤ roundsToCome s1 s := Nat.le_add_right _ _
  have hread := h.read hnext
  simp only [lookStep, hnext, reduceCtorEq, if_false]
  refine roundHolds_ite (fun _ => hread.advanced _) fun hc => ?_
  have htaken := nextchar_taken hnext hc
  have hcomment (hne : c ≠ chr ' ') (mark : List Byte) (hmark : weight mark = 2) :
      Solid w (s₁.restartText mark) := by
    refine ⟨hread.nexttoken, ?_, ?_⟩
    · have htotal := hread.total
      have hpos := h.text
      rw [Scanner.total, htaken.weight_text, weight_singleton hne] at htotal
      show weight s₁.bytesLeft + weight mark ≤ w
      omega
    · show 0 < weight mark
      omega
  refine roundHolds_ite (fun h => ?_) fun _ => ?_
  · exact ⟨hcomment (h ▸ by decide) (lit "//") rfl, roundsToCome_lt htaken rfl (by decide) hn⟩
  refine roundHolds_ite (fun h => ?_) fun _ => ?_
  · exact ⟨hcomment (h ▸ by decide) (lit "/*") rfl, roundsToCome_lt htaken rfl (by decide) hn⟩
  exact roundHolds_ite (fun _ => hread.advanced _) fun _ => h.roundHolds_back htaken _

/-- After a percent sign the text of a block is started without its mark. -/
theorem roundHolds_percent (h : Solid w s) : RoundHolds w (roundsToCome s4 s) (lookStep s4 s) := by
  obtain ⟨c, s₁, hnext⟩ : ∃ c s₁, nextchar s = (c, s₁) := ⟨_, _, rfl⟩
  have hn : s.bytesLeft.length ≤ roundsToCome s4 s := Nat.le_add_right _ _
  have hread := h.read hnext
  simp only [lookStep, hnext, reduceCtorEq, if_false]
  refine roundHolds_ite (fun _ => hread.advanced _) fun hc => ?_
  have htaken := nextchar_taken hnext hc
  refine roundHolds_ite (fun _ => ?_) fun _ => ?_
  · exact ⟨hread.restart _ rfl rfl rfl, roundsToCome_lt htaken rfl (by decide) hn⟩
  refine roundHolds_ite (fun _ => ⟨hread, roundsToCome_lt htaken rfl (by decide) hn⟩) fun _ => ?_
  exact roundHolds_ite (fun _ => hread.advanced _) fun _ => h.roundHolds_back htaken _

/-- Raw strings and blocks. -/
theorem roundHolds_enclosed (h : Marked w s) (hst : st = s900 ∨ st = s40 ∨ st = s41) :
    RoundHolds w (roundsToCome st s) (lookStep st s) := by
  obtain ⟨c, s₁, hnext⟩ : ∃ c s₁, nextchar s = (c, s₁) := ⟨_, _, rfl⟩
  have hn : s.bytesLeft.length ≤ roundsToCome st s := Nat.le_add_right _ _
  have hread := h.read hnext
  have hmore (hc : c ≠ 0) {st' : LookState} (hst' : st' = s900 ∨ st' = s40 ∨ st' = s41) :
      RoundHolds w (roundsToCome st s) (some (more st' s₁)) := by
    have htaken := nextchar_taken hnext hc
    rcases hst' with rfl | rfl | rfl <;> exact ⟨hread, roundsToCome_lt htaken rfl (by decide) hn⟩
  have herror (msg : String) : Advanced w .error (s₁.swigError msg) :=
    Marked.advanced (s := s₁.swigError msg) ⟨hread.nexttoken, hread.total⟩ .error
  rcases hst with rfl | rfl | rfl <;> simp only [lookStep, hnext, reduceCtorEq, if_false]
  · refine roundHolds_ite (fun _ => herror _) fun hc => ?_
    exact roundHolds_ite (fun _ => hread.dropLastText.advanced _) fun _ => hmore hc (.inl rfl)
  · refine roundHolds_ite (fun _ => herror _) fun hc => ?_
    exact roundHolds_ite (fun _ => hmore hc (.inr (.inr rfl))) fun _ => hmore hc (.inr (.inl rfl))
  · refine roundHolds_ite (fun _ => ?_) fun hc => ?_
    · exact Marked.advanced (s := s₁.setError _ _) ⟨hread.nexttoken, hread.total⟩ _
    · exact roundHolds_ite (fun _ => hread.dropLastText.dropLastText.advanced _) fun _ => hmore hc (.inr (.inl rfl))

/-- A round of `look`. -/
theorem Holding.roundHolds (h : Holding w st s) (hmark : st = s82 ∨ st = s820 → s.bytesLeft ≠ []) :
    RoundHolds w (roundsToCome st s) (lookStep st s) := by
  obtain ⟨c, s₁, hnext⟩ : ∃ c s₁, nextchar s = (c, s₁) := ⟨_, _, rfl⟩
  have hn : s.bytesLeft.length ≤ roundsToCome st s := Nat.le_add_right _ _
  cases st with
  | s0 => exact roundHolds_blank h
  | s1000 => exact roundHolds_first h
  | s1 => exact roundHolds_slash h
  | s4 => exact roundHolds_percent h
  | s2 =>
      simp only [lookStep, hnext, reduceCtorEq, if_false]
      exact Marked.roundHolds_quoted h hnext hn (.inl rfl) _ _ _
  | s9 =>
      simp only [lookStep, hnext, reduceCtorEq, if_false]
      exact Marked.roundHolds_quoted h hnext hn (.inr rfl) _ _ _
  | s900 | s40 | s41 => exact roundHolds_enclosed h (by decide)
  | s82 =>
      obtain ⟨hsolid, p, e, htext, hp, he⟩ := h
      simp only [lookStep, hnext, reduceCtorEq, if_false]
      exact hsolid.roundHolds_mark htext hp he hnext hn (hmark (.inl rfl)) _
  | s820 =>
      obtain ⟨hsolid, p, e, htext, hp, he⟩ := h
      simp only [lookStep, hnext, reduceCtorEq, if_false]
      exact hsolid.roundHolds_mark htext hp he hnext hn (hmark (.inr rfl)) _
  | s99 => exact Solid.advanced h _
  | _ =>
      have hsolid : Solid w s := h
      exact hsolid.roundHolds hnext hn (plainStep_lookStep rfl (by decide) (by rintro ⟨⟩) hnext)

/-! ### Tokens -/

/-- The next token is a number, and the mark of its exponent ends the input. -/
def EndsInMark (s₀ : Scanner) : Prop := ∃ st s, Rounds s₀ st s ∧ (st = s82 ∨ st = s820) ∧ s.bytesLeft = []

theorem Holding.lookLoop {s₀ : Scanner} (h : Holding w st s) (hrounds : Rounds s₀ st s) (hmark : ¬EndsInMark s₀)
    (hn : roundsToCome st s < n) : ∃ tok s', lookLoop n st s = some (tok, s') ∧ Advanced w tok s' := by
  induction n generalizing st s with
  | zero => omega
  | succ n ih =>
      have hround := h.roundHolds fun hst hleft => hmark ⟨st, s, hrounds, hst, hleft⟩
      rw [Scanner.lookLoop]
      cases hstep : lookStep st s with
      | none =>
          rw [hstep] at hround
          exact hround.elim
      | some res =>
          rw [hstep] at hround
          cases res with
          | done tok s' => exact ⟨tok, s', rfl, hround⟩
          | more st' s' =>
              obtain ⟨hholding, hlt⟩ := hround
              exact ih hholding (hrounds.round hstep) (by omega)

/-- Where the mark of an exponent ends the input, `retract` has no string to step back in. -/
theorem lookStep_mark_eq_none (hst : st = s82 ∨ st = s820) (hleft : s.bytesLeft = []) : lookStep st s = none := by
  have hback (s₁ : Scanner) (hobjs : s₁.scanobjs = []) (tok : Token) : s₁.giveBack 1 tok = none := by
    rw [giveBack, retract]
    split
    · rw [retractLoop, retractStep, hobjs]
      rfl
    · rfl
  rcases nextcharFrom_cases s s.scanobjs with ⟨-, l, hnext⟩ | ⟨c, cs, t, ts, l, -, hcons, -⟩
  · have hnext : nextchar s = (0, { s with scanobjs := [], line := l }) := hnext
    rcases hst with rfl | rfl
    · simp only [lookStep, hnext, reduceCtorEq, if_false, if_true]
      exact hback _ rfl _
    · simp only [lookStep, hnext, reduceCtorEq, if_false, if_true]
      exact hback _ rfl _
  · rw [bytesLeft] at hleft
    cases hleft.symm.trans hcons

theorem Rounds.lookLoop {s₀ : Scanner} (h : Rounds s₀ st s) {r : Token × Scanner}
    (hloop : ∃ n, lookLoop n s0 { s₀ with startLine := s₀.line, text := [] } = some r) :
    ∃ n, Scanner.lookLoop n st s = some r := by
  induction h with
  | start => exact hloop
  | round _ hs ih =>
      obtain ⟨n, hn⟩ := ih
      cases n with
      | zero => cases hn
      | succ n =>
          rw [Scanner.lookLoop, hs] at hn
          exact ⟨n, hn⟩

/-- What is left, with a token that was pushed. -/
def load (s : Scanner) : ℕ :=
  weight s.bytesLeft + match s.nexttoken with
    | none | some .eof => 0
    | some _ => max 1 (weight s.text)

theorem load_of_none (h : s.nexttoken = none) : s.load = weight s.bytesLeft := by rw [load, h, Nat.add_zero]

/-- A call of `Scanner_token` returns, and every token but 0 is taken from what is left. -/
theorem token_advanced (hmark : s.nexttoken = none → ¬EndsInMark s) :
    ∃ tok s', s.token = some (tok, s') ∧ Advanced s.load tok s' := by
  cases hnext : s.nexttoken with
  | some t =>
      refine ⟨t, { s with nexttoken := none }, by rw [token, hnext], rfl, ?_, fun ht => ?_⟩
      · exact Nat.le_add_right _ _
      · rw [load, hnext]
        cases t <;> first | exact le_rfl | exact absurd rfl ht
  | none =>
      have hstart : Holding s.load s0 { s with startLine := s.line, text := [] } := by
        refine ⟨hnext, ?_⟩
        rw [load_of_none hnext]
        exact le_rfl
      have hlength : s.bytesLeft.length = s.remaining := by rw [bytesLeft, List.length_flatMap, remaining]
      have hn : roundsToCome s0 { s with startLine := s.line, text := [] } < s.remaining + 2 := by
        have hbytes : bytesLeft { s with startLine := s.line, text := [] } = s.bytesLeft := rfl
        rw [roundsToCome, hbytes, hlength, if_pos rfl]
        exact Nat.lt_succ_self _
      obtain ⟨tok, s', hloop, hadvanced⟩ := hstart.lookLoop .start (hmark hnext) hn
      refine ⟨tok, { s' with textLine := if s'.startLine = 0 then s'.line else s'.startLine }, ?_, hadvanced.nexttoken,
        hadvanced.left, hadvanced.used⟩
      unfold token
      split
      · rename_i t ht
        cases hnext.symm.trans ht
      · show (Scanner.lookLoop (s.remaining + 2) s0 { s with startLine := s.line, text := [] }).map _ = _
        rw [hloop]
        rfl

theorem token_of_endsInMark (hnext : s.nexttoken = none) (h : EndsInMark s) : s.token = none := by
  obtain ⟨st, s', hrounds, hst, hleft⟩ := h
  unfold token
  split
  · rename_i t ht
    cases hnext.symm.trans ht
  · show (Scanner.lookLoop (s.remaining + 2) s0 { s with startLine := s.line, text := [] }).map _ = _
    cases hloop : Scanner.lookLoop (s.remaining + 2) s0 { s with startLine := s.line, text := [] } with
    | none => rfl
    | some r =>
        obtain ⟨n, hn⟩ := hrounds.lookLoop ⟨_, hloop⟩
        cases n with
        | zero => cases hn
        | succ n =>
            rw [Scanner.lookLoop, lookStep_mark_eq_none hst hleft] at hn
            cases hn

/-- The only way not to return is the mark of an exponent at the end of the input. -/
theorem token_eq_none_iff : s.token = none ↔ s.nexttoken = none ∧ EndsInMark s := by
  constructor
  · intro hnone
    by_contra hnot
    obtain ⟨tok, s', htoken, -⟩ := token_advanced fun hnext h => hnot ⟨hnext, h⟩
    cases hnone.symm.trans htoken
  · rintro ⟨hnext, h⟩
    exact token_of_endsInMark hnext h

theorem advanced_of_token {s' : Scanner} (h : s.token = some (tok, s')) : Advanced s.load tok s' := by
  obtain ⟨tok', s'', htoken, hadvanced⟩ := token_advanced (s := s) fun hnext hends => by
    cases (token_of_endsInMark hnext hends).symm.trans h
  cases htoken.symm.trans h
  exact hadvanced

end Swig.Scanner
