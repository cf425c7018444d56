import Swig.Scanner.Reading

/-!
Where the scanner is in the stacked strings. A string read to its end stays on
the stack until the next character is asked for, so positions are compared after
`settle`.
-/

namespace Swig.Scanner

/-- The line number after a character. -/
def lineAfter (l : ℤ) (c : Byte) : ℤ := if c = chr '\n' then l + 1 else l

/-- The characters with the line number the scanner has after each. -/
def numbered (l : ℤ) : List Byte → List (Byte × ℤ)
  | [] => []
  | c :: cs => (c, lineAfter l c) :: numbered (lineAfter l c) cs

/-- All characters left. A string below the current one goes on from the line at
which it was interrupted. -/
def left (s : Scanner) : List (Byte × ℤ) :=
  match s.scanobjs with
  | [] => []
  | t :: ts => numbered s.line t.rest ++ ts.flatMap fun u => numbered u.line u.rest

/-- The line number when the string on top is dropped. -/
def lineBelow (l : ℤ) : List Text → ℤ
  | [] => l
  | u :: _ => u.line

/-- Drop the strings at the top that have been read to their end. -/
def settleFrom (s : Scanner) : List Text → Scanner
  | [] => { s with scanobjs := [] }
  | t :: ts =>
      if t.rest = [] then settleFrom { s with line := lineBelow s.line ts } ts
      else { s with scanobjs := t :: ts }

def settle (s : Scanner) : Scanner := settleFrom s s.scanobjs

@[simp]
theorem numbered_nil (l : ℤ) : numbered l [] = [] := rfl

theorem numbered_eq_nil {l : ℤ} {cs : List Byte} : numbered l cs = [] ↔ cs = [] := by
  cases cs <;> simp [numbered]

theorem length_numbered (l : ℤ) (cs : List Byte) : (numbered l cs).length = cs.length := by
  induction cs generalizing l with
  | nil => rfl
  | cons c cs ih => simp [numbered, ih]

theorem map_fst_numbered (l : ℤ) (cs : List Byte) : (numbered l cs).map Prod.fst = cs := by
  induction cs generalizing l with
  | nil => rfl
  | cons c cs ih => simp [numbered, ih]

variable {s s' : Scanner} {objs ts : List Text} {t : Text} {c : Byte} {l : ℤ} {r : List (Byte × ℤ)}

theorem length_left (s : Scanner) : s.left.length = s.remaining := by
  have hbelow (us : List Text) : (us.flatMap fun u => numbered u.line u.rest).length =
      (us.map fun u => u.rest.length).sum := by
    simp [List.length_flatMap, length_numbered]
  unfold left remaining
  cases s.scanobjs with
  | nil => rfl
  | cons t ts => rw [List.length_append, hbelow, length_numbered, List.map_cons, List.sum_cons]

/-! ### Settling -/

theorem settleFrom_eq (s : Scanner) (objs : List Text) :
    ∃ l os, settleFrom s objs = { s with line := l, scanobjs := os } := by
  induction objs generalizing s with
  | nil => exact ⟨_, _, rfl⟩
  | cons t ts ih =>
      rw [settleFrom]
      split
      · exact ih _
      · exact ⟨_, _, rfl⟩

theorem settle_text (s : Scanner) : s.settle.text = s.text := by
  obtain ⟨l, os, h⟩ := settleFrom_eq s s.scanobjs
  rw [settle, h]

theorem settle_freezeLine (s : Scanner) : s.settle.freezeLine = s.freezeLine := by
  obtain ⟨l, os, h⟩ := settleFrom_eq s s.scanobjs
  rw [settle, h]

theorem left_settleFrom (s : Scanner) (objs : List Text) :
    (settleFrom s objs).left = left { s with scanobjs := objs } := by
  induction objs generalizing s with
  | nil => rfl
  | cons t ts ih =>
      rw [settleFrom]
      split
      · rename_i ht
        rw [ih]
        cases ts with
        | nil => simp [left, ht]
        | cons u us => simp [left, ht, lineBelow]
      · rfl

theorem left_settle (s : Scanner) : s.settle.left = s.left := left_settleFrom s s.scanobjs

theorem settleFrom_scanobjs (s : Scanner) (objs : List Text) :
    (settleFrom s objs).scanobjs = [] ∨
      ∃ t ts, (settleFrom s objs).scanobjs = t :: ts ∧ t.rest ≠ [] := by
  induction objs generalizing s with
  | nil => exact .inl rfl
  | cons t ts ih =>
      rw [settleFrom]
      split
      · exact ih _
      · exact .inr ⟨t, ts, rfl, ‹_›⟩

theorem settle_of_rest (hobjs : s.scanobjs = t :: ts) (ht : t.rest ≠ []) : s.settle = s := by
  unfold settle
  rw [hobjs, settleFrom, if_neg ht, ← hobjs]

theorem settle_of_nil (hobjs : s.scanobjs = []) : s.settle = s := by
  unfold settle
  rw [hobjs, settleFrom, ← hobjs]

theorem settle_settle (s : Scanner) : s.settle.settle = s.settle := by
  rcases settleFrom_scanobjs s s.scanobjs with hobjs | ⟨t, ts, hobjs, ht⟩
  · exact settle_of_nil hobjs
  · exact settle_of_rest hobjs ht

theorem nextcharFrom_eq (s : Scanner) (objs : List Text) :
    nextcharFrom s objs = nextchar (settleFrom s objs) := by
  induction objs generalizing s with
  | nil => rfl
  | cons t ts ih =>
      rw [settleFrom]
      split
      · rename_i ht
        rw [← ih]
        cases ts <;> simp [nextcharFrom, Text.getc_of_rest_nil ht, lineBelow]
      · rename_i ht
        obtain ⟨c, cs, hrest⟩ := List.exists_cons_of_ne_nil ht
        simp only [nextchar, nextcharFrom, Text.getc_of_rest_cons hrest]

theorem nextchar_settle (s : Scanner) : nextchar s.settle = nextchar s :=
  (nextcharFrom_eq s s.scanobjs).symm

/-! ### Reading a character -/

theorem nextchar_of_left_nil (h : s.left = []) :
    nextchar s = (0, s.settle) ∧ s.settle.scanobjs = [] := by
  have hobjs : s.settle.scanobjs = [] := by
    refine (settleFrom_scanobjs s s.scanobjs).resolve_right ?_
    rintro ⟨t, ts, hobjs, ht⟩
    have hleft := left_settle s
    rw [h, settle, left, hobjs] at hleft
    exact ht (numbered_eq_nil.mp (List.append_eq_nil_iff.mp hleft).1)
  refine ⟨?_, hobjs⟩
  rw [← nextchar_settle, nextchar, hobjs, nextcharFrom, ← hobjs]

/-- The string on top once the strings read to their end are dropped. -/
theorem reads_settle (h : s.left = (c, l) :: r) :
    ∃ ts cs, s.settle.Reads ts (c :: cs) ∧ lineAfter s.settle.line c = l ∧
      r = numbered l cs ++ ts.flatMap fun u => numbered u.line u.rest := by
  have hleft := left_settle s
  rw [h] at hleft
  rcases settleFrom_scanobjs s s.scanobjs with hobjs | ⟨t, ts, hobjs, ht⟩
  · rw [settle, left, hobjs] at hleft
    cases hleft
  · obtain ⟨d, cs, hrest⟩ := List.exists_cons_of_ne_nil ht
    rw [left, settle, hobjs] at hleft
    dsimp only at hleft
    rw [hrest, numbered, List.cons_append] at hleft
    obtain ⟨hhead, rfl⟩ := List.cons.inj hleft
    cases hhead
    exact ⟨ts, cs, ⟨t, hobjs, hrest⟩, rfl, rfl⟩

/-- What `nextchar` does when something is left, and `retract` undoes it. -/
structure Nextchar (s : Scanner) (c : Byte) (l : ℤ) (r : List (Byte × ℤ)) (s' : Scanner) : Prop where
  eq : nextchar s = (c, s')
  left : s'.left = r
  line : s'.line = lineAfter s.settle.line c
  text : s'.text = s.text ++ [c]
  freezeLine : s'.freezeLine = s.freezeLine
  scanobjs : ∃ t t' ts, s.settle.scanobjs = t :: ts ∧ s'.scanobjs = t' :: ts ∧ t.rest = c :: t'.rest
  back : s'.retract 1 = some s.settle

theorem exists_nextchar (hf : s.freezeLine = false) (h : s.left = (c, l) :: r) :
    ∃ s', Nextchar s c l r s' := by
  obtain ⟨ts, cs, ⟨t, hobjs, hrest⟩, hline, rfl⟩ := reads_settle h
  have hback := retract_nextchar ⟨t, hobjs, hrest⟩
  have hfreeze := (settle_freezeLine s).trans hf
  have hnext : nextchar s.settle = (c, { s.settle with
      scanobjs := { t with
        sp := t.sp + 1
        line := if c = chr '\n' then t.line + 1 else t.line } :: ts
      line := l
      text := s.settle.text ++ [c] }) := by
    rw [nextchar, hobjs]
    simp only [nextcharFrom, Text.getc_of_rest_cons hrest, hfreeze, Bool.false_eq_true,
      not_false_eq_true, and_true]
    rw [← hline, lineAfter]
  rw [hnext] at hback
  rw [nextchar_settle] at hnext
  refine ⟨_, hnext, ?_, hline.symm, ?_, settle_freezeLine s, ?_, hback⟩
  · show numbered l (Text.rest _) ++ _ = _
    rw [Text.rest_succ hrest]
  · dsimp only
    rw [settle_text]
  · exact ⟨t, _, ts, hobjs, rfl, by rw [Text.rest_succ hrest, hrest]⟩

theorem Nextchar.settle (h : Nextchar s c l r s') : Nextchar s.settle c l r s' where
  eq := (nextchar_settle s).trans h.eq
  left := h.left
  line := by rw [h.line, settle_settle]
  text := by rw [h.text, settle_text]
  freezeLine := h.freezeLine.trans (settle_freezeLine s).symm
  scanobjs := by rw [settle_settle]; exact h.scanobjs
  back := by rw [h.back, settle_settle]

/-- Giving back two characters of one string. -/
theorem retract_two {e : Byte} {l₁ l₂ : ℤ} {r₁ r₂ : List (Byte × ℤ)} {p : Scanner}
    (h₁ : Nextchar p e l₁ r₁ s) (h₂ : Nextchar s c l₂ r₂ s') (hp : p.settle = p) (hs : s.settle = s)
    (he : e ≠ chr '\n') : s'.retract 2 = some p := by
  have hback₁ := h₁.back
  have hback₂ := h₂.back
  rw [hp] at hback₁
  rw [hs] at hback₂
  have hlen₁ : s.text.length = p.text.length + 1 := by rw [h₁.text]; simp
  have hlen₂ : s'.text.length = s.text.length + 1 := by rw [h₂.text]; simp
  rw [retract, if_pos (by omega)] at hback₁ hback₂
  rw [retract, if_pos (by omega)]
  have hstep₂ : retractStep s'.text.length s' = some s := by
    simpa [retractLoop] using hback₂
  have hstep₁ : retractStep s.text.length s = some p := by
    simpa [retractLoop] using hback₁
  -- neither sees a newline: `e` is none, and past the text there is a null byte
  have hsame : retractStep s'.text.length s = retractStep s.text.length s := by
    have hlast : s.text.getD (s.text.length - 1) 0 = e := by
      rw [h₁.text]
      simp
    have hpast : s.text.getD (s'.text.length - 1) 0 = 0 := by
      rw [hlen₂, Nat.add_sub_cancel, List.getD_eq_getElem?_getD,
        List.getElem?_eq_none (Nat.le_refl _)]
      rfl
    have hzero : (0 : Byte) ≠ chr '\n' := by decide
    unfold retractStep
    rw [hlast, hpast]
    simp only [he, hzero, false_and, if_false]
  rw [retractLoop, hstep₂, Option.bind_some, retractLoop, hsame, hstep₁]
  rfl

/-! ### Characters consumed -/

/-- `s` is `s₀` after the characters `cs`. Each of them is gone with the line it
had. The string now on top was read up to here: all of `cs` but `d` comes from
strings above it, and the line is the one it started with and the newlines in `d`. -/
structure Consumes (s₀ : Scanner) (cs : List Byte) (s : Scanner) : Prop where
  left : ∃ done, done.map Prod.fst = cs ∧ s₀.left = done ++ s.left
  line : ∀ t ts, s.scanobjs = t :: ts → ∃ above u d, s₀.scanobjs = above ++ u :: ts ∧
    cs = above.flatMap Text.rest ++ d ∧ u.rest = d ++ t.rest ∧
    s.line = (if above = [] then s₀.line else u.line) + d.count (chr '\n')
  freezeLine : s.freezeLine = false

namespace Consumes

variable {s₀ : Scanner} {cs : List Byte}

theorem refl (hf : s.freezeLine = false) : Consumes s [] s :=
  ⟨⟨[], rfl, rfl⟩, fun t ts h => ⟨[], t, [], h, rfl, rfl, by simp⟩, hf⟩

theorem congr (h : Consumes s₀ cs s) (hobjs : s'.scanobjs = s.scanobjs) (hline : s'.line = s.line)
    (hf : s'.freezeLine = s.freezeLine) : Consumes s₀ cs s' := by
  have hleft : s'.left = s.left := by rw [Scanner.left, hobjs, hline, Scanner.left]
  exact ⟨by rw [hleft]; exact h.left, by rw [hobjs, hline]; exact h.line, hf.trans h.freezeLine⟩

theorem settleFrom (h : Consumes s₀ cs { s with scanobjs := objs }) :
    Consumes s₀ cs (Scanner.settleFrom s objs) := by
  induction objs generalizing s with
  | nil => exact h
  | cons t ts ih =>
      rw [Scanner.settleFrom]
      split
      · rename_i ht
        have hleft := left_settleFrom s (t :: ts)
        apply ih
        refine ⟨?_, fun v vs hobjs => ?_, h.freezeLine⟩
        · rw [Scanner.settleFrom, if_pos ht, left_settleFrom] at hleft
          rw [hleft]
          exact h.left
        · obtain ⟨above, u, d, hall, hcs, hrest, -⟩ := h.line t ts rfl
          obtain rfl : ts = v :: vs := hobjs
          refine ⟨above ++ [u], v, [], ?_, ?_, rfl, ?_⟩
          · rw [hall, List.append_assoc, List.singleton_append]
          · rw [ht, List.append_nil] at hrest
            rw [hcs, List.flatMap_append, List.flatMap_singleton, hrest, List.append_nil]
          · simp [lineBelow]
      · exact h

theorem settle (h : Consumes s₀ cs s) : Consumes s₀ cs s.settle := settleFrom h

theorem read (h : Consumes s₀ cs s) (hnext : Nextchar s c l r s') (hleft : s.left = (c, l) :: r) :
    Consumes s₀ (cs ++ [c]) s' := by
  obtain ⟨done, hdone, hall⟩ := h.left
  obtain ⟨t, t', ts, hobjs, hobjs', hrest⟩ := hnext.scanobjs
  refine ⟨⟨done ++ [(c, l)], by simp [hdone], by rw [hall, hleft, hnext.left]; simp⟩, ?_,
    hnext.freezeLine.trans h.freezeLine⟩
  rw [hobjs']
  rintro _ _ ⟨⟩
  obtain ⟨above, u, d, hall', hcs, hu, hd⟩ := h.settle.line t ts hobjs
  refine ⟨above, u, d ++ [c], hall', by rw [hcs, List.append_assoc], by rw [hu, hrest]; simp, ?_⟩
  rw [hnext.line, hd, lineAfter, List.count_append, List.count_singleton]
  cases hc : c == chr '\n' with
  | true =>
      rw [if_pos (beq_iff_eq.mp hc), if_pos rfl]
      push_cast
      omega
  | false =>
      have hne : c ≠ chr '\n' := by simpa using hc
      rw [if_neg hne, if_neg Bool.false_ne_true, Nat.add_zero]

theorem length_left (h : Consumes s₀ cs s) : s₀.left.length = cs.length + s.left.length := by
  obtain ⟨done, rfl, hall⟩ := h.left
  rw [hall, List.length_append, List.length_map]

theorem ne_zero (h : Consumes s₀ cs s) (hnul : ∀ x ∈ s₀.left, x.1 ≠ 0) (hleft : s.left = (c, l) :: r) :
    c ≠ 0 := by
  obtain ⟨done, -, hall⟩ := h.left
  exact hnul (c, l) (by rw [hall, hleft]; simp)

end Consumes

end Swig.Scanner
