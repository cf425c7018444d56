import Swig.Errors.FilterText

/-!
Which warnings are suppressed after any calls of `Swig_warnfilter`. The filter
stands for the entries added and not removed as long as every number that is
looked up in it is found at an entry for that number.
-/

namespace Swig.Errors

open ByteBlock

/-- The entries after some numbers are added and removed, the last one first. -/
def entries (ops : List (Item × Bool)) : List (Sign × ℕ) := ops.foldl applyItem []

/-- The number is written without leading zeros, and a removal comes to an entry
for exactly this number first, if to any. -/
def MeetsEntry (es : List (Sign × ℕ)) (op : Item × Bool) : Prop :=
  op.1.digits = decimal op.1.number ∧ (op.2 = false → ∀ x ∈ cut es op.1.entry, x.2 = op.1.number)

variable {i : Item} {es : List (Sign × ℕ)}

theorem Item.isdigit_headD (i : Item) : isdigit (i.digits.headD 0) := by
  obtain ⟨d, ds, h⟩ := List.exists_cons_of_ne_nil i.ne_nil
  rw [h]
  exact i.all_digits d (h ▸ List.mem_cons_self)

/-- The text with the sign it stands for. -/
theorem Item.entryText_eq (hdigits : i.digits = decimal i.number) :
    (if isdigit (i.text.headD 0) then chr '-' :: i.text else i.text) = entryText i.entry := by
  cases hsign : i.sign with
  | none =>
      have htext : i.text = i.digits := by simp [text, hsign]
      rw [htext, if_pos i.isdigit_headD, entryText, entry, hsign, ← hdigits]
      rfl
  | some sg =>
      have htext : i.text = sg.byte :: i.digits := by simp [text, hsign]
      rw [htext, List.headD_cons, Sign.isdigit_byte, if_neg Bool.false_ne_true, entryText, entry, hsign, ← hdigits]
      rfl

theorem Item.accepted (i : Item) :
    isdigit (i.text.headD 0) ∨ i.text.headD 0 = chr '+' ∨ i.text.headD 0 = chr '-' := by
  cases hsign : i.sign with
  | none =>
      have htext : i.text = i.digits := by simp [text, hsign]
      rw [htext]
      exact .inl i.isdigit_headD
  | some sg =>
      have htext : i.text = sg.byte :: i.digits := by simp [text, hsign]
      rw [htext, List.headD_cons]
      cases sg
      · exact .inr (.inr rfl)
      · exact .inr (.inl rfl)

/-- One number of a list. -/
theorem filterToken_render {op : Item × Bool} (h : MeetsEntry es op) :
    filterToken op.2 (render es) op.1.text = render (applyItem es op) := by
  obtain ⟨i, add⟩ := op
  have htext := Item.entryText_eq h.1
  rw [filterToken]
  dsimp only
  rw [if_pos i.accepted]
  cases add with
  | true =>
      have hadd : filterAdd (render es) i.text = entryText i.entry ++ render es := by
        rw [filterAdd, ← htext]
        split <;> rfl
      rw [if_pos rfl, hadd]
      rfl
  | false =>
      rw [if_neg Bool.false_ne_true, filterRemove, htext]
      exact cutFirst_render (h.2 rfl)

theorem foldl_filterToken (ops : List (Item × Bool)) {es : List (Sign × ℕ)}
    (h : ∀ before op after, ops = before ++ op :: after → MeetsEntry (before.foldl applyItem es) op) :
    ops.foldl (fun filter op => filterToken op.2 filter op.1.text) (render es) = render (ops.foldl applyItem es) := by
  induction ops generalizing es with
  | nil => rfl
  | cons op ops ih =>
      have hop : MeetsEntry es op := h [] op ops rfl
      rw [List.foldl_cons, List.foldl_cons, filterToken_render hop]
      exact ih fun before op' after heq => h (op :: before) op' after (by rw [heq, List.cons_append])

/-! ### The calls -/

/-- What the calls do not change. -/
structure Quiet (st : ErrorState) : Prop where
  silence : st.silence = false
  warnall : st.warnall = false

theorem warnfilters_filter (calls : List (WarnList × Bool)) (st : ErrorState) :
    (calls.foldl (fun st call => warnfilter st call.1.text call.2) st).filter.getD [] =
      (history calls).foldl (fun filter op => filterToken op.2 filter op.1.text) (st.filter.getD []) := by
  induction calls generalizing st with
  | nil => rfl
  | cons call calls ih =>
      have hhistory : history (call :: calls) = call.1.items.map (·, call.2) ++ history calls := List.flatMap_cons
      rw [List.foldl_cons, ih, hhistory, List.foldl_append, List.foldl_map, warnfilter, Option.getD_some,
        call.1.tokens, List.foldl_map]

theorem quiet_warnfilters (calls : List (WarnList × Bool)) : Quiet (warnfilters calls) := by
  have hkeep (st : ErrorState) (h : Quiet st) : Quiet (calls.foldl (fun st call => warnfilter st call.1.text call.2) st) := by
    induction calls generalizing st with
    | nil => exact h
    | cons call calls ih => exact ih _ ⟨h.silence, h.warnall⟩
  exact hkeep _ ⟨rfl, rfl⟩

/-- No filter is an empty filter. -/
theorem filterWarns_getD (filter : Option (List Byte)) (wnum : ℤ) :
    filterWarns filter wnum = filterWarns (some (filter.getD [])) wnum := by
  cases filter with
  | none => rfl
  | some filter => rfl

/-- The entry that the loop comes to is the one for the number. -/
theorem reached_eq_find? {w : ℕ} (h : ∀ x ∈ reached es (decimal w), x.2 = w) :
    reached es (decimal w) = es.find? fun e => e.2 = w := by
  cases hreached : reached es (decimal w) with
  | none =>
      refine (List.find?_eq_none.mpr fun e he hw => ?_).symm
      have hno := List.find?_eq_none.mp hreached e he
      rw [of_decide_eq_true hw, List.isPrefixOf_iff_prefix] at hno
      exact hno List.prefix_rfl
  | some x =>
      obtain ⟨-, before, after, hes, hbefore⟩ := List.find?_eq_some_iff_append.mp hreached
      refine (List.find?_eq_some_iff_append.mpr ⟨by simpa using h x hreached, before, after, hes, fun e he => ?_⟩).symm
      have hno := hbefore e he
      simp only [Bool.not_eq_true', Bool.eq_false_iff, ne_eq, List.isPrefixOf_iff_prefix] at hno
      simp only [Bool.not_eq_true', decide_eq_false_iff_not]
      exact fun hw => hno (hw ▸ List.prefix_rfl)

/-- After calls that each meet the entries they name, a warning whose number the
filter has an entry for first is suppressed if and only if that entry is `-`. -/
theorem warning_suppressed_iff (calls : List (WarnList × Bool))
    (hcalls : ∀ before op after, history calls = before ++ op :: after → MeetsEntry (entries before) op)
    {w : ℕ} (hquery : ∀ x ∈ reached (entries (history calls)) (decimal w), x.2 = w) {wnum : ℤ} {msg : List Byte}
    (hnum : (warningNumber wnum msg).1 = w) :
    ∃ st printed, swigWarning (warnfilters calls) wnum msg = some (st, printed) ∧
      (printed = none ↔ statusOf (entries (history calls)) w = some .minus) := by
  have hfilter : (warnfilters calls).filter.getD [] = render (entries (history calls)) := by
    rw [warnfilters, warnfilters_filter]
    exact foldl_filterToken (history calls) hcalls
  have hquiet := quiet_warnfilters calls
  have hwarns : filterWarns (warnfilters calls).filter w =
      some (((entries (history calls)).find? fun e => e.2 = w).all fun e => e.1 = .plus) := by
    rw [filterWarns_getD, hfilter, filterWarns_render, reached_eq_find? hquery]
  rw [swigWarning, hquiet.silence, if_neg Bool.false_ne_true]
  dsimp only
  rw [hnum, hwarns, Option.map_some, statusOf, hquiet.warnall]
  cases (entries (history calls)).find? fun e => e.2 = w with
  | none => exact ⟨_, _, rfl, by simp⟩
  | some e =>
      obtain ⟨sg, n⟩ := e
      cases sg
      · exact ⟨_, _, rfl, by simp⟩
      · exact ⟨_, _, rfl, by simp⟩

/-- The list `304`. -/
def only304 : WarnList where
  text := lit "304"
  items := [⟨none, lit "304", by decide, fun _ hd => List.all_eq_true.mp (by decide) _ hd⟩]
  tokens := by decide

theorem suppressed_304 :
    ∃ st printed, swigWarning (warnfilters [(only304, true)]) 304 (lit "Syntax") = some (st, printed) ∧
      (printed = none ↔ statusOf (entries (history [(only304, true)])) 304 = some .minus) := by
  refine warning_suppressed_iff [(only304, true)] (fun before op after h => ?_) (by decide) (by decide)
  cases before with
  | nil =>
      cases h
      exact ⟨by decide, nofun⟩
  | cons _ before => cases before <;> cases h

/-- An entry for 304 suppresses warning 30. -/
theorem suppressed_30 : ¬ ∀ (calls : List (WarnList × Bool)) (w : ℕ) (wnum : ℤ) (msg : List Byte),
    (warningNumber wnum msg).1 = w → ∃ st printed, swigWarning (warnfilters calls) wnum msg = some (st, printed) ∧
      (printed = none ↔ statusOf (entries (history calls)) w = some .minus) := by
  intro h
  obtain ⟨st, printed, hprinted, hiff⟩ := h [(only304, true)] 30 30 (lit "Syntax") (by decide)
  have hnone : swigWarning (warnfilters [(only304, true)]) 30 (lit "Syntax") =
      some (warnfilters [(only304, true)], none) := by decide
  rw [hnone] at hprinted
  cases hprinted
  exact absurd (hiff.mp rfl) (by decide)

end Swig.Errors
