import Swig.Errors.WarnFilter
import Swig.SType.Elements
import Mathlib.Algebra.Order.BigOperators.Group.List
import Mathlib.Algebra.Order.Ring.Nat
import Mathlib.Data.Finset.Powerset
import Mathlib.Data.Fintype.Powerset

/-!
`SwigType_add_qualifier` (`typeobj.c`) with its buffers. The element of a type that has
qualifiers is copied to `temp` without a terminator, so that the search and the words are
read in what the buffer held before as well.
-/

namespace Swig.SType

open ByteBlock Brackets Errors

/-! ### The function -/

/-- The loop over the words of the list, from `q` on. -/
def insertWords (cqual : List Byte) : Bool → List (List Byte) → List Byte
  | added, [] => if added then [] else chr ' ' :: cqual
  | added, q :: qs =>
      (if cqual < q then cqual ++ chr ' ' :: q else q) ++ (if qs = [] then [] else lit " ") ++
        insertWords cqual (added || decide (cqual < q)) qs

/-- `" )."`. -/
def qualDelim (c : Byte) : Bool := c ∈ lit " )."

/-- What was in `temp` behind the copied element. -/
def behindCopy (old : Block) (copied : ℕ) : Block := (old.take 256).drop copied

/-- `SwigType_add_qualifier`, where `temp` holds `old`. -/
def addQualifierIn (old : Block) (t : SwigType) (cqual : List Byte) : Option SwigType :=
  if isqualifier t then
    let sz := elementSize t
    let copied := t.take (min sz 256)
    if (indexOf cqual copied).isSome then some t
    else
      (cstring (copied ++ behindCopy old copied.length) 0).bind fun temp =>
        if (indexOf cqual temp).isSome then some t
        else
          let newq := lit "q(" ++ insertWords cqual false (strtok qualDelim (temp.drop 2)) ++ lit ")."
          if newq.length < 256 then some (newq ++ t.drop sz) else none
  else if cqual.length + 4 < 256 then some (lit "q(" ++ cqual ++ lit ")." ++ t)
  else none

/-- What is defined whatever the buffer held. -/
theorem addQualifierIn_of_some {t u : SwigType} {cqual : List Byte} (h : addQualifier t cqual = some u)
    (hlen : cqual.length + 4 < 256) (old : Block) : addQualifierIn old t cqual = some u := by
  rw [addQualifier] at h
  rw [addQualifierIn]
  by_cases hq : isqualifier t
  · rw [if_pos (show (lit "q(").isPrefixOf t = true from hq)] at h
    dsimp only at h
    split at h
    case isTrue hfound =>
      rw [if_pos hq, if_pos hfound]
      exact h
    case isFalse => cases h
  · rw [if_neg (show ¬(lit "q(").isPrefixOf t = true from hq)] at h
    rw [if_neg hq, if_pos hlen]
    exact h

/-! ### Qualifiers -/

inductive Qual
  | const
  | register
  | volatile
  deriving DecidableEq

namespace Qual

instance : Fintype Qual := ⟨{.const, .register, .volatile}, by intro q; cases q <;> decide⟩

def text : Qual → List Byte
  | .const => lit "const"
  | .register => lit "register"
  | .volatile => lit "volatile"

end Qual

/-- One qualifier after the other, each with what `temp` holds at its call. -/
def addQualifiers (t : SwigType) : List (Qual × Block) → Option SwigType
  | [] => some t
  | (q, old) :: steps => (addQualifierIn old t q.text).bind fun u => addQualifiers u steps

/-- One qualifier in front of `t`, with the words of `qs` in their order. -/
def Qualified (qs : Finset Qual) (t u : SwigType) : Prop :=
  ∃ words : List (List Byte), words.Pairwise (· < ·) ∧ (∀ w, w ∈ words ↔ ∃ q ∈ qs, q.text = w) ∧
    u = if words = [] then t else lit "q(" ++ (lit " ").intercalate words ++ lit ")." ++ t

/-- The qualifiers that were added. -/
def addedQuals (steps : List (Qual × Block)) : Finset Qual := (steps.map Prod.fst).toFinset

/-- Each state of the run is one qualifier in front of `t`. -/
def QualifierRun (t : SwigType) (steps : List (Qual × Block)) : Prop :=
  ∀ n, ∃ u, addQualifiers t (steps.take n) = some u ∧ Qualified (addedQuals (steps.take n)) t u

/-! ### The list of the words -/

/-- The words of `qs`. -/
def words (qs : Finset Qual) : List (List Byte) :=
  ([Qual.const, .register, .volatile].filter (· ∈ qs)).map Qual.text

/-- `q(..).`. -/
def qualElement (qs : Finset Qual) : SwigType := lit "q(" ++ (lit " ").intercalate (words qs) ++ lit ")."

def qualified (qs : Finset Qual) (t : SwigType) : SwigType := if qs = ∅ then t else qualElement qs ++ t

/-- The buffer ends the list behind the copied element. -/
def Ended (qs : Finset Qual) (old : Block) : Prop :=
  ∃ text, cstring (behindCopy old (qualElement qs).length) 0 = some text ∧ ∀ c ∈ text, qualDelim c

/-- When `q` is added to the words of `qs` as it should. -/
def CleanStep (qs : Finset Qual) (q : Qual) (old : Block) : Prop :=
  q ∈ qs ∨ qs = ∅ ∨ Ended qs old ∧ ¬(q = .const ∧ qs = {.register, .volatile})

def CleanRun : Finset Qual → List (Qual × Block) → Prop
  | _, [] => True
  | qs, (q, old) :: steps => CleanStep qs q old ∧ CleanRun (insert q qs) steps

theorem text_injective : Function.Injective Qual.text := by
  intro q q'
  cases q <;> cases q' <;> decide

theorem words_pairwise (qs : Finset Qual) : (words qs).Pairwise (· < ·) := by
  have hall : ([Qual.const, .register, .volatile].map Qual.text).Pairwise (· < ·) := by decide +kernel
  exact hall.sublist (List.filter_sublist.map Qual.text)

theorem mem_words {qs : Finset Qual} {w : List Byte} : w ∈ words qs ↔ ∃ q ∈ qs, q.text = w := by
  have hall (q : Qual) : q ∈ [Qual.const, .register, .volatile] := by cases q <;> decide
  simp only [words, List.mem_map, List.mem_filter, decide_eq_true_eq, hall, true_and]

theorem words_eq_nil {qs : Finset Qual} : words qs = [] ↔ qs = ∅ := by
  rw [List.eq_nil_iff_forall_not_mem, Finset.eq_empty_iff_forall_notMem]
  constructor
  · intro h q hq
    exact h q.text (mem_words.mpr ⟨q, hq, rfl⟩)
  · intro h w hw
    obtain ⟨q, hq, rfl⟩ := mem_words.mp hw
    exact h q hq

theorem words_insert {qs : Finset Qual} {q : Qual} (hq : q ∉ qs) :
    (words (insert q qs)).Perm (q.text :: words qs) := by
  have hnew : q.text ∉ words qs := by
    intro hmem
    obtain ⟨q', hq', h⟩ := mem_words.mp hmem
    exact hq (text_injective h ▸ hq')
  refine (List.perm_ext_iff_of_nodup (words_pairwise _).nodup
    (List.nodup_cons.mpr ⟨hnew, (words_pairwise qs).nodup⟩)).mpr fun w => ?_
  rw [List.mem_cons, mem_words, mem_words]
  simp only [Finset.mem_insert, or_and_right, exists_or, exists_eq_left, @eq_comm _ w]

theorem text_ne_nil (q : Qual) : q.text ≠ [] := by
  cases q <;> exact List.cons_ne_nil _ _

/-- The words are made of letters. -/
theorem alpha_text (q : Qual) : ∀ c ∈ q.text, qualDelim c = false ∧ c ≠ chr '(' ∧ c ≠ 0 := by
  cases q <;> exact List.all_iff_forall_prop.mp rfl

theorem words_delim {qs : Finset Qual} : ∀ w ∈ words qs, w ≠ [] ∧ ∀ c ∈ w, qualDelim c = false := by
  intro w hw
  obtain ⟨q, -, rfl⟩ := mem_words.mp hw
  exact ⟨text_ne_nil q, fun c hc => (alpha_text q c hc).1⟩

theorem intercalate_blank (w v : List Byte) (ws : List (List Byte)) :
    (lit " ").intercalate (w :: v :: ws) = w ++ chr ' ' :: (lit " ").intercalate (v :: ws) := by
  simp [List.intercalate, lit]

theorem length_intercalate_blank {ws : List (List Byte)} (hne : ws ≠ []) :
    ((lit " ").intercalate ws).length + 1 = (ws.map fun w => w.length + 1).sum := by
  induction ws with
  | nil => exact absurd rfl hne
  | cons w ws ih =>
      cases ws with
      | nil => simp
      | cons v ws =>
          have hrest := ih (List.cons_ne_nil _ _)
          rw [intercalate_blank, List.map_cons, List.sum_cons]
          simp only [List.length_append, List.length_cons]
          omega

theorem intercalate_of_mem {ws : List (List Byte)} {w : List Byte} (h : w ∈ ws) :
    ∃ u v, (lit " ").intercalate ws = u ++ w ++ v := by
  induction ws with
  | nil => cases h
  | cons w' ws ih =>
      cases ws with
      | nil =>
          obtain rfl := List.mem_singleton.mp h
          exact ⟨[], [], by simp⟩
      | cons v' ws =>
          rw [intercalate_blank]
          obtain rfl | h := List.mem_cons.mp h
          · exact ⟨[], _, rfl⟩
          · obtain ⟨u, v, huv⟩ := ih h
            exact ⟨w' ++ chr ' ' :: u, v, by simp [huv]⟩

theorem mem_intercalate_blank {ws : List (List Byte)} {c : Byte} (h : c ∈ (lit " ").intercalate ws) :
    c = chr ' ' ∨ ∃ w ∈ ws, c ∈ w := by
  induction ws with
  | nil => cases h
  | cons w ws ih =>
      cases ws with
      | nil =>
          rw [List.intercalate_singleton] at h
          exact .inr ⟨w, List.mem_cons_self, h⟩
      | cons v ws =>
          rw [intercalate_blank] at h
          obtain hw | h := List.mem_append.mp h
          · exact .inr ⟨w, List.mem_cons_self, hw⟩
          · obtain rfl | h := List.mem_cons.mp h
            · exact .inl rfl
            · refine (ih h).imp_right ?_
              rintro ⟨u, hu, hc⟩
              exact ⟨u, List.mem_cons_of_mem w hu, hc⟩

/-- A list is made of blanks and of the letters of its words. -/
theorem mem_qualList {qs : Finset Qual} {c : Byte} (h : c ∈ (lit " ").intercalate (words qs)) :
    c = chr ' ' ∨ ∃ q ∈ qs, c ∈ q.text := by
  refine (mem_intercalate_blank h).imp_right ?_
  rintro ⟨w, hw, hc⟩
  obtain ⟨q, hq, rfl⟩ := mem_words.mp hw
  exact ⟨q, hq, hc⟩

/-- The words of a set stand in one order only. -/
theorem qualified_iff {qs : Finset Qual} {t u : SwigType} : Qualified qs t u ↔ u = qualified qs t := by
  have hself : Qualified qs t (qualified qs t) := by
    refine ⟨words qs, words_pairwise qs, fun w => mem_words, ?_⟩
    rw [qualified, qualElement]
    by_cases hqs : qs = ∅
    · rw [if_pos hqs, if_pos (words_eq_nil.mpr hqs)]
    · rw [if_neg hqs, if_neg fun h => hqs (words_eq_nil.mp h)]
  constructor
  · rintro ⟨ws, hsorted, hws, rfl⟩
    obtain ⟨ws', hsorted', hws', h⟩ := hself
    have hperm : ws.Perm ws' := by
      refine (List.perm_ext_iff_of_nodup hsorted.nodup hsorted'.nodup).mpr fun w => ?_
      rw [hws, hws']
    have heq : ws = ws' :=
      hperm.eq_of_pairwise (fun a b _ _ hab hba => absurd hba (List.lt_asymm hab)) hsorted hsorted'
    rw [h, heq]
  · rintro rfl
    exact hself

/-! ### The element -/

variable {qs : Finset Qual} {q : Qual} {t : SwigType} {old : Block} {text : List Byte}

theorem elementSplit_qualElement (qs : Finset Qual) (t : SwigType) :
    elementSplit 0 (qualElement qs ++ t) = (qualElement qs, t) := by
  have hplain : ∀ b ∈ (lit " ").intercalate (words qs), b ≠ chr '(' ∧ b ≠ chr ')' := by
    intro b hb
    obtain rfl | ⟨q, -, hb⟩ := mem_qualList hb
    · decide
    · have hdelim := (alpha_text q b hb).1
      refine ⟨(alpha_text q b hb).2.1, ?_⟩
      rintro rfl
      cases hdelim
  have hcall : Constructor (qualElement qs) := by
    have hshape : qualElement qs = chr 'q' :: chr '(' :: ((lit " ").intercalate (words qs) ++ [chr ')', chr '.']) := by
      simp [qualElement, lit]
    rw [hshape]
    exact .call (by decide) (.of_plain hplain)
  exact elementSplit_constructor hcall t

theorem length_qualElement (hqs : qs ≠ ∅) :
    (qualElement qs).length = ((words qs).map fun w => w.length + 1).sum + 3 := by
  have hlist := length_intercalate_blank fun h => hqs (words_eq_nil.mp h)
  have hshape : (qualElement qs).length = ((lit " ").intercalate (words qs)).length + 4 := by
    simp [qualElement, lit]
  omega

theorem length_qualElement_insert (hq : q ∉ qs) (hqs : qs ≠ ∅) :
    (qualElement (insert q qs)).length = (qualElement qs).length + q.text.length + 1 := by
  have hsum := ((words_insert hq).map fun w => w.length + 1).sum_eq
  rw [List.map_cons, List.sum_cons] at hsum
  rw [length_qualElement (Finset.insert_ne_empty q qs), length_qualElement hqs, hsum]
  omega

theorem length_qualElement_le (hqs : qs ≠ ∅) : (qualElement qs).length ≤ 27 := by
  have hall : ([Qual.const, .register, .volatile].map fun q => q.text.length + 1).sum = 24 := rfl
  have hsub : ((words qs).map fun w => w.length + 1).Sublist
      ([Qual.const, .register, .volatile].map fun q => q.text.length + 1) := by
    rw [words, List.map_map]
    exact List.filter_sublist.map _
  have hle := hsub.sum_le_sum fun _ _ => Nat.zero_le _
  rw [length_qualElement hqs]
  omega

theorem mem_qualElement {qs : Finset Qual} {c : Byte} (h : c ∈ qualElement qs) :
    c ∈ lit "q( )." ∨ ∃ q ∈ qs, c ∈ q.text := by
  rw [qualElement] at h
  obtain h | hc := List.mem_append.mp h
  · obtain hc | h := List.mem_append.mp h
    · exact .inl (List.mem_append_left (lit " ).") hc)
    · obtain rfl | hq := mem_qualList h
      · exact .inl (by decide)
      · exact .inr hq
  · exact .inl (List.mem_append_right (lit "q( ") hc)

/-- The first byte of a qualifier is in no other one. -/
theorem indexOf_qualElement (hq : q ∉ qs) (htext : ∀ c ∈ text, qualDelim c) :
    indexOf q.text (qualElement qs ++ text) = none := by
  have hfirst : ∀ q : Qual, ∃ c z, q.text = c :: z ∧ qualDelim c = false ∧ ∀ qs, q ∉ qs → c ∉ qualElement qs := by
    intro q
    have hother {c : Byte} (hpunct : c ∉ lit "q( ).") (hown : ∀ q', c ∈ q'.text → q' = q) (qs : Finset Qual)
        (hq : q ∉ qs) : c ∉ qualElement qs := by
      intro hc
      obtain hc | ⟨q', hq', hc⟩ := mem_qualElement hc
      · exact hpunct hc
      · exact hq (hown q' hc ▸ hq')
    cases q
    · exact ⟨chr 'c', lit "onst", rfl, by decide, hother (by decide) (by decide)⟩
    · exact ⟨chr 'r', lit "egister", rfl, by decide, hother (by decide) (by decide)⟩
    · exact ⟨chr 'v', lit "olatile", rfl, by decide, hother (by decide) (by decide)⟩
  obtain ⟨c, z, hz, hdelim, hother⟩ := hfirst q
  rw [hz]
  refine indexOf_of_head_notMem fun hc => ?_
  obtain hc | hc := List.mem_append.mp hc
  · exact hother qs hq hc
  · rw [htext c hc] at hdelim
    cases hdelim

theorem indexOf_isSome (u token v : List Byte) : (indexOf token (u ++ token ++ v)).isSome := by
  have hocc : Occurs token (u ++ token ++ v) u.length := by
    rw [Occurs, List.append_assoc, List.drop_left]
    exact List.prefix_append token v
  cases h : indexOf token (u ++ token ++ v) with
  | none => exact absurd hocc ((indexOf_spec _ _).2 h _)
  | some k => rfl

theorem indexOf_qualElement_self (hq : q ∈ qs) : (indexOf q.text (qualElement qs)).isSome := by
  obtain ⟨u, v, huv⟩ := intercalate_of_mem (mem_words.mpr ⟨q, hq, rfl⟩)
  have hshape : qualElement qs = lit "q(" ++ u ++ q.text ++ (v ++ lit ").") := by
    rw [qualElement, huv]
    simp
  rw [hshape]
  exact indexOf_isSome _ _ _

theorem cstring_qualElement (qs : Finset Qual) (b : Block) :
    cstring (qualElement qs ++ b) 0 = (cstring b 0).map (qualElement qs ++ ·) := by
  have hnul : ∀ c ∈ qualElement qs, (c != 0) = true := by
    intro c hc
    have hpunct : ∀ b ∈ lit "q( ).", (b != 0) = true := List.all_iff_forall_prop.mp rfl
    obtain hc | ⟨q, -, hc⟩ := mem_qualElement hc
    · exact hpunct c hc
    · simpa using (alpha_text q c hc).2.2
  rw [cstring, cstring]
  simp only [List.drop_zero, List.takeWhile_append_of_pos hnul, List.length_append, Nat.add_lt_add_iff_left]
  split <;> rfl

/-! ### The words of the buffer -/

theorem strtok_word {delim : Byte → Bool} {w : List Byte} (hne : w ≠ []) (hw : ∀ c ∈ w, delim c = false) {d : Byte}
    (hd : delim d = true) (s : List Byte) : strtok delim (w ++ d :: s) = w :: strtok delim s := by
  rw [strtok, List.splitOnP_append_cons_of_forall_mem hw d hd, List.filter_cons_of_pos (by simpa using hne), strtok]

theorem strtok_delim {delim : Byte → Bool} {d : Byte} (hd : delim d = true) (s : List Byte) :
    strtok delim (d :: s) = strtok delim s := by
  have hnone : ∀ c ∈ ([] : List Byte), delim c = false := fun c hc => absurd hc List.not_mem_nil
  have hsplit := List.splitOnP_append_cons_of_forall_mem hnone d hd s
  rw [List.nil_append] at hsplit
  rw [strtok, hsplit, List.filter_cons_of_neg (by simp), strtok]

theorem strtok_eq_nil {delim : Byte → Bool} {s : List Byte} : strtok delim s = [] ↔ ∀ c ∈ s, delim c := by
  induction s with
  | nil => simp [strtok]
  | cons c s ih =>
      by_cases hc : delim c
      · rw [strtok_delim hc, ih, List.forall_mem_cons]
        exact ⟨fun h => ⟨hc, h⟩, And.right⟩
      · refine ⟨fun h => absurd h ?_, fun h => absurd (h c List.mem_cons_self) hc⟩
        obtain ⟨w, ws, hws⟩ := List.exists_cons_of_ne_nil (List.splitOnP_ne_nil delim s)
        rw [strtok, List.splitOnP_cons_eq_if_modifyHead, if_neg hc, hws, List.modifyHead_cons,
          List.filter_cons_of_pos (by simp)]
        exact List.cons_ne_nil _ _

theorem strtok_words {ws : List (List Byte)} (hne : ws ≠ []) (h : ∀ w ∈ ws, w ≠ [] ∧ ∀ c ∈ w, qualDelim c = false)
    (s : List Byte) : strtok qualDelim ((lit " ").intercalate ws ++ chr ')' :: s) = ws ++ strtok qualDelim s := by
  induction ws with
  | nil => exact absurd rfl hne
  | cons w ws ih =>
      obtain ⟨⟨hw, hdelim⟩, hws⟩ := List.forall_mem_cons.mp h
      cases ws with
      | nil =>
          have hone : (lit " ").intercalate [w] = w := by simp [List.intercalate]
          rw [hone, strtok_word hw hdelim (by decide)]
          rfl
      | cons v ws =>
          rw [intercalate_blank, List.append_assoc, List.cons_append, strtok_word hw hdelim (by decide),
            ih (List.cons_ne_nil _ _) hws]
          rfl

theorem strtok_qualElement (hqs : qs ≠ ∅) (text : List Byte) :
    strtok qualDelim ((qualElement qs ++ text).drop 2) = words qs ++ strtok qualDelim text := by
  have hdrop : (qualElement qs ++ text).drop 2 =
      (lit " ").intercalate (words qs) ++ chr ')' :: chr '.' :: text := by
    simp [qualElement, lit]
  rw [hdrop, strtok_words (fun h => hqs (words_eq_nil.mp h)) words_delim, strtok_delim (by decide)]

/-- Nothing of the list is lost. -/
theorem length_insertWords (cqual : List Byte) (added : Bool) (ws : List (List Byte)) :
    ((lit " ").intercalate ws).length + (if added then 0 else cqual.length + 1) ≤
      (insertWords cqual added ws).length := by
  induction ws generalizing added with
  | nil => cases added <;> simp [insertWords, List.intercalate]
  | cons w ws ih =>
      have hrest := ih (added || decide (cqual < w))
      have hjoin : ((lit " ").intercalate (w :: ws)).length =
          w.length + (if ws = [] then [] else lit " ").length + ((lit " ").intercalate ws).length := by
        cases ws with
        | nil => simp [List.intercalate]
        | cons v ws =>
            rw [intercalate_blank, if_neg (List.cons_ne_nil _ _)]
            simp [lit]
            omega
      rw [insertWords, hjoin]
      simp only [List.length_append]
      by_cases hless : cqual < w
      · rw [decide_eq_true hless, Bool.or_true, if_pos rfl] at hrest
        rw [if_pos hless, decide_eq_true hless, Bool.or_true]
        simp only [List.length_append, List.length_cons]
        have hbound : (if added then 0 else cqual.length + 1) ≤ cqual.length + 1 := by split <;> omega
        omega
      · rw [decide_eq_false hless, Bool.or_false] at hrest
        rw [if_neg hless, decide_eq_false hless, Bool.or_false]
        omega

/-! ### One step -/

/-- The new list is what it should be, but `const` is put before `register` and before
`volatile` both. -/
theorem insertWords_words (hq : q ∉ qs) (hqs : qs ≠ ∅) :
    lit "q(" ++ insertWords q.text false (words qs) ++ lit ")." = qualElement (insert q qs) ↔
      ¬(q = .const ∧ qs = {.register, .volatile}) := by
  revert qs q
  decide +kernel

theorem length_insertWords_words (qs : Finset Qual) (q : Qual) :
    (lit "q(" ++ insertWords q.text false (words qs) ++ lit ").").length < 256 := by
  revert qs q
  decide +kernel

/-- A word behind the list stays in the type. -/
theorem length_insertWords_lt (hq : q ∉ qs) (hqs : qs ≠ ∅) {us : List (List Byte)} (hus : us ≠ []) :
    (qualElement (insert q qs)).length <
      (lit "q(" ++ insertWords q.text false (words qs ++ us) ++ lit ").").length := by
  have hlen := length_qualElement_insert hq hqs
  have helement := length_qualElement hqs
  have hkept := length_insertWords q.text false (words qs ++ us)
  have hlist := length_intercalate_blank (List.append_ne_nil_of_right_ne_nil (words qs) hus)
  have hmore : 0 < (us.map fun w => w.length + 1).sum := by
    obtain ⟨u, us, rfl⟩ := List.exists_cons_of_ne_nil hus
    rw [List.map_cons, List.sum_cons]
    omega
  rw [List.map_append, List.sum_append] at hlist
  have hshape (v : List Byte) : (lit "q(" ++ v ++ lit ").").length = v.length + 4 := by simp [lit]
  rw [hshape]
  simp only [Bool.false_eq_true, if_false] at hkept
  omega

theorem addQualifierIn_new (t : SwigType) (hq : q ∉ qs) (hqs : qs ≠ ∅) (old : Block) :
    addQualifierIn old (qualElement qs ++ t) q.text = some (qualElement (insert q qs) ++ t) ↔
      Ended qs old ∧ ¬(q = .const ∧ qs = {.register, .volatile}) := by
  have hsize : elementSize (qualElement qs ++ t) = (qualElement qs).length := by
    rw [elementSize, elementSplit_qualElement]
  have hle := length_qualElement_le hqs
  have hmin : min (qualElement qs).length 256 = (qualElement qs).length := by omega
  have hcopied : (indexOf q.text (qualElement qs)).isSome = false := by
    have hno : ∀ c ∈ ([] : List Byte), qualDelim c := fun c hc => absurd hc List.not_mem_nil
    have hnone := indexOf_qualElement hq hno
    rw [List.append_nil] at hnone
    rw [hnone]
    rfl
  have hqual : isqualifier (qualElement qs ++ t) := rfl
  rw [addQualifierIn, if_pos hqual]
  dsimp only
  rw [hsize, hmin, List.take_left, if_neg (by simp [hcopied]), cstring_qualElement, List.drop_left, Ended]
  cases hend : cstring (behindCopy old (qualElement qs).length) 0 with
  | none => simp
  | some text =>
      rw [Option.map_some, Option.bind_some, strtok_qualElement hqs]
      by_cases htext : ∀ c ∈ text, qualDelim c
      · have hended : ∃ text', some text = some text' ∧ ∀ c ∈ text', qualDelim c := ⟨text, rfl, htext⟩
        rw [indexOf_qualElement hq htext, strtok_eq_nil.mpr htext, List.append_nil,
          if_neg (by simp), if_pos (length_insertWords_words qs q), Option.some.injEq, List.append_left_inj,
          insertWords_words hq hqs]
        exact (and_iff_right hended).symm
      · have hwords : strtok qualDelim text ≠ [] := fun h => htext (strtok_eq_nil.mp h)
        have hlt := length_insertWords_lt hq hqs hwords
        refine iff_of_false (fun h => ?_) fun ⟨⟨text', heq, hdelim⟩, _⟩ => htext (Option.some.inj heq ▸ hdelim)
        split at h
        · -- taken for a word of the list
          have hbytes := congrArg List.length (List.append_cancel_right (Option.some.inj h))
          have hinsert := length_qualElement_insert hq hqs
          omega
        · split at h
          · have hbytes := congrArg List.length (List.append_cancel_right (Option.some.inj h))
            omega
          · cases h

theorem addQualifierIn_qualified (ht : isqualifier t = false) (qs : Finset Qual) (q : Qual) (old : Block) :
    addQualifierIn old (qualified qs t) q.text = some (qualified (insert q qs) t) ↔ CleanStep qs q old := by
  rw [CleanStep, qualified, qualified, if_neg (Finset.insert_ne_empty q qs)]
  by_cases hqs : qs = ∅
  · subst hqs
    have hshort : q.text.length + 4 < 256 := by cases q <;> decide
    have hone : qualElement (insert q ∅) = lit "q(" ++ q.text ++ lit ")." := by cases q <;> rfl
    rw [if_pos rfl, addQualifierIn, if_neg (by simp [ht]), if_pos hshort, hone]
    simp
  · rw [if_neg hqs]
    by_cases hq : q ∈ qs
    · have hle := length_qualElement_le hqs
      have hsize : elementSize (qualElement qs ++ t) = (qualElement qs).length := by
        rw [elementSize, elementSplit_qualElement]
      have hmin : min (qualElement qs).length 256 = (qualElement qs).length := by omega
      have hqual : isqualifier (qualElement qs ++ t) := rfl
      rw [addQualifierIn, if_pos hqual]
      dsimp only
      rw [hsize, hmin, List.take_left, if_pos (indexOf_qualElement_self hq), Finset.insert_eq_of_mem hq]
      simp [hq]
    · rw [addQualifierIn_new t hq hqs old]
      simp [hq, hqs]

/-! ### Runs -/

/-- From the words of `qs` on, every state is as it should be exactly if every step is clean. -/
theorem run_qualified (ht : isqualifier t = false) (qs : Finset Qual) (steps : List (Qual × Block)) :
    (∀ n, addQualifiers (qualified qs t) (steps.take n) = some (qualified (qs ∪ addedQuals (steps.take n)) t)) ↔
      CleanRun qs steps := by
  induction steps generalizing qs with
  | nil => simp [addQualifiers, addedQuals, CleanRun]
  | cons step steps ih =>
      obtain ⟨q, old⟩ := step
      have hadded (n : ℕ) : qs ∪ addedQuals (((q, old) :: steps).take (n + 1)) =
          insert q qs ∪ addedQuals (steps.take n) := by
        rw [List.take_succ_cons, addedQuals, List.map_cons, List.toFinset_cons, Finset.union_insert,
          Finset.insert_union, addedQuals]
      rw [CleanRun, ← addQualifierIn_qualified ht qs q old, ← ih (insert q qs)]
      constructor
      · intro h
        have hone := h 1
        rw [hadded, List.take_zero] at hone
        have hstep : addQualifierIn old (qualified qs t) q.text = some (qualified (insert q qs) t) := by
          simpa [addQualifiers, addedQuals] using hone
        refine ⟨hstep, fun n => ?_⟩
        have hnext := h (n + 1)
        rwa [hadded, List.take_succ_cons, addQualifiers, hstep, Option.bind_some] at hnext
      · rintro ⟨hstep, hrest⟩ n
        cases n with
        | zero => simp [addQualifiers, addedQuals]
        | succ n =>
            rw [hadded, List.take_succ_cons, addQualifiers, hstep, Option.bind_some]
            exact hrest n

/-- Qualifications come out in their order exactly where the buffer ends every list and `const`
is not put in front of both others; and then only the set of them counts. -/
theorem qualifierRun_iff {t : SwigType} (ht : isqualifier t = false) (steps : List (Qual × Block)) :
    (QualifierRun t steps ↔ CleanRun ∅ steps) ∧
      ∀ more, addedQuals more = addedQuals steps → CleanRun ∅ steps → CleanRun ∅ more →
        addQualifiers t steps = addQualifiers t more := by
  have hrun (steps : List (Qual × Block)) := run_qualified ht ∅ steps
  have hempty : qualified ∅ t = t := if_pos rfl
  simp only [hempty, Finset.empty_union] at hrun
  refine ⟨?_, fun more hadded hclean hmore => ?_⟩
  · rw [← hrun]
    refine forall_congr' fun n => ?_
    simp only [qualified_iff, exists_eq_right]
  · have hall := (hrun steps).mpr hclean steps.length
    have hall' := (hrun more).mpr hmore more.length
    rw [List.take_length] at hall hall'
    rw [hall, hall', hadded]

/-- A buffer of null bytes. -/
def nullBuffer : Block := List.replicate 256 0

theorem qualifierRun_iff_pair : (QualifierRun (lit "int") [(.volatile, nullBuffer), (.const, nullBuffer)] ↔
      CleanRun ∅ [(.volatile, nullBuffer), (.const, nullBuffer)]) ∧
    ∀ more, addedQuals more = addedQuals [(.volatile, nullBuffer), (.const, nullBuffer)] →
      CleanRun ∅ [(.volatile, nullBuffer), (.const, nullBuffer)] → CleanRun ∅ more →
        addQualifiers (lit "int") [(.volatile, nullBuffer), (.const, nullBuffer)] = addQualifiers (lit "int") more :=
  qualifierRun_iff (by decide) _

/-- `const` behind `register` and `volatile` is put in twice. -/
theorem qualifierRun_const : isqualifier (lit "int") = false ∧
    ¬QualifierRun (lit "int") [(.register, nullBuffer), (.volatile, nullBuffer), (.const, nullBuffer)] := by
  refine ⟨by decide, fun h => ?_⟩
  obtain ⟨u, hrun, hu⟩ := h 3
  rw [qualified_iff.mp hu] at hrun
  exact absurd hrun (by decide +kernel)

end Swig.SType
