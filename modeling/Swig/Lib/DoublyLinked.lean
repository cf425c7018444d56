import Mathlib.Logic.Function.Basic
import Mathlib.Data.List.Nodup
import Mathlib.Tactic.Common

/-!
Doubly linked lists in a heap of next and previous pointers.

The heap is a pair of functions `next prev : α → Option α`, where `none` is the
null pointer. `Seg next prev p h xs q e` is the part of a list that starts at
the cell `h`, whose predecessor is `p`, passes the cells `xs` and ends at the
cell `q` before `e`; a whole list starts after and ends at a null pointer.
-/

namespace DoublyLinked

variable {α : Type*} {next prev : α → Option α}

/-- The cells `xs` from `h` on, where `p` is the cell before the first and
`q`, `e` are the last cell and the one after it. -/
def Seg (next prev : α → Option α) (p h : Option α) : List α → Option α → Option α → Prop
  | [], q, e => p = q ∧ h = e
  | x :: xs, q, e => h = some x ∧ prev x = p ∧ Seg next prev (some x) (next x) xs q e

/-- The list with first cell `h` consists of the cells `xs`. -/
structure IsList (next prev : α → Option α) (h : Option α) (xs : List α) : Prop where
  seg : ∃ q, Seg next prev none h xs q none
  nodup : xs.Nodup

theorem Seg.append {p h q e r f : Option α} {xs ys : List α} (h₁ : Seg next prev p h xs q e)
    (h₂ : Seg next prev q e ys r f) : Seg next prev p h (xs ++ ys) r f := by
  induction xs generalizing p h with
  | nil =>
      obtain ⟨rfl, rfl⟩ := h₁
      exact h₂
  | cons x xs ih => exact ⟨h₁.1, h₁.2.1, ih h₁.2.2⟩

theorem Seg.of_append {p h r f : Option α} {xs ys : List α}
    (hs : Seg next prev p h (xs ++ ys) r f) :
    ∃ q e, Seg next prev p h xs q e ∧ Seg next prev q e ys r f := by
  induction xs generalizing p h with
  | nil => exact ⟨p, h, ⟨rfl, rfl⟩, hs⟩
  | cons x xs ih =>
      obtain ⟨q, e, h₁, h₂⟩ := ih hs.2.2
      exact ⟨q, e, ⟨hs.1, hs.2.1, h₁⟩, h₂⟩

/-- Only the pointers of the cells passed matter. -/
theorem Seg.congr {next' prev' : α → Option α} {p h q e : Option α} {xs : List α}
    (hs : Seg next prev p h xs q e) (hnext : ∀ x ∈ xs, next' x = next x)
    (hprev : ∀ x ∈ xs, prev' x = prev x) : Seg next' prev' p h xs q e := by
  induction xs generalizing p h with
  | nil => exact hs
  | cons x xs ih =>
      refine ⟨hs.1, (hprev x (by simp)).trans hs.2.1, ?_⟩
      rw [hnext x (by simp)]
      exact ih hs.2.2 (fun y hy => hnext y (by simp [hy])) fun y hy => hprev y (by simp [hy])

/-- The last cell of a segment, or the one before it when it has none. -/
theorem Seg.last_eq {p h q e : Option α} {xs : List α} (hs : Seg next prev p h xs q e) :
    q = (xs.getLast?).or p := by
  induction xs generalizing p h with
  | nil => exact hs.1.symm
  | cons x xs ih =>
      rw [ih hs.2.2]
      cases xs with
      | nil => rfl
      | cons y ys => simp [List.getLast?_cons]

/-- Other pointers into a segment and out of it. -/
theorem Seg.redirect [DecidableEq α] {next' prev' : α → Option α} {p h q e p' e' : Option α} {xs : List α}
    (hs : Seg next prev p h xs q e) (hnodup : xs.Nodup)
    (hnext : ∀ x ∈ xs, next' x = if xs.getLast? = some x then e' else next x)
    (hprev : ∀ x ∈ xs, prev' x = if xs.head? = some x then p' else prev x) :
    Seg next' prev' p' (xs.head?.or e') xs (xs.getLast?.or p') e' := by
  induction xs generalizing p h p' with
  | nil => exact ⟨rfl, rfl⟩
  | cons x xs ih =>
      obtain ⟨hx, hxs⟩ := List.nodup_cons.mp hnodup
      obtain ⟨-, -, hrest⟩ := hs
      have hnext' (y : α) (hy : y ∈ xs) : next' y = if xs.getLast? = some y then e' else next y := by
        obtain ⟨z, zs, rfl⟩ := List.exists_cons_of_ne_nil (List.ne_nil_of_mem hy)
        rw [hnext y (List.mem_cons_of_mem x hy), List.getLast?_cons_cons]
      have hprev' (y : α) (hy : y ∈ xs) : prev' y = if xs.head? = some y then some x else prev y := by
        have hxy : x ≠ y := (ne_of_mem_of_not_mem hy hx).symm
        rw [hprev y (List.mem_cons_of_mem x hy), List.head?_cons, if_neg fun heq => hxy (Option.some.inj heq)]
        split
        · rename_i hhead
          obtain ⟨zs, rfl⟩ := List.head?_eq_some_iff.mp hhead
          exact hrest.2.1
        · rfl
      refine ⟨rfl, ?_, ?_⟩
      · rw [hprev x List.mem_cons_self, List.head?_cons, if_pos rfl]
      · have hlast := hnext x List.mem_cons_self
        cases xs with
        | nil =>
            rw [List.getLast?_singleton, if_pos rfl] at hlast
            exact ⟨rfl, hlast⟩
        | cons y ys =>
            rw [List.getLast?_cons_cons, if_neg fun heq => hx (List.mem_of_getLast? heq), hrest.1] at hlast
            rw [hlast, List.getLast?_cons_cons]
            have hys := ih hrest hxs hnext' hprev'
            obtain ⟨l, hl⟩ : ∃ l, (y :: ys).getLast? = some l :=
              ⟨_, List.getLast?_eq_some_getLast (List.cons_ne_nil y ys)⟩
            rw [hl] at hys ⊢
            exact hys

/-- Two lists in one: the last cell of the first and the first cell of the second
are linked with each other. -/
theorem Seg.join {next' prev' : α → Option α} {p p' h q r : Option α} {as ys : List α} {l y : α}
    (h₁ : Seg next prev p h (as ++ [l]) q none) (h₂ : Seg next prev p' (some y) (y :: ys) r none)
    (hnodup : (as ++ l :: y :: ys).Nodup) (hnext : next' l = some y) (hprev : prev' y = some l)
    (hnext' : ∀ x, x ≠ l → next' x = next x) (hprev' : ∀ x, x ≠ y → prev' x = prev x) :
    Seg next' prev' p h (as ++ l :: y :: ys) r none := by
  obtain ⟨hlys, has⟩ : (l :: y :: ys).Nodup ∧ ∀ a ∈ as, a ≠ l ∧ a ≠ y := by
    obtain ⟨-, hlys, hdisj⟩ := List.nodup_append.mp hnodup
    exact ⟨hlys, fun a ha => ⟨hdisj a ha l (by simp), hdisj a ha y (by simp)⟩⟩
  obtain ⟨hl, hy, -⟩ : (l ≠ y ∧ l ∉ ys) ∧ y ∉ ys ∧ ys.Nodup := by simpa using hlys
  obtain ⟨q', e, hfirst, rfl, hprevl, -⟩ := h₁.of_append
  obtain ⟨-, -, hrest⟩ := h₂
  have hfirst' : Seg next' prev' p h as q' (some l) :=
    hfirst.congr (fun a ha => hnext' a (has a ha).1) fun a ha => hprev' a (has a ha).2
  have hrest' : Seg next' prev' (some y) (next y) ys r none := by
    refine hrest.congr (fun a ha => hnext' a ?_) fun a ha => hprev' a ?_
    · rintro rfl
      exact hl.2 ha
    · rintro rfl
      exact hy ha
  refine hfirst'.append ⟨rfl, (hprev' l hl.1).trans hprevl, hnext, hprev, ?_⟩
  rwa [hnext' y hl.1.symm]

/-- A list without one of its cells, after its neighbours, or the first and the
last pointer of the list, have taken over its pointers. -/
theorem Seg.remove {next' prev' : α → Option α} {h q h' q' : Option α} {as bs : List α} {x : α}
    (hs : Seg next prev none h (as ++ x :: bs) q none) (hnodup : (as ++ x :: bs).Nodup)
    (hnext : ∀ l, prev x = some l → next' l = next x)
    (hnext' : ∀ y, y ≠ x → prev x ≠ some y → next' y = next y)
    (hprev : ∀ b, next x = some b → prev' b = prev x)
    (hprev' : ∀ y, y ≠ x → next x ≠ some y → prev' y = prev y)
    (hfirst : h' = if prev x = none then next x else h)
    (hlast : q' = if next x = none then prev x else q) :
    Seg next' prev' none h' (as ++ bs) q' none := by
  obtain ⟨-, hxbs, hdisj⟩ := List.nodup_append.mp hnodup
  obtain ⟨hx, hbs⟩ := List.nodup_cons.mp hxbs
  have hxas : x ∉ as := fun hmem => hdisj x hmem x List.mem_cons_self rfl
  obtain ⟨p, e, hsas, rfl, hprevx, hsbs⟩ := hs.of_append
  have hmemas (y : α) (hy : prev x = some y) : y ∈ as := by
    rw [hprevx, hsas.last_eq, Option.or_none] at hy
    exact List.mem_of_getLast? hy
  have hmembs (y : α) (hy : next x = some y) : y ∈ bs := by
    cases bs with
    | nil => cases hsbs.2.symm.trans hy
    | cons b bs =>
        cases hsbs.1.symm.trans hy
        exact List.mem_cons_self
  -- the cells after `x`
  have hafter : Seg next' prev' (prev x) (next x) bs q' none := by
    cases bs with
    | nil =>
        obtain ⟨-, hnone⟩ := hsbs
        refine ⟨?_, hnone⟩
        rw [hlast, if_pos hnone]
    | cons b bs =>
        obtain ⟨hb, -, hsbs⟩ := hsbs
        obtain ⟨hbbs, -⟩ := List.nodup_cons.mp hbs
        have hnextbs (y : α) (hy : y ∈ b :: bs) : next' y = next y := by
          apply hnext'
          · rintro rfl
            exact hx hy
          · exact fun hprevy => hdisj y (hmemas y hprevy) y (List.mem_cons_of_mem x hy) rfl
        refine ⟨hb, hprev b hb, ?_⟩
        rw [hnextbs b List.mem_cons_self, hlast, if_neg (by simp [hb])]
        refine hsbs.congr (fun y hy => hnextbs y (List.mem_cons_of_mem b hy)) fun y hy => hprev' y ?_ ?_
        · rintro rfl
          exact hx (List.mem_cons_of_mem b hy)
        · rintro hby
          cases hb.symm.trans hby
          exact hbbs hy
  -- the cells before it
  have hprevas (y : α) (hy : y ∈ as) : prev' y = prev y := by
    apply hprev'
    · rintro rfl
      exact hxas hy
    · exact fun hnexty => hdisj y hy y (List.mem_cons_of_mem x (hmembs y hnexty)) rfl
  rcases List.eq_nil_or_concat' as with rfl | ⟨as', l, rfl⟩
  · obtain ⟨rfl, -⟩ := hsas
    rw [hfirst, if_pos hprevx]
    rwa [hprevx] at hafter
  · have hl : prev x = some l := by
      rw [hprevx, hsas.last_eq, Option.or_none, List.getLast?_concat]
    rw [hfirst, if_neg (by simp [hl])]
    obtain ⟨p', e', hsas', rfl, hprevl, -⟩ := hsas.of_append
    have hnextas (y : α) (hy : y ∈ as') : next' y = next y := by
      apply hnext'
      · rintro rfl
        exact hxas (List.mem_append_left _ hy)
      · rintro hly
        cases hl.symm.trans hly
        have hasnodup := (List.nodup_append.mp hnodup).1
        exact (List.nodup_append.mp hasnodup).2.2 l hy l (by simp) rfl
    have hbefore : Seg next' prev' none h as' p' (some l) :=
      hsas'.congr hnextas fun y hy => hprevas y (List.mem_append_left _ hy)
    rw [List.append_assoc]
    refine hbefore.append ⟨rfl, ?_, ?_⟩
    · rw [hprevas l (by simp), hprevl]
    · rw [hnext l hl, ← hl]
      exact hafter

namespace IsList

variable {h : Option α} {xs : List α}

theorem nil : IsList next prev none [] := ⟨⟨none, rfl, rfl⟩, by simp⟩

theorem congr {next' prev' : α → Option α} (hl : IsList next prev h xs)
    (hnext : ∀ x ∈ xs, next' x = next x) (hprev : ∀ x ∈ xs, prev' x = prev x) :
    IsList next' prev' h xs := by
  obtain ⟨q, hs⟩ := hl.seg
  exact ⟨⟨q, hs.congr hnext hprev⟩, hl.nodup⟩

theorem head_eq (hl : IsList next prev h xs) : h = xs.head? := by
  obtain ⟨q, hs⟩ := hl.seg
  cases xs with
  | nil => exact hs.2
  | cons x xs => exact hs.1

theorem unique {ys : List α} (hl : IsList next prev h xs) (hl' : IsList next prev h ys) :
    xs = ys := by
  have key (xs ys : List α) (p p' h q q' : Option α) (hs : Seg next prev p h xs q none)
      (hs' : Seg next prev p' h ys q' none) : xs = ys := by
    induction xs generalizing ys p p' h with
    | nil =>
        obtain ⟨-, rfl⟩ := hs
        cases ys with
        | nil => rfl
        | cons y ys => cases hs'.1
    | cons x xs ih =>
        obtain ⟨rfl, -, hs⟩ := hs
        cases ys with
        | nil => cases hs'.2
        | cons y ys =>
            obtain ⟨hxy, -, hs'⟩ := hs'
            obtain rfl := Option.some.inj hxy
            rw [ih ys _ _ _ hs hs']
  obtain ⟨q, hs⟩ := hl.seg
  obtain ⟨q', hs'⟩ := hl'.seg
  exact key xs ys none none h q q' hs hs'

/-- The pointers of a cell in the middle of a list. -/
theorem mid {as bs : List α} {x : α} (hl : IsList next prev h (as ++ x :: bs)) :
    prev x = as.getLast? ∧ next x = bs.head? := by
  obtain ⟨q, hs⟩ := hl.seg
  obtain ⟨p, e, h₁, -, hprev, h₂⟩ := hs.of_append
  refine ⟨by rw [hprev, h₁.last_eq, Option.or_none], ?_⟩
  cases bs with
  | nil => exact h₂.2
  | cons b bs => exact h₂.1

/-- There is no second cell. -/
theorem next_head_eq_none_iff (hl : IsList next prev xs.head? xs) : xs.head?.bind next = none ↔ xs.length ≤ 1 := by
  rcases xs with _ | ⟨x, _ | ⟨y, ys⟩⟩
  · simp
  · have hnext : next x = none := (@mid _ _ _ _ [] [] _ hl).2
    simp [hnext]
  · have hnext : next x = some y := (@mid _ _ _ _ [] (y :: ys) _ hl).2
    simp [hnext]

/-- A cell of a list makes room for another list: the pointers of the cells around it and
of the first and the last cell of the other list are set. -/
theorem exchange [DecidableEq α] {next' prev' : α → Option α} {as bs ks : List α} {n : α} {k : Option α}
    (hl : IsList next prev h (as ++ n :: bs)) (hk : IsList next prev k ks) (hnodup : (as ++ (ks ++ bs)).Nodup)
    (hnextas : ∀ x ∈ as, next' x = if as.getLast? = some x then (ks ++ bs).head? else next x)
    (hprevas : ∀ x ∈ as, prev' x = prev x)
    (hnextks : ∀ x ∈ ks, next' x = if ks.getLast? = some x then bs.head? else next x)
    (hprevks : ∀ x ∈ ks, prev' x = if ks.head? = some x then as.getLast? else prev x)
    (hnextbs : ∀ x ∈ bs, next' x = next x)
    (hprevbs : ∀ x ∈ bs, prev' x = if bs.head? = some x then (as ++ ks).getLast? else prev x) :
    IsList next' prev' (as ++ (ks ++ bs)).head? (as ++ (ks ++ bs)) := by
  obtain ⟨q, hs⟩ := hl.seg
  obtain ⟨p, e, has, -, -, hbs⟩ := hs.of_append
  obtain ⟨r, hks⟩ := hk.seg
  obtain ⟨hasnodup, hksbs, -⟩ := List.nodup_append.mp hnodup
  obtain ⟨hksnodup, hbsnodup, -⟩ := List.nodup_append.mp hksbs
  have hprevas' (x : α) (hx : x ∈ as) : prev' x = if as.head? = some x then none else prev x := by
    rw [hprevas x hx]
    split
    · rename_i hhead
      obtain ⟨as', rfl⟩ := List.head?_eq_some_iff.mp hhead
      exact has.2.1
    · rfl
  have hnextbs' (x : α) (hx : x ∈ bs) : next' x = if bs.getLast? = some x then none else next x := by
    rw [hnextbs x hx]
    split
    · rename_i hlast
      obtain ⟨bs', rfl⟩ := List.getLast?_eq_some_iff.mp hlast
      obtain ⟨-, -, -, -, -, -, hnone⟩ := hbs.of_append
      exact hnone
    · rfl
  have hseg₁ := has.redirect hasnodup hnextas hprevas'
  have hseg₂ := hks.redirect hksnodup hnextks hprevks
  have hseg₃ := hbs.redirect hbsnodup hnextbs' hprevbs
  rw [Option.or_none] at hseg₁ hseg₃
  rw [List.getLast?_append] at hseg₃
  rw [List.head?_append] at hseg₁
  refine ⟨⟨bs.getLast?.or (ks.getLast?.or as.getLast?), ?_⟩, hnodup⟩
  rw [List.head?_append, List.head?_append]
  exact hseg₁.append (hseg₂.append hseg₃)

/-- A new cell on top of a list, after `next` and `prev` have been set. -/
theorem push {next' prev' : α → Option α} {x : α} (hl : IsList next prev h xs) (hx : x ∉ xs)
    (hnext : next' x = h) (hprev : prev' x = none) (hback : ∀ y, h = some y → prev' y = some x)
    (hnext' : ∀ y ∈ xs, next' y = next y)
    (hprev' : ∀ y ∈ xs, h ≠ some y → prev' y = prev y) :
    IsList next' prev' (some x) (x :: xs) := by
  obtain ⟨q, hs⟩ := hl.seg
  refine ⟨?_, List.nodup_cons.mpr ⟨hx, hl.nodup⟩⟩
  cases xs with
  | nil =>
      obtain ⟨-, rfl⟩ := hs
      exact ⟨some x, rfl, hprev, rfl, hnext⟩
  | cons y ys =>
      obtain ⟨rfl, -, hs⟩ := hs
      have hy := (List.nodup_cons.mp hl.nodup).1
      refine ⟨q, rfl, hprev, hnext, hback y rfl, ?_⟩
      rw [hnext' y (by simp)]
      refine hs.congr (fun z hz => hnext' z (by simp [hz])) fun z hz => hprev' z (by simp [hz]) ?_
      intro e
      exact hy (Option.some.inj e ▸ hz)

/-- Take a cell out of the middle of a list: the cell before it and the one
after it, if there is one, are linked with each other. -/
theorem unlink {next' prev' : α → Option α} {as bs : List α} {p x : α}
    (hl : IsList next prev h (as ++ p :: x :: bs))
    (hnext : next' p = next x) (hback : ∀ y, next x = some y → prev' y = some p)
    (hnext' : ∀ y ∈ as ++ p :: bs, y ≠ p → next' y = next y)
    (hprev' : ∀ y ∈ as ++ p :: bs, next x ≠ some y → prev' y = prev y) :
    IsList next' prev' h (as ++ p :: bs) := by
  have hnodup := hl.nodup
  obtain ⟨q, hs⟩ := hl.seg
  obtain ⟨p', e, h₁, rfl, hprevp, -, -, h₂⟩ := hs.of_append
  have hsub : (as ++ p :: bs).Sublist (as ++ p :: x :: bs) :=
    List.Sublist.append_left ((List.sublist_cons_self x bs).cons_cons p) as
  refine ⟨?_, hnodup.sublist hsub⟩
  have hdisj : ∀ y ∈ as ++ [p], next x ≠ some y := by
    intro y hy e
    cases bs with
    | nil => rw [h₂.2] at e; cases e
    | cons b bs =>
        obtain rfl : b = y := Option.some.inj (h₂.1.symm.trans e)
        simp only [List.nodup_append, List.nodup_cons] at hnodup
        rcases List.mem_append.mp hy with hy | hy
        · exact hnodup.2.2 b hy b (by simp) rfl
        · obtain rfl := List.mem_singleton.mp hy
          exact hnodup.2.1.1 (by simp)
  have hpas : p ∉ as := by
    intro hp
    simp only [List.nodup_append] at hnodup
    exact hnodup.2.2 p hp p (by simp) rfl
  have hpbs : p ∉ bs := by
    intro hp
    simp only [List.nodup_append, List.nodup_cons, List.mem_cons, not_or] at hnodup
    exact hnodup.2.1.1.2 hp
  have h₁' : Seg next' prev' none h as p' (some p) := by
    refine h₁.congr (fun y hy => hnext' y (by simp [hy]) ?_)
      fun y hy => hprev' y (by simp [hy]) (hdisj y (by simp [hy]))
    rintro rfl
    exact hpas hy
  have hp' : prev' p = p' := by
    rw [hprev' p (by simp) (hdisj p (by simp)), hprevp]
  cases bs with
  | nil =>
      obtain ⟨-, hx⟩ := h₂
      exact ⟨some p, h₁'.append ⟨rfl, hp', rfl, hnext.trans hx⟩⟩
  | cons b bs =>
      obtain ⟨hxb, -, h₃⟩ := h₂
      refine ⟨q, h₁'.append ⟨rfl, hp', hnext.trans hxb, hback b hxb, ?_⟩⟩
      have hbp : b ≠ p := by
        rintro rfl
        exact hpbs (by simp)
      rw [hnext' b (by simp) hbp]
      have hbbs : b ∉ bs := by
        simp only [List.nodup_append, List.nodup_cons] at hnodup
        exact hnodup.2.1.2.2.1
      refine h₃.congr (fun y hy => hnext' y (by simp [hy]) ?_) fun y hy =>
        hprev' y (by simp [hy]) ?_
      · rintro rfl
        exact hpbs (by simp [hy])
      · intro e
        exact hbbs (Option.some.inj (hxb.symm.trans e) ▸ hy)

end IsList

end DoublyLinked
