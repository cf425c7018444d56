import Mathlib.Data.List.Nodup
import Swig.Preprocessor.Conditional

/-!
Nested conditionals and the four scalars.

The input is a tree of text lines and groups. What a group selects is read off
the tree and the outcomes of its controlling expressions; that the scalars
`allow`, `level`, `startLevel` and `mask` compute the same is proved by
induction over the tree, once for a region that is skipped and once for one
that is copied.
-/

namespace Swig.Preprocessor

mutual

/-- Text lines and groups in sequence. -/
inductive Items
  | nil
  | text (t : List Byte) (rest : Items)
  | group (o : Opening) (d : Directive) (body : Items) (tail : Tail) (rest : Items)

/-- What follows a branch of a group: at most one `#else`, which comes last. -/
inductive Tail
  | endif (d : Directive)
  | else_ (d : Directive) (body : Items) (e : Directive)
  | elif (d : Directive) (body : Items) (tail : Tail)

end

mutual

def Items.lines : Items → List Line
  | .nil => []
  | .text t rest => .text t :: rest.lines
  | .group o d body tail rest =>
      .directive (.opening o) d :: (body.lines ++ (tail.lines ++ rest.lines))

def Tail.lines : Tail → List Line
  | .endif d => [.directive .endif d]
  | .else_ d body e => .directive .else_ d :: (body.lines ++ [.directive .endif e])
  | .elif d body tail => .directive .elif d :: (body.lines ++ tail.lines)

end

mutual

def Items.depth : Items → ℕ
  | .nil => 0
  | .text _ rest => rest.depth
  | .group _ _ body tail rest => max (max body.depth tail.depth + 1) rest.depth

/-- The depth of the branches, the group they belong to not counted. -/
def Tail.depth : Tail → ℕ
  | .endif _ => 0
  | .else_ _ body _ => body.depth
  | .elif _ body tail => max body.depth tail.depth

end

/-- A group seen from inside one of its branches. -/
structure Enclosing where
  /-- The branch, counted from 0. -/
  branch : ℕ
  /-- The branch the group selects, if any. -/
  selected : Option ℕ
  deriving DecidableEq

def Enclosing.inSelected (g : Enclosing) : Bool := g.selected == some g.branch

/-- A text line, or the controlling expression of branch `branch` of a group. -/
inductive Occurrence
  | text (t : List Byte)
  | condition (line branch : ℕ) (selected : Option ℕ)
  deriving DecidableEq

section Selection

-- the outcome of each controlling expression, by line
variable (outcome : ℕ → Bool)

/-- The first branch from number `i` on whose condition holds, or the `#else`. -/
def Tail.firstTrue (i : ℕ) : Tail → Option ℕ
  | .endif _ => none
  | .else_ _ _ _ => some i
  | .elif d _ tail => if outcome d.line then some i else tail.firstTrue (i + 1)

/-- The branch selected by a group opened by `d`. -/
def selectedBranch (d : Directive) (tail : Tail) : Option ℕ :=
  if outcome d.line then some 0 else tail.firstTrue outcome 1

mutual

/-- The text lines and conditions in order, each with the groups around it. -/
def Items.occurrences (gs : List Enclosing) : Items → List (Occurrence × List Enclosing)
  | .nil => []
  | .text t rest => (.text t, gs) :: rest.occurrences gs
  | .group _ d body tail rest =>
      (.condition d.line 0 (selectedBranch outcome d tail), gs) ::
        (body.occurrences (⟨0, selectedBranch outcome d tail⟩ :: gs) ++
          (tail.occurrences gs 1 (selectedBranch outcome d tail) ++ rest.occurrences gs))

/-- The same for the branches from number `i` on of a group selecting `sel`. -/
def Tail.occurrences (gs : List Enclosing) (i : ℕ) (sel : Option ℕ) :
    Tail → List (Occurrence × List Enclosing)
  | .endif _ => []
  | .else_ _ body _ => body.occurrences (⟨i, sel⟩ :: gs)
  | .elif d body tail =>
      (.condition d.line i sel, gs) ::
        (body.occurrences (⟨i, sel⟩ :: gs) ++ tail.occurrences gs (i + 1) sel)

end

/-- What an occurrence shows. Text is allowed where every group around it has
its selected branch. A condition is evaluated under the same condition on the
groups around its own group, except for the `#elif` that ends the selected
branch; a later `#elif` of the group is evaluated and its value masked out. -/
def Occurrence.event : Occurrence × List Enclosing → Option Event
  | (.text t, gs) => some (.text t (gs.all Enclosing.inSelected))
  | (.condition line i sel, gs) =>
      if gs.all Enclosing.inSelected && sel.map (· + 1) != some i then
        some (.evaluated line (outcome line))
      else
        none

def Items.events (gs : List Enclosing) (items : Items) : List Event :=
  (items.occurrences outcome gs).filterMap (Occurrence.event outcome)

def Tail.events (gs : List Enclosing) (i : ℕ) (sel : Option ℕ) (tail : Tail) : List Event :=
  (tail.occurrences outcome gs i sel).filterMap (Occurrence.event outcome)

end Selection

/-- The outcomes agree with the evaluations of the run. -/
def Agrees (outcome : ℕ → Bool) (ev : List Event) : Prop :=
  ∀ line b, .evaluated line b ∈ ev → outcome line = b

theorem agrees_append {outcome : ℕ → Bool} {ev ev' : List Event} :
    Agrees outcome (ev ++ ev') ↔ Agrees outcome ev ∧ Agrees outcome ev' := by
  simp only [Agrees, List.mem_append]
  constructor
  · intro h
    exact ⟨fun l b hb => h l b (.inl hb), fun l b hb => h l b (.inr hb)⟩
  · rintro ⟨h, h'⟩ l b (hb | hb)
    · exact h l b hb
    · exact h' l b hb

/-- The values of the four scalars. -/
structure Parser.At {W : Type} (p : Parser W) (allow : Bool) (level startLevel : ℕ)
    (mask : Bool) : Prop where
  allow : p.allow = allow
  level : p.level = level
  startLevel : p.startLevel = startLevel
  mask : p.mask = mask

variable {W : Type} {m : Macros W} {p p' q : Parser W} {l s : ℕ} {a k : Bool}

theorem Parser.At.addChunk (h : p.At a l s k) : (addChunk m p).At a l s k := by
  obtain ⟨rfl, rfl, rfl, rfl⟩ := h
  unfold Preprocessor.addChunk
  split <;> exact ⟨rfl, rfl, rfl, rfl⟩

theorem Parser.At.evaluate (d : Directive) (h : p.At a l s k) :
    (evaluate m d p).2.At a l s k := by
  obtain ⟨rfl, rfl, rfl, rfl⟩ := h
  simp only [Preprocessor.evaluate]
  split
  · split <;> exact ⟨rfl, rfl, rfl, rfl⟩
  · exact ⟨rfl, rfl, rfl, rfl⟩

theorem Parser.At.opening (o : Opening) (d : Directive) (h : p.At a l s k) :
    (o.evaluate m d p).2.At a l s k := by
  cases o with
  | ifdef => exact h
  | ifndef => exact h
  | if_ => exact h.evaluate d

theorem Parser.At.setCondLine (h : p.At a l s k) {i : ℕ} (hi : i < 256) (line : ℕ) :
    ∃ q, p.setCondLine i line = some q ∧ q.At a l s k :=
  ⟨_, dif_pos hi, ⟨h.allow, h.level, h.startLevel, h.mask⟩⟩

/-! ### Single lines -/

theorem step_text (h : p.At a l s k) (t : List Byte) :
    ∃ q, step m p (.text t) = some (q, [.text t a]) ∧ q.At a l s k :=
  ⟨{ p with chunk := p.chunk ++ t }, by simp [step, h.allow],
    ⟨h.allow, h.level, h.startLevel, h.mask⟩⟩

theorem step_directive {i : Conditional} {d : Directive} {r : Parser W} {ev : List Event}
    (h : parseConditional m i d (addChunk m p) = some (r, ev)) (hat : r.At a l s k) :
    ∃ q, step m p (.directive i d) = some (q, ev) ∧ q.At a l s k :=
  ⟨{ r with ns := r.ns ++ List.replicate d.cppLines 10 }, by simp [step, h],
    ⟨hat.allow, hat.level, hat.startLevel, hat.mask⟩⟩

theorem step_opening (h : p.At true l s k) (hl : l < 256) (o : Opening) (d : Directive) :
    ∃ q b, step m p (.directive (.opening o) d) = some (q, [.evaluated d.line b]) ∧
      q.At b (l + 1) (l + 1) true := by
  obtain ⟨p1, h1, hat1⟩ := (h.addChunk (m := m)).setCondLine (hl : l < 256) d.line
  have hat2 : Parser.At { p1 with level := p1.level + 1 } true (l + 1) s k :=
    ⟨hat1.allow, by simp [hat1.level], hat1.startLevel, hat1.mask⟩
  have hat3 := hat2.opening (m := m) o d
  obtain ⟨q, hq, hatq⟩ := step_directive (m := m) (p := p) (i := .opening o) (d := d)
    (r := { (o.evaluate m d { p1 with level := p1.level + 1 }).2 with
      startLevel := (o.evaluate m d { p1 with level := p1.level + 1 }).2.level
      allow := (o.evaluate m d { p1 with level := p1.level + 1 }).1
      mask := true })
    (by
      simp only [parseConditional, parseOpening, h.addChunk.level, h1, Option.bind_eq_bind,
        Option.bind_some]
      exact if_pos hat1.allow)
    ⟨rfl, hat3.level, hat3.level, rfl⟩
  exact ⟨q, _, hq, hatq⟩

theorem step_opening_skipped (h : p.At false l s k) (hl : l < 256) (o : Opening) (d : Directive) :
    ∃ q, step m p (.directive (.opening o) d) = some (q, []) ∧ q.At false (l + 1) s k := by
  obtain ⟨p1, h1, hat1⟩ := (h.addChunk (m := m)).setCondLine (hl : l < 256) d.line
  refine step_directive (r := { p1 with level := p1.level + 1 }) ?_
    ⟨hat1.allow, by simp [hat1.level], hat1.startLevel, hat1.mask⟩
  simp [parseConditional, parseOpening, h.addChunk.level, h1, hat1.allow]

theorem step_else_taken (h : p.At true l s k) (h0 : l ≠ 0) (hl : l ≤ 256) (d : Directive) :
    ∃ q, step m p (.directive .else_ d) = some (q, []) ∧ q.At false l s false := by
  obtain ⟨p1, h1, hat1⟩ := (h.addChunk (m := m)).setCondLine (by omega : l - 1 < 256) d.line
  refine step_directive (r := { p1 with allow := false, mask := false }) ?_
    ⟨rfl, hat1.level, hat1.startLevel, rfl⟩
  simp [parseConditional, parseElse, h.addChunk.level, h1, hat1.allow, h0]

theorem step_else (h : p.At false l l k) (h0 : l ≠ 0) (hl : l ≤ 256) (d : Directive) :
    ∃ q, step m p (.directive .else_ d) = some (q, []) ∧ q.At k l l k := by
  obtain ⟨p1, h1, hat1⟩ := (h.addChunk (m := m)).setCondLine (by omega : l - 1 < 256) d.line
  refine step_directive (r := { p1 with allow := p1.mask }) ?_
    ⟨hat1.mask, hat1.level, hat1.startLevel, hat1.mask⟩
  simp [parseConditional, parseElse, h.addChunk.level, h1, hat1.allow, hat1.level,
    hat1.startLevel, h0]

theorem step_else_skipped (h : p.At false l s k) (hs : s < l) (hl : l ≤ 256) (d : Directive) :
    ∃ q, step m p (.directive .else_ d) = some (q, []) ∧ q.At false l s k := by
  obtain ⟨p1, h1, hat1⟩ := (h.addChunk (m := m)).setCondLine (by omega : l - 1 < 256) d.line
  refine step_directive (r := p1) ?_ hat1
  have h0 : l ≠ 0 := by omega
  have hs' : l ≠ s := by omega
  simp [parseConditional, parseElse, h.addChunk.level, h1, hat1.allow, hat1.level,
    hat1.startLevel, h0, hs']

theorem step_elif_taken (h : p.At true l s k) (h0 : l ≠ 0) (hl : l ≤ 256) (d : Directive) :
    ∃ q, step m p (.directive .elif d) = some (q, []) ∧ q.At false l s false := by
  obtain ⟨p1, h1, hat1⟩ := (h.addChunk (m := m)).setCondLine (by omega : l - 1 < 256) d.line
  refine step_directive (r := { p1 with allow := false, mask := false }) ?_
    ⟨rfl, hat1.level, hat1.startLevel, rfl⟩
  simp [parseConditional, parseElif, h.addChunk.level, h1, hat1.allow, h0]

theorem step_elif (h : p.At false l l k) (h0 : l ≠ 0) (hl : l ≤ 256) (d : Directive) :
    ∃ q b, step m p (.directive .elif d) = some (q, [.evaluated d.line b]) ∧
      q.At (b && k) l l k := by
  obtain ⟨p1, h1, hat1⟩ := (h.addChunk (m := m)).setCondLine (by omega : l - 1 < 256) d.line
  have hat2 := hat1.evaluate (m := m) d
  have hparse : parseConditional m .elif d (addChunk m p) =
      some ({ (evaluate m d p1).2 with
          allow := (evaluate m d p1).1 && (evaluate m d p1).2.mask },
        [.evaluated d.line (evaluate m d p1).1]) := by
    simp [parseConditional, parseElif, h.addChunk.level, h1, hat1.allow, hat1.level,
      hat1.startLevel, h0]
  obtain ⟨q, hq, hatq⟩ := step_directive hparse
    ⟨by rw [hat2.mask], hat2.level, hat2.startLevel, hat2.mask⟩
  exact ⟨q, _, hq, hatq⟩

theorem step_elif_skipped (h : p.At false l s k) (hs : s < l) (hl : l ≤ 256) (d : Directive) :
    ∃ q, step m p (.directive .elif d) = some (q, []) ∧ q.At false l s k := by
  obtain ⟨p1, h1, hat1⟩ := (h.addChunk (m := m)).setCondLine (by omega : l - 1 < 256) d.line
  refine step_directive (r := p1) ?_ hat1
  have h0 : l ≠ 0 := by omega
  have hs' : l ≠ s := by omega
  simp [parseConditional, parseElif, h.addChunk.level, h1, hat1.allow, hat1.level,
    hat1.startLevel, h0, hs']

theorem step_endif (h : p.At a (l + 1) (l + 1) k) (d : Directive) :
    ∃ q, step m p (.directive .endif d) = some (q, []) ∧ q.At true l l k := by
  have hat := h.addChunk (m := m)
  refine step_directive (r := { addChunk m p with
    level := l, allow := true, startLevel := (addChunk m p).startLevel - 1 }) ?_
    ⟨rfl, rfl, by simp [hat.startLevel], hat.mask⟩
  simp [parseConditional, parseEndif, hat.level, hat.startLevel]

theorem step_endif_skipped (h : p.At false (l + 1) s k) (hs : s ≤ l) (d : Directive) :
    ∃ q, step m p (.directive .endif d) = some (q, []) ∧ q.At false l s k := by
  have hat := h.addChunk (m := m)
  refine step_directive (r := { addChunk m p with level := l }) ?_
    ⟨hat.allow, rfl, hat.startLevel, hat.mask⟩
  have hs' : ¬l < s := by omega
  simp [parseConditional, parseEndif, hat.level, hat.startLevel, hs']

/-! ### Runs -/

theorem run_cons {x : Line} {xs : List Line} {ev ev' : List Event}
    (hx : step m p x = some (q, ev)) (hxs : run m q xs = some (p', ev')) :
    run m p (x :: xs) = some (p', ev ++ ev') := by
  simp [run, hx, hxs]

theorem run_append {xs ys : List Line} {ev ev' : List Event}
    (hx : run m p xs = some (q, ev)) (hy : run m q ys = some (p', ev')) :
    run m p (xs ++ ys) = some (p', ev ++ ev') := by
  induction xs generalizing p ev with
  | nil =>
      simp only [run, Option.some.injEq, Prod.mk.injEq] at hx
      obtain ⟨rfl, rfl⟩ := hx
      exact hy
  | cons x xs ih =>
      simp only [run, Option.bind_eq_bind, Option.bind_eq_some_iff, Option.some.injEq,
        Prod.mk.injEq, Prod.exists] at hx
      obtain ⟨p1, ev1, h1, p2, ev2, h2, rfl, rfl⟩ := hx
      rw [List.cons_append, List.append_assoc]
      exact run_cons h1 (ih h2)

section Selection

variable {o : ℕ → Bool} {gs : List Enclosing}

theorem event_text (t : List Byte) :
    Occurrence.event o (.text t, gs) = some (.text t (gs.all Enclosing.inSelected)) := rfl

theorem event_condition_skipped (hgs : gs.all Enclosing.inSelected = false) (line i : ℕ)
    (sel : Option ℕ) : Occurrence.event o (.condition line i sel, gs) = none := by
  simp [Occurrence.event, hgs]

theorem event_condition_masked (line i : ℕ) :
    Occurrence.event o (.condition line (i + 1) (some i), gs) = none := by
  simp [Occurrence.event]

theorem event_condition (hgs : gs.all Enclosing.inSelected = true) {i : ℕ} {sel : Option ℕ}
    (hsel : ∀ j, sel = some j → j + 1 ≠ i) (line : ℕ) :
    Occurrence.event o (.condition line i sel, gs) = some (.evaluated line (o line)) := by
  have : sel.map (· + 1) ≠ some i := by
    cases sel with
    | none => simp
    | some j => simpa using hsel j rfl
  simp [Occurrence.event, hgs, this]

theorem all_cons_inSelected (hgs : gs.all Enclosing.inSelected = true) (i : ℕ) (sel : Option ℕ) :
    (Enclosing.mk i sel :: gs).all Enclosing.inSelected = (sel == some i) := by
  simp [Enclosing.inSelected, hgs]

theorem all_cons_of_skipped (hgs : gs.all Enclosing.inSelected = false) (g : Enclosing) :
    (g :: gs).all Enclosing.inSelected = false := by
  simp [hgs]

/-- The branch found from number `i` on is not an earlier one. -/
theorem Tail.le_of_firstTrue {tail : Tail} {i j : ℕ} (h : tail.firstTrue o i = some j) : i ≤ j := by
  induction tail using Tail.rec (motive_1 := fun _ => True) generalizing i with
  | nil => trivial
  | text => trivial
  | group => trivial
  | endif d => simp [Tail.firstTrue] at h
  | else_ d body e => simp [Tail.firstTrue] at h; omega
  | elif d body tail _ ih =>
      simp only [Tail.firstTrue] at h
      split at h
      · simp at h; omega
      · have := ih h; omega

end Selection

mutual

/-- A skipped region leaves the scalars as they are. -/
theorem Items.run_skipped (items : Items) {p : Parser W} {l s : ℕ} {k : Bool}
    (h : p.At false l s k) (hs : s ≤ l) (hd : l + items.depth ≤ 256) :
    ∃ q ev, run m p items.lines = some (q, ev) ∧ q.At false l s k ∧
      ∀ o gs, gs.all Enclosing.inSelected = false → items.events o gs = ev := by
  cases items with
  | nil => exact ⟨p, [], rfl, h, fun _ _ _ => rfl⟩
  | text t rest =>
      obtain ⟨p1, h1, hat1⟩ := step_text (m := m) h t
      obtain ⟨q, ev, hq, hat, hev⟩ := rest.run_skipped hat1 hs hd
      refine ⟨q, _, run_cons h1 hq, hat, fun o gs hgs => ?_⟩
      simp only [Items.events, Items.occurrences, List.filterMap_cons, event_text, hgs]
      rw [← Items.events, hev o gs hgs]
      rfl
  | group op d body tail rest =>
      simp only [Items.depth] at hd
      obtain ⟨p1, h1, hat1⟩ := step_opening_skipped (m := m) h (by omega) op d
      obtain ⟨p2, ev2, h2, hat2, hev2⟩ := body.run_skipped hat1 (by omega) (by omega)
      obtain ⟨p3, ev3, h3, hat3, hev3⟩ := tail.run_skipped hat2 hs (by omega)
      obtain ⟨q, ev, hq, hat, hev⟩ := rest.run_skipped hat3 hs (by omega)
      refine ⟨q, _, run_cons h1 (run_append h2 (run_append h3 hq)), hat, fun o gs hgs => ?_⟩
      simp only [Items.events, Items.occurrences, List.filterMap_cons, List.filterMap_append,
        event_condition_skipped hgs]
      rw [← Items.events, ← Items.events, ← Tail.events, hev o gs hgs, hev3 o gs _ _ hgs,
        hev2 o _ (all_cons_of_skipped hgs _)]
      rfl

theorem Tail.run_skipped (tail : Tail) {p : Parser W} {l s : ℕ} {k : Bool}
    (h : p.At false (l + 1) s k) (hs : s ≤ l) (hd : l + 1 + tail.depth ≤ 256) :
    ∃ q ev, run m p tail.lines = some (q, ev) ∧ q.At false l s k ∧
      ∀ o gs i sel, gs.all Enclosing.inSelected = false → tail.events o gs i sel = ev := by
  cases tail with
  | endif d =>
      obtain ⟨q, hq, hat⟩ := step_endif_skipped (m := m) h hs d
      exact ⟨q, _, run_cons hq rfl, hat, fun _ _ _ _ _ => rfl⟩
  | else_ d body e =>
      simp only [Tail.depth] at hd
      obtain ⟨p1, h1, hat1⟩ := step_else_skipped (m := m) h (by omega) (by omega) d
      obtain ⟨p2, ev2, h2, hat2, hev2⟩ := body.run_skipped hat1 (by omega) (by omega)
      obtain ⟨q, hq, hat⟩ := step_endif_skipped (m := m) hat2 hs e
      refine ⟨q, _, run_cons h1 (run_append h2 (run_cons hq rfl)), hat,
        fun o gs i sel hgs => ?_⟩
      simp only [Tail.events, Tail.occurrences]
      rw [← Items.events, hev2 o _ (all_cons_of_skipped hgs _)]
      simp
  | elif d body tail =>
      simp only [Tail.depth] at hd
      obtain ⟨p1, h1, hat1⟩ := step_elif_skipped (m := m) h (by omega) (by omega) d
      obtain ⟨p2, ev2, h2, hat2, hev2⟩ := body.run_skipped hat1 (by omega) (by omega)
      obtain ⟨q, ev, hq, hat, hev⟩ := tail.run_skipped hat2 hs (by omega)
      refine ⟨q, _, run_cons h1 (run_append h2 hq), hat, fun o gs i sel hgs => ?_⟩
      simp only [Tail.events, Tail.occurrences, List.filterMap_cons, List.filterMap_append,
        event_condition_skipped hgs]
      rw [← Items.events, ← Tail.events, hev o gs _ _ hgs, hev2 o _ (all_cons_of_skipped hgs _)]
      rfl

end

/-- The rest of a group whose branch was selected before the last one: every
branch is skipped, and the mask stays cleared. -/
theorem Tail.run_closed (tail : Tail) {p : Parser W} (h : p.At false (l + 1) (l + 1) false)
    (hd : l + 1 + tail.depth ≤ 256) :
    ∃ q ev, run m p tail.lines = some (q, ev) ∧ q.At true l l false ∧
      ∀ o, Agrees o ev → ∀ gs, gs.all Enclosing.inSelected = true → ∀ i j, j + 1 < i →
        tail.events o gs i (some j) = ev := by
  have hne {i j : ℕ} (h : j + 1 < i) : (some j == some i) = false := by
    simp; omega
  induction tail using Tail.rec (motive_1 := fun _ => True) generalizing p with
  | nil => trivial
  | text => trivial
  | group => trivial
  | endif d =>
      obtain ⟨q, hq, hat⟩ := step_endif (m := m) h d
      exact ⟨q, _, run_cons hq rfl, hat, fun _ _ _ _ _ _ _ => rfl⟩
  | else_ d body e =>
      simp only [Tail.depth] at hd
      obtain ⟨p1, h1, hat1⟩ := step_else (m := m) h (by omega) (by omega) d
      obtain ⟨p2, ev2, h2, hat2, hev2⟩ := body.run_skipped hat1 (Nat.le_refl _) (by omega)
      obtain ⟨q, hq, hat⟩ := step_endif (m := m) hat2 e
      refine ⟨q, _, run_cons h1 (run_append h2 (run_cons hq rfl)), hat,
        fun o _ gs hgs i j hij => ?_⟩
      simp only [Tail.events, Tail.occurrences]
      rw [← Items.events, hev2 o _ (by rw [all_cons_inSelected hgs, hne hij])]
      simp
  | elif d body tail _ ih =>
      simp only [Tail.depth] at hd
      obtain ⟨p1, b, h1, hat1⟩ := step_elif (m := m) h (by omega) (by omega) d
      rw [Bool.and_false] at hat1
      obtain ⟨p2, ev2, h2, hat2, hev2⟩ := body.run_skipped hat1 (Nat.le_refl _) (by omega)
      obtain ⟨q, ev, hq, hat, hev⟩ := ih hat2 (by omega)
      refine ⟨q, _, run_cons h1 (run_append h2 hq), hat, fun o ho gs hgs i j hij => ?_⟩
      simp only [agrees_append] at ho
      simp only [Tail.events, Tail.occurrences, List.filterMap_cons, List.filterMap_append]
      rw [event_condition hgs (by simp; omega), ho.1 d.line b (by simp)]
      simp only
      rw [← Items.events, ← Tail.events, hev o ho.2.2 gs hgs _ _ (by omega),
        hev2 o _ (by rw [all_cons_inSelected hgs, hne hij])]
      rfl

/-- The rest of a group after its selected branch. -/
theorem Tail.run_taken (tail : Tail) {p : Parser W} (h : p.At true (l + 1) (l + 1) k)
    (hd : l + 1 + tail.depth ≤ 256) :
    ∃ q ev k', run m p tail.lines = some (q, ev) ∧ q.At true l l k' ∧
      ∀ o, Agrees o ev → ∀ gs, gs.all Enclosing.inSelected = true → ∀ i,
        tail.events o gs (i + 1) (some i) = ev := by
  have hne (i : ℕ) : (some i == some (i + 1)) = false := by simp
  cases tail with
  | endif d =>
      obtain ⟨q, hq, hat⟩ := step_endif (m := m) h d
      exact ⟨q, _, _, run_cons hq rfl, hat, fun _ _ _ _ _ => rfl⟩
  | else_ d body e =>
      simp only [Tail.depth] at hd
      obtain ⟨p1, h1, hat1⟩ := step_else_taken (m := m) h (by omega) (by omega) d
      obtain ⟨p2, ev2, h2, hat2, hev2⟩ := body.run_skipped hat1 (Nat.le_refl _) (by omega)
      obtain ⟨q, hq, hat⟩ := step_endif (m := m) hat2 e
      refine ⟨q, _, _, run_cons h1 (run_append h2 (run_cons hq rfl)), hat,
        fun o _ gs hgs i => ?_⟩
      simp only [Tail.events, Tail.occurrences]
      rw [← Items.events, hev2 o _ (by rw [all_cons_inSelected hgs, hne])]
      simp
  | elif d body tail =>
      simp only [Tail.depth] at hd
      obtain ⟨p1, h1, hat1⟩ := step_elif_taken (m := m) h (by omega) (by omega) d
      obtain ⟨p2, ev2, h2, hat2, hev2⟩ := body.run_skipped hat1 (Nat.le_refl _) (by omega)
      obtain ⟨q, ev, hq, hat, hev⟩ := tail.run_closed (m := m) hat2 (by omega)
      refine ⟨q, _, _, run_cons h1 (run_append h2 hq), hat, fun o ho gs hgs i => ?_⟩
      simp only [agrees_append] at ho
      simp only [Tail.events, Tail.occurrences, List.filterMap_cons, List.filterMap_append,
        event_condition_masked]
      rw [← Items.events, ← Tail.events, hev o ho.2.2 gs hgs _ _ (by omega),
        hev2 o _ (by rw [all_cons_inSelected hgs, hne])]
      rfl

mutual

/-- A region that is copied ends as it began, and shows what the tree says. -/
theorem Items.run_allowed (items : Items) {p : Parser W} {l : ℕ} {k : Bool}
    (h : p.At true l l k) (hd : l + items.depth ≤ 256) :
    ∃ q ev k', run m p items.lines = some (q, ev) ∧ q.At true l l k' ∧
      ∀ o, Agrees o ev → ∀ gs, gs.all Enclosing.inSelected = true → items.events o gs = ev := by
  cases items with
  | nil => exact ⟨p, [], k, rfl, h, fun _ _ _ _ => rfl⟩
  | text t rest =>
      obtain ⟨p1, h1, hat1⟩ := step_text (m := m) h t
      obtain ⟨q, ev, k', hq, hat, hev⟩ := rest.run_allowed hat1 hd
      refine ⟨q, _, k', run_cons h1 hq, hat, fun o ho gs hgs => ?_⟩
      rw [agrees_append] at ho
      simp only [Items.events, Items.occurrences, List.filterMap_cons, event_text, hgs]
      rw [← Items.events, hev o ho.2 gs hgs]
      rfl
  | group op d body tail rest =>
      simp only [Items.depth] at hd
      obtain ⟨p1, b, h1, hat1⟩ := step_opening (m := m) h (by omega) op d
      cases b with
      | true =>
          obtain ⟨p2, ev2, k2, h2, hat2, hev2⟩ := body.run_allowed hat1 (by omega)
          obtain ⟨p3, ev3, k3, h3, hat3, hev3⟩ := tail.run_taken (m := m) hat2 (by omega)
          obtain ⟨q, ev, k', hq, hat, hev⟩ := rest.run_allowed hat3 (by omega)
          refine ⟨q, _, k', run_cons h1 (run_append h2 (run_append h3 hq)), hat,
            fun o ho gs hgs => ?_⟩
          simp only [agrees_append] at ho
          have hb : o d.line = true := ho.1 d.line true (by simp)
          have hsel : selectedBranch o d tail = some 0 := if_pos hb
          simp only [Items.events, Items.occurrences, List.filterMap_cons,
            List.filterMap_append, hsel]
          rw [event_condition hgs (by simp), hb]
          simp only
          rw [← Items.events, ← Items.events, ← Tail.events, hev o ho.2.2.2 gs hgs,
            hev3 o ho.2.2.1 gs hgs, hev2 o ho.2.1 _ (by rw [all_cons_inSelected hgs]; rfl)]
          rfl
      | false =>
          obtain ⟨p2, ev2, h2, hat2, hev2⟩ := body.run_skipped hat1 (Nat.le_refl _) (by omega)
          obtain ⟨p3, ev3, k3, h3, hat3, hev3⟩ := tail.run_open hat2 (by omega)
          obtain ⟨q, ev, k', hq, hat, hev⟩ := rest.run_allowed hat3 (by omega)
          refine ⟨q, _, k', run_cons h1 (run_append h2 (run_append h3 hq)), hat,
            fun o ho gs hgs => ?_⟩
          simp only [agrees_append] at ho
          have hb : o d.line = false := ho.1 d.line false (by simp)
          have hsel : selectedBranch o d tail = tail.firstTrue o 1 := by
            simp [selectedBranch, hb]
          have hfirst : (tail.firstTrue o 1 == some 0) = false := by
            have (hj : tail.firstTrue o 1 = some 0) : False := by
              have := tail.le_of_firstTrue hj
              omega
            simpa using this
          simp only [Items.events, Items.occurrences, List.filterMap_cons,
            List.filterMap_append, hsel]
          rw [event_condition hgs (by simp), hb]
          simp only
          rw [← Items.events, ← Items.events, ← Tail.events, hev o ho.2.2.2 gs hgs,
            hev3 o ho.2.2.1 gs hgs, hev2 o _ (by rw [all_cons_inSelected hgs, hfirst])]
          rfl

/-- The rest of a group of which no branch has been selected so far. -/
theorem Tail.run_open (tail : Tail) {p : Parser W} {l : ℕ}
    (h : p.At false (l + 1) (l + 1) true) (hd : l + 1 + tail.depth ≤ 256) :
    ∃ q ev k', run m p tail.lines = some (q, ev) ∧ q.At true l l k' ∧
      ∀ o, Agrees o ev → ∀ gs, gs.all Enclosing.inSelected = true → ∀ i,
        tail.events o gs i (tail.firstTrue o i) = ev := by
  cases tail with
  | endif d =>
      obtain ⟨q, hq, hat⟩ := step_endif (m := m) h d
      exact ⟨q, _, _, run_cons hq rfl, hat, fun _ _ _ _ _ => rfl⟩
  | else_ d body e =>
      simp only [Tail.depth] at hd
      obtain ⟨p1, h1, hat1⟩ := step_else (m := m) h (by omega) (by omega) d
      obtain ⟨p2, ev2, k2, h2, hat2, hev2⟩ := body.run_allowed hat1 (by omega)
      obtain ⟨q, hq, hat⟩ := step_endif (m := m) hat2 e
      refine ⟨q, _, _, run_cons h1 (run_append h2 (run_cons hq rfl)), hat,
        fun o ho gs hgs i => ?_⟩
      simp only [agrees_append] at ho
      simp only [Tail.events, Tail.occurrences, Tail.firstTrue]
      rw [← Items.events, hev2 o ho.2.1 _ (by rw [all_cons_inSelected hgs]; simp)]
      simp
  | elif d body tail =>
      simp only [Tail.depth] at hd
      obtain ⟨p1, b, h1, hat1⟩ := step_elif (m := m) h (by omega) (by omega) d
      rw [Bool.and_true] at hat1
      cases b with
      | true =>
          obtain ⟨p2, ev2, k2, h2, hat2, hev2⟩ := body.run_allowed hat1 (by omega)
          obtain ⟨q, ev, k', hq, hat, hev⟩ := tail.run_taken (m := m) hat2 (by omega)
          refine ⟨q, _, k', run_cons h1 (run_append h2 hq), hat, fun o ho gs hgs i => ?_⟩
          simp only [agrees_append] at ho
          have hb : o d.line = true := ho.1 d.line true (by simp)
          simp only [Tail.events, Tail.occurrences, Tail.firstTrue, hb, if_true,
            List.filterMap_cons, List.filterMap_append]
          rw [event_condition hgs (by simp), hb]
          simp only
          rw [← Items.events, ← Tail.events, hev o ho.2.2 gs hgs,
            hev2 o ho.2.1 _ (by rw [all_cons_inSelected hgs]; simp)]
          rfl
      | false =>
          obtain ⟨p2, ev2, h2, hat2, hev2⟩ := body.run_skipped hat1 (Nat.le_refl _) (by omega)
          obtain ⟨q, ev, k', hq, hat, hev⟩ := tail.run_open hat2 (by omega)
          refine ⟨q, _, k', run_cons h1 (run_append h2 hq), hat, fun o ho gs hgs i => ?_⟩
          simp only [agrees_append] at ho
          have hb : o d.line = false := ho.1 d.line false (by simp)
          have hlate (j : ℕ) (hj : tail.firstTrue o (i + 1) = some j) : i < j :=
            tail.le_of_firstTrue hj
          have hfirst : (tail.firstTrue o (i + 1) == some i) = false := by
            simpa using fun hj => Nat.lt_irrefl i (hlate i hj)
          simp only [Tail.events, Tail.occurrences, Tail.firstTrue, hb, Bool.false_eq_true,
            if_false, List.filterMap_cons, List.filterMap_append]
          rw [event_condition hgs (fun j hj => by have := hlate j hj; omega), hb]
          simp only
          rw [← Items.events, ← Tail.events, hev o ho.2.2 gs hgs,
            hev2 o _ (by rw [all_cons_inSelected hgs, hfirst])]
          rfl

end

/-! ### Evaluations of a run -/

def Event.evaluation : Event → Option (ℕ × Bool)
  | .text _ _ => none
  | .evaluated line b => some (line, b)

def Event.textFlag : Event → Option (List Byte × Bool)
  | .text t allow => some (t, allow)
  | .evaluated _ _ => none

def Line.directiveLine : Line → Option ℕ
  | .text _ => none
  | .directive _ d => some d.line

/-- A directive evaluates at most its own expression. -/
theorem parseConditional_events {id : Conditional} {d : Directive} {ev : List Event}
    (h : parseConditional m id d p = some (q, ev)) :
    ev = [] ∨ ∃ b, ev = [.evaluated d.line b] := by
  have hnone {r : Parser W} (h : some (r, []) = some (q, ev)) :
      ev = [] ∨ ∃ b, ev = [.evaluated d.line b] := by
    simp only [Option.some.injEq, Prod.mk.injEq] at h
    exact .inl h.2.symm
  have hone {r : Parser W} {b : Bool} (h : some (r, [.evaluated d.line b]) = some (q, ev)) :
      ev = [] ∨ ∃ b, ev = [.evaluated d.line b] := by
    simp only [Option.some.injEq, Prod.mk.injEq] at h
    exact .inr ⟨b, h.2.symm⟩
  cases id with
  | opening op =>
      simp only [parseConditional, parseOpening, Option.bind_eq_bind,
        Option.bind_eq_some_iff] at h
      obtain ⟨p1, -, h⟩ := h
      split at h
      · exact hone h
      · exact hnone h
  | else_ =>
      simp only [parseConditional, parseElse, Option.bind_eq_bind] at h
      split at h
      · exact hnone h
      · obtain ⟨p1, -, h⟩ := Option.bind_eq_some_iff.mp h
        split at h <;> [skip; split at h] <;> exact hnone h
  | elif =>
      simp only [parseConditional, parseElif, Option.bind_eq_bind] at h
      split at h
      · exact hnone h
      · obtain ⟨p1, -, h⟩ := Option.bind_eq_some_iff.mp h
        split at h
        · exact hnone h
        · split at h
          · exact hone h
          · exact hnone h
  | endif =>
      simp only [parseConditional, parseEndif] at h
      split at h <;> [skip; split at h] <;> exact hnone h

theorem step_evaluations {x : Line} {ev : List Event} (h : step m p x = some (q, ev)) :
    ((ev.filterMap Event.evaluation).map Prod.fst).Sublist x.directiveLine.toList := by
  cases x with
  | text t =>
      simp only [step, Option.some.injEq, Prod.mk.injEq] at h
      rw [← h.2]
      exact List.nil_sublist _
  | directive id d =>
      simp only [step, Option.bind_eq_bind, Option.bind_eq_some_iff, Option.some.injEq,
        Prod.mk.injEq, Prod.exists] at h
      obtain ⟨p1, ev, h1, -, rfl⟩ := h
      rcases parseConditional_events h1 with rfl | ⟨b, rfl⟩
      · exact List.nil_sublist _
      · exact List.Sublist.refl _

theorem run_evaluations {xs : List Line} {ev : List Event} (h : run m p xs = some (q, ev)) :
    ((ev.filterMap Event.evaluation).map Prod.fst).Sublist (xs.filterMap Line.directiveLine) := by
  induction xs generalizing p q ev with
  | nil =>
      simp only [run, Option.some.injEq, Prod.mk.injEq] at h
      rw [← h.2]
      exact List.Sublist.refl _
  | cons x xs ih =>
      simp only [run, Option.bind_eq_bind, Option.bind_eq_some_iff, Option.some.injEq,
        Prod.mk.injEq, Prod.exists] at h
      obtain ⟨p1, ev1, h1, p2, ev2, h2, rfl, rfl⟩ := h
      have hsplit : (x :: xs).filterMap Line.directiveLine =
          x.directiveLine.toList ++ xs.filterMap Line.directiveLine := by
        cases hx : x.directiveLine <;> simp [hx]
      rw [List.filterMap_append, List.map_append, hsplit]
      exact (step_evaluations h1).append (ih h2)

/-- The outcome a run gives a controlling expression; false if not evaluated. -/
def outcomeIn (ev : List Event) (line : ℕ) : Bool := decide (.evaluated line true ∈ ev)

theorem agrees_outcomeIn {ev : List Event}
    (h : ((ev.filterMap Event.evaluation).map Prod.fst).Nodup) : Agrees (outcomeIn ev) ev := by
  intro line b hb
  cases b with
  | true => simp [outcomeIn, hb]
  | false =>
      simp only [outcomeIn, decide_eq_false_iff_not]
      intro ht
      have hmem (c : Bool) (hc : Event.evaluated line c ∈ ev) :
          (line, c) ∈ ev.filterMap Event.evaluation :=
        List.mem_filterMap.mpr ⟨_, hc, rfl⟩
      have := List.inj_on_of_nodup_map h (hmem _ hb) (hmem _ ht) rfl
      simp at this

/-- A well-formed input: nested no deeper than `cond_lines` has room for, and
each directive on a line of its own. -/
structure Source where
  items : Items
  depth_le : items.depth ≤ 256
  nodup_lines : (items.lines.filterMap Line.directiveLine).Nodup

/-- `#ifdef A`, a line, `#elif B`, a line, `#else`, a line, `#endif`. -/
example : Source where
  items := .group .ifdef ⟨1, lit "A", 1⟩ (.text (lit "a\n") .nil)
    (.elif ⟨3, lit "B", 1⟩ (.text (lit "b\n") .nil)
      (.else_ ⟨5, [], 1⟩ (.text (lit "c\n") .nil) ⟨7, [], 1⟩)) .nil
  depth_le := by decide
  nodup_lines := by decide

/-- The text lines, each with the groups around it. -/
def Items.textLines (outcome : ℕ → Bool) (items : Items) : List (List Byte × List Enclosing) :=
  (items.occurrences outcome []).filterMap fun
    | (.text t, gs) => some (t, gs)
    | (.condition _ _ _, _) => none

/-- The controlling expressions by line, each with the groups around its own group. -/
def Items.conditions (outcome : ℕ → Bool) (items : Items) : List (ℕ × List Enclosing) :=
  (items.occurrences outcome []).filterMap fun
    | (.text _, _) => none
    | (.condition line _ _, gs) => some (line, gs)

theorem textFlags_events (outcome : ℕ → Bool) (items : Items) :
    (items.events outcome []).filterMap Event.textFlag =
      (items.textLines outcome).map fun x => (x.1, x.2.all Enclosing.inSelected) := by
  rw [Items.events, Items.textLines, List.filterMap_filterMap, List.map_filterMap]
  congr 1
  funext x
  obtain ⟨occ | ⟨line, i, sel⟩, gs⟩ := x
  · rfl
  · simp only [Occurrence.event]
    split <;> rfl

theorem mem_conditions_of_evaluated {outcome : ℕ → Bool} {items : Items} {line : ℕ} {b : Bool}
    (h : .evaluated line b ∈ items.events outcome []) :
    ∃ gs, (line, gs) ∈ items.conditions outcome ∧ ∀ g ∈ gs, g.selected = some g.branch := by
  obtain ⟨⟨occ, gs⟩, hmem, hx⟩ := List.mem_filterMap.mp h
  cases occ with
  | text t => simp [Occurrence.event] at hx
  | condition line' i sel =>
      simp only [Occurrence.event] at hx
      split at hx
      · rename_i hgs
        simp only [Option.some.injEq, Event.evaluated.injEq] at hx
        refine ⟨gs, List.mem_filterMap.mpr ⟨_, hmem, by rw [hx.1]⟩, fun g hg => ?_⟩
        have hall := (Bool.and_eq_true _ _).mp hgs
        simpa [Enclosing.inSelected] using List.all_eq_true.mp hall.1 g hg
      · simp at hx

end Swig.Preprocessor
