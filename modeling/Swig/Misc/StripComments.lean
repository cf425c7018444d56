import Swig.DOH.CType
import Mathlib.Data.List.Infix

/-!
`Swig_strip_c_comments` (`misc.c`), which takes the C comments out of a text.
-/

namespace Swig.Misc

/-! ### The function -/

/-- The loop up to the beginning of a comment: the text before it, and the text behind
its asterisk. -/
def commentBegin : List Byte → Option (List Byte × List Byte)
  | [] => none
  | c :: s =>
      if c = chr '/' then
        match s with
        | [] => none
        | d :: s => if d = chr '*' then some ([], s) else (commentBegin s).map fun r => (c :: d :: r.1, r.2)
      else (commentBegin s).map fun r => (c :: r.1, r.2)

/-- The loop inside a comment: the text behind its end. -/
def commentEnd : List Byte → Option (List Byte)
  | [] => none
  | c :: s =>
      if c = chr '*' then
        match s with
        | [] => none
        | d :: s => if d = chr '/' then some s else none
      else commentEnd s

/-- The text without the comment that was found. -/
def strippedOnce (s : List Byte) : Option (List Byte) :=
  (commentBegin s).bind fun r => (commentEnd r.2).map (r.1 ++ ·)

/-- The loop over `stripmore`, of at most as many rounds as the number says. -/
def stripmoreLoop (strip : List Byte → Option (List Byte)) : ℕ → List Byte → List Byte
  | 0, s => s
  | n + 1, s =>
      match strip s with
      | none => s
      | some t => stripmoreLoop strip n t

/-- The function, with the depth of its recursion. -/
def stripRounds : ℕ → List Byte → Option (List Byte)
  | 0, _ => none
  | n + 1, s => (strippedOnce s).map (stripmoreLoop (stripRounds n) (n + 1))

/-- `Swig_strip_c_comments`, on the bytes of a C string: `none` is a null pointer. -/
def stripCComments (s : List Byte) : Option (List Byte) := stripRounds (s.length + 1) s

/-! ### The text without its comments -/

/-- How far it is behind the end of a comment. -/
def closeLength : List Byte → Option ℕ
  | [] => none
  | c :: s => if c = chr '*' ∧ s.head? = some (chr '/') then some 2 else (closeLength s).map (· + 1)

/-- The length of the comment a text begins with. -/
def commentLength : List Byte → Option ℕ
  | c :: d :: s => if c = chr '/' ∧ d = chr '*' then (closeLength s).map (· + 2) else none
  | _ => none

/-- The text without its comments; the bytes counted by `k` belong to a comment. -/
def removeFrom : ℕ → List Byte → List Byte
  | _, [] => []
  | k + 1, _ :: s => removeFrom k s
  | 0, c :: s =>
      match commentLength (c :: s) with
      | some n => removeFrom (n - 1) s
      | none => c :: removeFrom 0 s

def removeComments (s : List Byte) : List Byte := removeFrom 0 s

/-- Somewhere in the text, there is a whole comment. -/
def hasComment (s : List Byte) : Bool := s.tails.any fun t => (commentLength t).isSome

/-- The comments are stripped, and there is no result if there is none. -/
def StripsComments (s : List Byte) : Prop :=
  stripCComments s = if hasComment s then some (removeComments s) else none

/-- No comment holds an asterisk, and the number of slashes that stand directly before a
comment is even, not counting the comments between them. `odd` says that the number of
slashes before the text is odd. -/
def cleanFrom : Bool → ℕ → List Byte → Bool
  | _, _, [] => true
  | odd, k + 1, _ :: s => cleanFrom odd k s
  | odd, 0, c :: s =>
      match commentLength (c :: s) with
      | some n => !odd && ((c :: s).take n).count (chr '*') == 2 && cleanFrom false (n - 1) s
      | none => cleanFrom (c == chr '/' && !odd) 0 s

def clean (s : List Byte) : Bool := cleanFrom false 0 s

/-! ### One pass over the text

What the function gives by its recursion is what a single pass gives. -/

/-- The text without the comments that the function finds; `k` bytes are passed over. -/
def passFrom : ℕ → List Byte → List Byte
  | _, [] => []
  | k + 1, _ :: s => passFrom k s
  | 0, [c] => [c]
  | 0, c :: d :: s =>
      if c = chr '/' then
        if d = chr '*' then
          match commentEnd s with
          | some r => passFrom (s.length - r.length + 1) (d :: s)
          | none => c :: d :: s
        else c :: d :: passFrom 0 s
      else c :: passFrom 0 (d :: s)

def pass (s : List Byte) : List Byte := passFrom 0 s

variable {c d : Byte} {s u v r t w x : List Byte} {k n : ℕ}

theorem passFrom_eq (k : ℕ) (s : List Byte) : passFrom k s = pass (s.drop k) := by
  induction k generalizing s with
  | zero => rfl
  | succ k ih =>
      cases s with
      | nil => rfl
      | cons c s => exact ih s

theorem commentEnd_suffix (h : commentEnd s = some r) : ∃ b, s = b ++ chr '*' :: chr '/' :: r ∧ chr '*' ∉ b := by
  induction s with
  | nil => cases h
  | cons c s ih =>
      rw [commentEnd.eq_def] at h
      dsimp only at h
      split at h
      · next hc =>
          split at h
          · cases h
          · next d s =>
              split at h
              · next hd =>
                  cases h
                  exact ⟨[], by rw [hc, hd]; rfl, nofun⟩
              · cases h
      · next hc =>
          obtain ⟨b, rfl, hb⟩ := ih h
          exact ⟨c :: b, rfl, fun hmem => (List.mem_cons.mp hmem).elim (fun h => hc h.symm) hb⟩

theorem pass_cons (hc : c ≠ chr '/') (s : List Byte) : pass (c :: s) = c :: pass s := by
  cases s with
  | nil => rfl
  | cons d s => exact if_neg hc

theorem pass_slash (hd : d ≠ chr '*') (s : List Byte) : pass (chr '/' :: d :: s) = chr '/' :: d :: pass s := by
  rw [pass, passFrom, if_pos rfl, if_neg hd, pass]

theorem pass_comment (h : commentEnd s = some r) : pass (chr '/' :: chr '*' :: s) = pass r := by
  obtain ⟨b, rfl, -⟩ := commentEnd_suffix h
  rw [pass, passFrom, if_pos rfl, if_pos rfl, h]
  dsimp only
  rw [passFrom_eq]
  congr 1
  rw [List.length_append, List.length_cons, List.length_cons,
    show b.length + (r.length + 1 + 1) - r.length + 1 = (b.length + 2) + 1 by omega, List.drop_succ_cons,
    List.drop_append]
  simp

theorem pass_open (h : commentEnd s = none) : pass (chr '/' :: chr '*' :: s) = chr '/' :: chr '*' :: s := by
  rw [pass, passFrom, if_pos rfl, if_pos rfl, h]

/-- A text that the search for a comment passes over. -/
inductive Passed : List Byte → Prop
  | nil : Passed []
  | plain {c : Byte} {s : List Byte} (hc : c ≠ chr '/') (h : Passed s) : Passed (c :: s)
  | pair {d : Byte} {s : List Byte} (hd : d ≠ chr '*') (h : Passed s) : Passed (chr '/' :: d :: s)

theorem Passed.pass_append (h : Passed u) (s : List Byte) : pass (u ++ s) = u ++ pass s := by
  induction h with
  | nil => rfl
  | plain hc _ ih => rw [List.cons_append, pass_cons hc, ih, List.cons_append]
  | pair hd _ ih => rw [List.cons_append, List.cons_append, pass_slash hd, ih, List.cons_append, List.cons_append]

theorem Passed.commentBegin_append (h : Passed u) (s : List Byte) :
    commentBegin (u ++ s) = (commentBegin s).map fun r => (u ++ r.1, r.2) := by
  induction h with
  | nil => simp
  | plain hc _ ih =>
      rw [List.cons_append, commentBegin.eq_def]
      dsimp only
      rw [if_neg hc, ih, Option.map_map]
      rfl
  | pair hd _ ih =>
      rw [List.cons_append, List.cons_append, commentBegin.eq_def]
      dsimp only
      rw [if_pos rfl, if_neg hd, ih, Option.map_map]
      rfl

theorem Passed.strippedOnce_append (h : Passed u) (s : List Byte) :
    strippedOnce (u ++ s) = (strippedOnce s).map (u ++ ·) := by
  rw [strippedOnce, strippedOnce, h.commentBegin_append]
  cases commentBegin s with
  | none => rfl
  | some r =>
      simp only [Option.map_some, Option.bind_some, Option.map_map]
      congr 1
      funext t
      exact List.append_assoc ..

/-- The search finds the first comment behind a text that it passes over. -/
theorem commentBegin_eq_some {q : List Byte × List Byte} (h : commentBegin s = some q) :
    Passed q.1 ∧ s = q.1 ++ chr '/' :: chr '*' :: q.2 := by
  fun_induction commentBegin s generalizing q with
  | case1 => cases h
  | case2 => cases h
  | case3 _ => 
      cases h
      exact ⟨.nil, rfl⟩
  | case4 d s hd ih =>
      obtain ⟨p, hp, rfl⟩ := Option.map_eq_some_iff.mp h
      obtain ⟨hpass, rfl⟩ := ih hp
      exact ⟨.pair hd hpass, rfl⟩
  | case5 c s hc ih =>
      obtain ⟨p, hp, rfl⟩ := Option.map_eq_some_iff.mp h
      obtain ⟨hpass, rfl⟩ := ih hp
      exact ⟨.plain hc hpass, rfl⟩

theorem pass_of_commentBegin (h : commentBegin s = none) : pass s = s := by
  fun_induction commentBegin s with
  | case1 => rfl
  | case2 => rfl
  | case3 => cases h
  | case4 d s hd ih => rw [pass_slash hd, ih (Option.map_eq_none_iff.mp h)]
  | case5 c s hc ih => rw [pass_cons hc, ih (Option.map_eq_none_iff.mp h)]

/-- Stripping once takes the first comment out. -/
theorem strippedOnce_eq_some (h : strippedOnce s = some t) :
    ∃ u v r, Passed u ∧ s = u ++ chr '/' :: chr '*' :: v ∧ commentEnd v = some r ∧ t = u ++ r := by
  obtain ⟨q, hq, ht⟩ := Option.bind_eq_some_iff.mp h
  obtain ⟨r, hr, rfl⟩ := Option.map_eq_some_iff.mp ht
  obtain ⟨hpass, hs⟩ := commentBegin_eq_some hq
  exact ⟨q.1, q.2, r, hpass, hs, hr, rfl⟩

theorem pass_of_strippedOnce (h : strippedOnce s = none) : pass s = s := by
  rw [strippedOnce] at h
  cases hq : commentBegin s with
  | none => exact pass_of_commentBegin hq
  | some q =>
      rw [hq, Option.bind_some] at h
      obtain ⟨hpass, hs⟩ := commentBegin_eq_some hq
      rw [hs, hpass.pass_append, pass_open (Option.map_eq_none_iff.mp h)]

theorem pass_strippedOnce (h : strippedOnce s = some t) : pass t = pass s ∧ t.length < s.length := by
  obtain ⟨u, v, r, hpass, rfl, hr, rfl⟩ := strippedOnce_eq_some h
  obtain ⟨b, rfl, -⟩ := commentEnd_suffix hr
  refine ⟨by rw [hpass.pass_append, hpass.pass_append, pass_comment hr], ?_⟩
  simp only [List.length_append, List.length_cons]
  omega

/-- No comment is found in the result of the pass. -/
theorem strippedOnce_pass (s : List Byte) : strippedOnce (pass s) = none := by
  obtain ⟨n, hn⟩ : ∃ n, s.length < n := ⟨_, Nat.lt_succ_self _⟩
  induction n generalizing s with
  | zero => exact absurd hn (Nat.not_lt_zero _)
  | succ n ih =>
      cases h : strippedOnce s with
      | none => rwa [pass_of_strippedOnce h]
      | some t =>
          obtain ⟨u, v, r, hpass, rfl, hr, rfl⟩ := strippedOnce_eq_some h
          obtain ⟨b, rfl, -⟩ := commentEnd_suffix hr
          rw [hpass.pass_append, pass_comment hr, hpass.strippedOnce_append, ih r, Option.map_none]
          simp only [List.length_append, List.length_cons] at hn
          omega

theorem length_pass_le (s : List Byte) : (pass s).length ≤ s.length := by
  obtain ⟨n, hn⟩ : ∃ n, s.length < n := ⟨_, Nat.lt_succ_self _⟩
  induction n generalizing s with
  | zero => exact absurd hn (Nat.not_lt_zero _)
  | succ n ih =>
      cases h : strippedOnce s with
      | none => rw [pass_of_strippedOnce h]
      | some t =>
          obtain ⟨hpass, hlen⟩ := pass_strippedOnce h
          rw [← hpass]
          exact (ih t (by omega)).trans hlen.le

/-- The recursion is deep enough. -/
theorem stripRounds_eq (hn : s.length < n) :
    stripRounds n s = if strippedOnce s = none then none else some (pass s) := by
  induction n generalizing s with
  | zero => exact absurd hn (Nat.not_lt_zero _)
  | succ n ih =>
      rw [stripRounds]
      cases h : strippedOnce s with
      | none => rfl
      | some t =>
          obtain ⟨hpass, hlen⟩ := pass_strippedOnce h
          rw [Option.map_some, if_neg nofun, stripmoreLoop, ih (by omega), ← hpass]
          split
          · next hnone =>
              split at hnone
              · next ht => rw [pass_of_strippedOnce ht]
              · cases hnone
          · next r hr =>
              split at hr
              · cases hr
              · cases hr
                cases n with
                | zero => rfl
                | succ n =>
                    have hle := length_pass_le t
                    rw [stripmoreLoop, ih (by omega), if_pos (strippedOnce_pass t)]

theorem stripCComments_eq (s : List Byte) :
    stripCComments s = if strippedOnce s = none then none else some (pass s) := stripRounds_eq (Nat.lt_succ_self _)

/-! ### What is left without the comments -/

/-- The comment that is open in `s` ends before `r`. -/
def Closes (s r : List Byte) : Prop := ∃ n, closeLength s = some n ∧ s.drop n = r

theorem closes_cons (hc : ¬ (c = chr '*' ∧ s.head? = some (chr '/'))) : Closes (c :: s) r ↔ Closes s r := by
  rw [Closes, closeLength, if_neg hc]
  constructor
  · rintro ⟨n, hn, hr⟩
    obtain ⟨m, hm, rfl⟩ := Option.map_eq_some_iff.mp hn
    exact ⟨m, hm, hr⟩
  · rintro ⟨n, hn, hr⟩
    exact ⟨n + 1, by rw [hn]; rfl, hr⟩

theorem closes_end : Closes (chr '*' :: chr '/' :: s) r ↔ s = r := by
  rw [Closes, closeLength, if_pos ⟨rfl, rfl⟩]
  constructor
  · rintro ⟨n, hn, hr⟩
    cases hn
    exact hr
  · rintro rfl
    exact ⟨2, rfl, rfl⟩

theorem closes_append (hx : chr '*' ∉ x) : Closes (x ++ s) r ↔ Closes s r := by
  induction x with
  | nil => rfl
  | cons c x ih =>
      rw [List.mem_cons, not_or] at hx
      rw [List.cons_append, closes_cons fun h => hx.1 h.1.symm, ih hx.2]

theorem Closes.unique (h : Closes s r) (h' : Closes s t) : r = t := by
  obtain ⟨n, hn, rfl⟩ := h
  obtain ⟨m, hm, rfl⟩ := h'
  rw [hn] at hm
  cases hm
  rfl

theorem closeLength_le (h : closeLength s = some n) : n ≤ s.length ∧ 2 ≤ n := by
  induction s generalizing n with
  | nil => cases h
  | cons c s ih =>
      rw [closeLength] at h
      split at h
      · next hc =>
          cases h
          cases s with
          | nil => cases hc.2
          | cons d s => exact ⟨by rw [List.length_cons, List.length_cons]; omega, le_rfl⟩
      · obtain ⟨m, hm, rfl⟩ := Option.map_eq_some_iff.mp h
        obtain ⟨hle, hge⟩ := ih hm
        exact ⟨Nat.succ_le_succ hle, by omega⟩

theorem Closes.length_lt (h : Closes s r) : r.length < s.length := by
  obtain ⟨n, hn, rfl⟩ := h
  obtain ⟨hle, hge⟩ := closeLength_le hn
  rw [List.length_drop]
  omega

theorem Closes.exists_of_ne_none (h : closeLength s ≠ none) : ∃ r, Closes s r := by
  obtain ⟨n, hn⟩ := Option.ne_none_iff_exists'.mp h
  exact ⟨_, n, hn, rfl⟩

theorem Closes.count_lt (h : Closes s r) : r.count (chr '*') < s.count (chr '*') := by
  induction s with
  | nil =>
      obtain ⟨n, hn, -⟩ := h
      cases hn
  | cons c s ih =>
      by_cases hc : c = chr '*' ∧ s.head? = some (chr '/')
      · obtain ⟨rfl, hhead⟩ := hc
        cases s with
        | nil => cases hhead
        | cons d s =>
            cases hhead
            obtain rfl := closes_end.mp h
            rw [List.count_cons_self]
            exact Nat.lt_succ_of_le (List.count_le_count_cons ..)
      · have := ih ((closes_cons hc).mp h)
        rw [List.count_cons]
        omega

theorem removeFrom_eq (k : ℕ) (s : List Byte) : removeFrom k s = removeComments (s.drop k) := by
  induction k generalizing s with
  | zero => rfl
  | succ k ih =>
      cases s with
      | nil => rfl
      | cons c s => exact ih s

theorem cleanFrom_eq (odd : Bool) (k : ℕ) (s : List Byte) : cleanFrom odd k s = cleanFrom odd 0 (s.drop k) := by
  induction k generalizing s with
  | zero => rfl
  | succ k ih =>
      cases s with
      | nil => cases odd <;> rfl
      | cons c s => exact ih s

theorem commentLength_of_closes (h : Closes s r) :
    ∃ n, commentLength (chr '/' :: chr '*' :: s) = some (n + 2) ∧ s.drop n = r ∧ closeLength s = some n := by
  obtain ⟨n, hn, hr⟩ := h
  refine ⟨n, ?_, hr, hn⟩
  rw [commentLength, if_pos ⟨rfl, rfl⟩, hn]
  rfl

/-- No comment begins at a byte, unless the byte and the next one open it. -/
theorem commentLength_eq_none (h : c = chr '/' → ∀ u, s = chr '*' :: u → closeLength u = none) :
    commentLength (c :: s) = none := by
  cases s with
  | nil => rfl
  | cons d s =>
      rw [commentLength]
      split
      · next hc =>
          rw [h hc.1 s (by rw [hc.2])]
          rfl
      · rfl

theorem removeComments_cons (h : commentLength (c :: s) = none) : removeComments (c :: s) = c :: removeComments s := by
  rw [removeComments, removeFrom, h]
  rfl

theorem removeComments_comment (h : Closes s r) : removeComments (chr '/' :: chr '*' :: s) = removeComments r := by
  obtain ⟨n, hn, rfl, -⟩ := commentLength_of_closes h
  rw [removeComments, removeFrom, hn]
  dsimp only
  rw [removeFrom_eq, show n + 2 - 1 = n + 1 from rfl, List.drop_succ_cons]

/-- No comment begins in `x`, also if it goes on behind it. -/
def Outside (x s : List Byte) : Prop :=
  chr '*' ∉ x ∧ (x.getLast? = some (chr '/') → ∀ u, s = chr '*' :: u → closeLength u = none)

theorem Outside.commentLength_head (h : Outside (c :: x) s) : commentLength (c :: (x ++ s)) = none := by
  refine commentLength_eq_none fun hc u hu => ?_
  cases x with
  | nil => exact h.2 (by rw [hc]; rfl) u hu
  | cons d x => exact absurd (List.cons.inj hu).1 fun hd => h.1 (by simp [hd])

theorem Outside.tail (h : Outside (c :: x) s) : Outside x s := by
  refine ⟨fun hmem => h.1 (List.mem_cons_of_mem _ hmem), fun hlast => h.2 ?_⟩
  cases x with
  | nil => cases hlast
  | cons d x => rwa [List.getLast?_cons_cons]

theorem Outside.removeComments_append (h : Outside x s) : removeComments (x ++ s) = x ++ removeComments s := by
  induction x with
  | nil => rfl
  | cons c x ih => rw [List.cons_append, removeComments_cons h.commentLength_head, ih h.tail, List.cons_append]

/-- Whether the number of slashes at the end is odd, from an odd number on or not. -/
def oddSlashes (odd : Bool) (x : List Byte) : Bool := x.foldl (fun odd c => c == chr '/' && !odd) odd

theorem Outside.cleanFrom_append (h : Outside x s) (odd : Bool) :
    cleanFrom odd 0 (x ++ s) = cleanFrom (oddSlashes odd x) 0 s := by
  induction x generalizing odd with
  | nil => rfl
  | cons c x ih =>
      rw [List.cons_append, cleanFrom, h.commentLength_head]
      exact ih h.tail _

theorem cleanFrom_comment (h : Closes s r) (odd : Bool) : cleanFrom odd 0 (chr '/' :: chr '*' :: s) =
    (!odd && s.count (chr '*') == r.count (chr '*') + 1 && clean r) := by
  obtain ⟨n, hn, rfl, hclose⟩ := commentLength_of_closes h
  have hle := (closeLength_le hclose).1
  have hsplit : s.count (chr '*') = (s.take n).count (chr '*') + (s.drop n).count (chr '*') := by
    rw [← List.count_append, List.take_append_drop]
  have hslash : chr '/' ≠ chr '*' := by decide
  have htake : ((chr '/' :: chr '*' :: s).take (n + 2)).count (chr '*') = (s.take n).count (chr '*') + 1 := by
    rw [List.take_succ_cons, List.take_succ_cons, List.count_cons_of_ne hslash, List.count_cons_self]
  have hcount : (((chr '/' :: chr '*' :: s).take (n + 2)).count (chr '*') == 2) =
      (s.count (chr '*') == (s.drop n).count (chr '*') + 1) := by
    rw [htake, hsplit, Bool.eq_iff_iff, beq_iff_eq, beq_iff_eq]
    omega
  rw [cleanFrom, hn]
  dsimp only
  rw [hcount, cleanFrom_eq, show n + 2 - 1 = n + 1 from rfl, List.drop_succ_cons, clean]

/-! ### Up to the first asterisk

A text without asterisks is passed over up to a slash at its end that is not the second of a
pair. -/

/-- No asterisk, and an even number of slashes at the end. -/
def Even (x : List Byte) : Prop := chr '*' ∉ x ∧ oddSlashes false x = false

theorem oddSlashes_append (odd : Bool) (x y : List Byte) :
    oddSlashes odd (x ++ y) = oddSlashes (oddSlashes odd x) y := List.foldl_append ..

theorem even_nil : Even [] := ⟨List.not_mem_nil, rfl⟩

theorem Even.append {y : List Byte} (hx : Even x) (hy : Even y) : Even (x ++ y) :=
  ⟨fun h => (List.mem_append.mp h).elim hx.1 hy.1, by rw [oddSlashes_append, hx.2, hy.2]⟩

/-- Behind an even text there is a slash, or nothing. -/
theorem even_or (hx : chr '*' ∉ x) : Even x ∨ ∃ y, Even y ∧ x = y ++ [chr '/'] := by
  by_cases hodd : oddSlashes false x = false
  · exact .inl ⟨hx, hodd⟩
  · right
    rcases List.eq_nil_or_concat' x with rfl | ⟨y, c, rfl⟩
    · exact absurd rfl hodd
    · rw [oddSlashes_append, Bool.not_eq_false] at hodd
      simp only [oddSlashes, List.foldl_cons, List.foldl_nil, Bool.and_eq_true, beq_iff_eq, Bool.not_eq_true'] at hodd
      exact ⟨y, ⟨fun h => hx (List.mem_append_left _ h), hodd.2⟩, by rw [hodd.1]⟩

theorem Even.passed (hx : Even x) : Passed x := by
  obtain ⟨n, hn⟩ : ∃ n, x.length < n := ⟨_, Nat.lt_succ_self _⟩
  induction n generalizing x with
  | zero => exact absurd hn (Nat.not_lt_zero _)
  | succ n ih =>
      cases x with
      | nil => exact .nil
      | cons c x =>
          by_cases hc : c = chr '/'
          · subst hc
            cases x with
            | nil => exact absurd hx.2 (by decide)
            | cons d x =>
                have hd : d ≠ chr '*' := fun h => hx.1 (by simp [h])
                have hrest : oddSlashes false (chr '/' :: d :: x) = oddSlashes false x := by
                  simp [oddSlashes]
                refine .pair hd (ih ⟨fun h => hx.1 (by simp [h]), hrest ▸ hx.2⟩ ?_)
                rw [List.length_cons, List.length_cons] at hn
                omega
          · have hrest : oddSlashes false (c :: x) = oddSlashes false x := by
              rw [oddSlashes, List.foldl_cons, beq_false_of_ne hc]
              rfl
            exact .plain hc (ih ⟨fun h => hx.1 (List.mem_cons_of_mem _ h), hrest ▸ hx.2⟩ (Nat.lt_of_succ_lt_succ hn))

/-- The texts in front of the first asterisk. -/
theorem exists_star (s : List Byte) : chr '*' ∉ s ∨ ∃ x w, chr '*' ∉ x ∧ s = x ++ chr '*' :: w := by
  by_cases h : chr '*' ∈ s
  · obtain ⟨x, w, rfl, hx⟩ := List.eq_append_cons_of_mem h
    exact .inr ⟨x, w, hx, rfl⟩
  · exact .inl h

theorem commentEnd_append (hx : chr '*' ∉ x) : commentEnd (x ++ s) = commentEnd s := by
  induction x with
  | nil => rfl
  | cons c x ih =>
      rw [List.mem_cons, not_or] at hx
      rw [List.cons_append, commentEnd.eq_def]
      dsimp only
      rw [if_neg fun h => hx.1 h.symm, ih hx.2]

theorem commentEnd_closes (h : commentEnd s = some r) : Closes s r := by
  obtain ⟨b, rfl, hb⟩ := commentEnd_suffix h
  exact (closes_append hb).mpr (closes_end.mpr rfl)

/-- A comment without an asterisk in it is one for the function too. -/
theorem commentEnd_of_count (h : Closes s r) (hcount : s.count (chr '*') = r.count (chr '*') + 1) :
    commentEnd s = some r := by
  induction s with
  | nil =>
      obtain ⟨n, hn, -⟩ := h
      cases hn
  | cons c s ih =>
      rw [commentEnd.eq_def]
      dsimp only
      by_cases hc : c = chr '*'
      · subst hc
        rw [if_pos rfl]
        by_cases hhead : s.head? = some (chr '/')
        · cases s with
          | nil => cases hhead
          | cons d s =>
              cases hhead
              rw [closes_end.mp h]
              exact if_pos rfl
        · have hlt := ((closes_cons fun h => hhead h.2).mp h).count_lt
          rw [List.count_cons_self] at hcount
          omega
      · rw [if_neg hc]
        refine ih ((closes_cons fun h => hc h.1).mp h) ?_
        rwa [List.count_cons_of_ne hc] at hcount

theorem pass_of_notMem (hx : chr '*' ∉ x) : pass x = x := by
  rcases even_or hx with heven | ⟨y, heven, rfl⟩
  · rw [← List.append_nil x, heven.passed.pass_append]
    rfl
  · rw [heven.passed.pass_append]
    rfl

theorem outside_of_notMem (hx : chr '*' ∉ x) : Outside x [] := ⟨hx, fun _ _ h => nomatch h⟩

theorem removeComments_of_notMem (hx : chr '*' ∉ x) : removeComments x = x := by
  have h := (outside_of_notMem hx).removeComments_append
  rwa [List.append_nil, show removeComments [] = [] from rfl, List.append_nil] at h

theorem clean_of_notMem (hx : chr '*' ∉ x) : clean x = true := by
  have h := (outside_of_notMem hx).cleanFrom_append false
  rw [List.append_nil] at h
  exact h.trans (by cases oddSlashes false x <;> rfl)

theorem pass_star (s : List Byte) : pass (chr '*' :: s) = chr '*' :: pass s := pass_cons (by decide) s

theorem removeComments_star (s : List Byte) : removeComments (chr '*' :: s) = chr '*' :: removeComments s :=
  removeComments_cons (commentLength_eq_none fun h => absurd h (by decide))

theorem cleanFrom_star (odd : Bool) (s : List Byte) : cleanFrom odd 0 (chr '*' :: s) = clean s := by
  rw [cleanFrom, commentLength_eq_none fun h => absurd h (by decide)]
  rfl

/-- Without an end of a comment, there is none. -/
theorem removeComments_of_close (h : closeLength s = none) :
    removeComments s = s ∧ ∀ odd, cleanFrom odd 0 s = true := by
  induction s with
  | nil => exact ⟨rfl, fun odd => by cases odd <;> rfl⟩
  | cons c s ih =>
      have hrest {c : Byte} {s : List Byte} (h : closeLength (c :: s) = none) : closeLength s = none := by
        rw [closeLength] at h
        split at h
        · cases h
        · exact Option.map_eq_none_iff.mp h
      have hnone : commentLength (c :: s) = none :=
        commentLength_eq_none fun _ u hu => hrest (hu ▸ hrest h)
      obtain ⟨hremove, hclean⟩ := ih (hrest h)
      refine ⟨by rw [removeComments_cons hnone, hremove], fun odd => ?_⟩
      rw [cleanFrom, hnone]
      exact hclean _

theorem Even.pass_star (hx : Even x) (w : List Byte) : pass (x ++ chr '*' :: w) = x ++ chr '*' :: pass w := by
  rw [hx.passed.pass_append, Misc.pass_star]

theorem Even.pass_found (hx : Even x) (h : commentEnd w = some r) :
    pass (x ++ chr '/' :: chr '*' :: w) = x ++ pass r := by
  rw [hx.passed.pass_append, pass_comment h]

theorem Even.pass_kept (hx : Even x) (h : commentEnd w = none) :
    pass (x ++ chr '/' :: chr '*' :: w) = x ++ chr '/' :: chr '*' :: w := by
  rw [hx.passed.pass_append, pass_open h]

theorem Outside.removeComments_star (h : Outside x (chr '*' :: w)) :
    removeComments (x ++ chr '*' :: w) = x ++ chr '*' :: removeComments w := by
  rw [h.removeComments_append, Misc.removeComments_star]

theorem Outside.clean_star (h : Outside x (chr '*' :: w)) : clean (x ++ chr '*' :: w) = clean w := by
  rw [clean, h.cleanFrom_append, cleanFrom_star]

theorem Closes.outside (hx : chr '*' ∉ x) (s : List Byte) : Outside x (chr '/' :: s) :=
  ⟨hx, fun _ _ h => absurd (List.cons.inj h).1 (by decide)⟩

theorem Closes.removeComments_append (h : Closes w r) (hx : chr '*' ∉ x) :
    removeComments (x ++ chr '/' :: chr '*' :: w) = x ++ removeComments r := by
  rw [(Closes.outside hx _).removeComments_append, removeComments_comment h]

theorem Closes.clean_append (h : Closes w r) (hx : chr '*' ∉ x) : clean (x ++ chr '/' :: chr '*' :: w) =
    (!oddSlashes false x && w.count (chr '*') == r.count (chr '*') + 1 && clean r) := by
  rw [clean, (Closes.outside hx _).cleanFrom_append, cleanFrom_comment h]

/-- How a text goes on at its first asterisk. `x` is the text before it, and before the slash
of a comment. -/
inductive Shape : List Byte → Prop
  | free {x : List Byte} (hx : chr '*' ∉ x) : Shape x
  /-- No comment begins here. -/
  | plain {x w : List Byte} (hx : Even x) (hout : Outside x (chr '*' :: w)) : Shape (x ++ chr '*' :: w)
  /-- The slash is the second of a pair. -/
  | missed {x w r : List Byte} (hx : Even (x ++ [chr '/'])) (h : Closes w r) : Shape (x ++ chr '/' :: chr '*' :: w)
  /-- A comment without an asterisk in it. -/
  | found {x w r : List Byte} (hx : Even x) (h : commentEnd w = some r) : Shape (x ++ chr '/' :: chr '*' :: w)
  /-- A comment that begins with no such one. -/
  | kept {x w r : List Byte} (hx : Even x) (hend : commentEnd w = none) (h : Closes w r) :
      Shape (x ++ chr '/' :: chr '*' :: w)
  /-- A comment that does not end. -/
  | opened {x w : List Byte} (hx : Even x) (h : closeLength w = none) : Shape (x ++ chr '/' :: chr '*' :: w)

theorem exists_closes (h : closeLength w ≠ none) : ∃ r, Closes w r := by
  obtain ⟨n, hn⟩ := Option.ne_none_iff_exists'.mp h
  exact ⟨_, n, hn, rfl⟩

theorem shape (s : List Byte) : Shape s := by
  rcases exists_star s with hx | ⟨x, w, hx, rfl⟩
  · exact .free hx
  · rcases even_or hx with heven | ⟨y, heven, rfl⟩
    · by_cases hlast : x.getLast? = some (chr '/')
      · obtain ⟨y, rfl⟩ := List.getLast?_eq_some_iff.mp hlast
        by_cases hclose : closeLength w = none
        · exact .plain heven ⟨hx, fun _ u hu => by cases hu; exact hclose⟩
        · obtain ⟨r, hr⟩ := exists_closes hclose
          rw [List.append_assoc, List.singleton_append]
          exact .missed heven hr
      · exact .plain heven ⟨hx, fun h => absurd h hlast⟩
    · rw [List.append_assoc, List.singleton_append]
      cases hend : commentEnd w with
      | some r => exact .found heven hend
      | none =>
          by_cases hclose : closeLength w = none
          · exact .opened heven hclose
          · obtain ⟨r, hr⟩ := exists_closes hclose
            exact .kept heven hend hr

theorem oddSlashes_of_even (hx : Even (x ++ [chr '/'])) : oddSlashes false x = true := by
  have h := hx.2
  rw [oddSlashes_append] at h
  simpa [oddSlashes] using h

/-- A comment that does not end is kept. -/
theorem opened_eq (hx : Even x) (h : closeLength w = none) :
    removeComments (x ++ chr '/' :: chr '*' :: w) = x ++ chr '/' :: chr '*' :: w ∧
      clean (x ++ chr '/' :: chr '*' :: w) = true := by
  have hout : Outside (x ++ [chr '/']) (chr '*' :: w) :=
    ⟨fun hmem => (List.mem_append.mp hmem).elim hx.1 (by decide), fun _ u hu => by cases hu; exact h⟩
  obtain ⟨hremove, hclean⟩ := removeComments_of_close h
  have hs : x ++ chr '/' :: chr '*' :: w = (x ++ [chr '/']) ++ chr '*' :: w := by
    rw [List.append_assoc, List.singleton_append]
  rw [hs, hout.removeComments_star, hremove, hout.clean_star]
  exact ⟨rfl, hclean false⟩

theorem commentEnd_of_close (h : closeLength w = none) : commentEnd w = none := by
  refine Option.eq_none_iff_forall_ne_some.mpr fun r hr => ?_
  obtain ⟨n, hn, -⟩ := commentEnd_closes hr
  rw [h] at hn
  cases hn

/-- Of a clean text, the function takes out what it should. -/
theorem pass_of_clean (h : clean s = true) : pass s = removeComments s := by
  obtain ⟨n, hn⟩ : ∃ n, s.length < n := ⟨_, Nat.lt_succ_self _⟩
  induction n generalizing s with
  | zero => exact absurd hn (Nat.not_lt_zero _)
  | succ n ih =>
      cases shape s with
      | free hx => rw [pass_of_notMem hx, removeComments_of_notMem hx]
      | @plain x w hx hout =>
          rw [hout.clean_star] at h
          rw [hx.pass_star, hout.removeComments_star, ih h]
          rw [List.length_append, List.length_cons] at hn
          omega
      | @missed x w r hx hr =>
          have hmem : chr '*' ∉ x := fun hmem => hx.1 (List.mem_append_left _ hmem)
          rw [hr.clean_append hmem, oddSlashes_of_even hx] at h
          cases h
      | @found x w r hx hend =>
          have hr := commentEnd_closes hend
          rw [hr.clean_append hx.1, Bool.and_eq_true] at h
          rw [hx.pass_found hend, hr.removeComments_append hx.1, ih h.2]
          have := hr.length_lt
          rw [List.length_append, List.length_cons, List.length_cons] at hn
          omega
      | @kept x w r hx hend hr =>
          rw [hr.clean_append hx.1, Bool.and_eq_true, Bool.and_eq_true, beq_iff_eq] at h
          rw [commentEnd_of_count hr h.1.2] at hend
          cases hend
      | opened hx hclose => rw [hx.pass_kept (commentEnd_of_close hclose), (opened_eq hx hclose).1]

/-! ### Where the two differ, they stay apart -/

/-- `a` has at most one asterisk more than `b`, and behind its first asterisk it does not go
on with an even text and `b`. -/
def Apart (a b : List Byte) : Prop :=
  a.count (chr '*') ≤ b.count (chr '*') + 1 ∧
    ∀ x z, chr '*' ∉ x → Even z → a ≠ x ++ chr '*' :: (z ++ b)

variable {a b : List Byte}

theorem count_of_notMem (hx : chr '*' ∉ x) (s : List Byte) : (x ++ s).count (chr '*') = s.count (chr '*') := by
  rw [List.count_append, List.count_eq_zero.mpr hx, Nat.zero_add]

theorem Apart.of_count (h : a.count (chr '*') < b.count (chr '*') + 1) : Apart a b := by
  refine ⟨h.le, fun x z hx hz heq => ?_⟩
  rw [heq, count_of_notMem hx, List.count_cons_self, count_of_notMem hz.1] at h
  exact Nat.lt_irrefl _ h

theorem Apart.before (h : Apart a b) (hx : chr '*' ∉ x) : Apart (x ++ a) b := by
  refine ⟨by rw [count_of_notMem hx]; exact h.1, fun y z hy hz heq => ?_⟩
  -- the asterisk is not in `x`
  rcases List.append_eq_append_iff.mp heq with ⟨y', rfl, hb⟩ | ⟨x', rfl, hb⟩
  · exact h.2 y' z (fun hmem => hy (List.mem_append_right _ hmem)) hz hb
  · cases x' with
    | nil => exact h.2 [] z List.not_mem_nil hz hb.symm
    | cons c x' =>
        obtain ⟨rfl, -⟩ := List.cons.inj hb
        exact hx (by simp)

theorem Apart.behind (h : Apart a b) (hx : Even x) : Apart a (x ++ b) := by
  refine ⟨by rw [count_of_notMem hx.1]; exact h.1, fun y z hy hz heq => ?_⟩
  rw [← List.append_assoc] at heq
  exact h.2 y (z ++ x) hy (hz.append hx) heq

/-- Where `a` begins with an asterisk, the even text has to be in it. -/
theorem Apart.star (h : Apart a b) (hx : Even x) : Apart (chr '*' :: a) (x ++ chr '*' :: b) := by
  refine ⟨?_, fun y z hy hz heq => ?_⟩
  · rw [List.count_cons_self, count_of_notMem hx.1, List.count_cons_self]
    exact Nat.succ_le_succ h.1
  · cases y with
    | nil =>
        have ha := (List.cons.inj heq).2
        rw [← List.append_assoc] at ha
        exact h.2 (z ++ x) [] (hz.append hx).1 even_nil ha
    | cons c y => exact hy ((List.cons.inj heq).1 ▸ List.mem_cons_self ..)

def fromStar (s : List Byte) : List Byte := s.dropWhile (· ≠ chr '*')

theorem fromStar_append (hx : chr '*' ∉ x) (s : List Byte) : fromStar (x ++ s) = fromStar s := by
  rw [fromStar, List.dropWhile_append_of_pos]
  · rfl
  · intro c hc
    simpa using fun h : c = chr '*' => hx (h ▸ hc)

theorem fromStar_star (hx : chr '*' ∉ x) (s : List Byte) : fromStar (x ++ chr '*' :: s) = chr '*' :: s := by
  rw [fromStar_append hx, fromStar, List.dropWhile_cons_of_neg (by simp)]

theorem exists_fromStar (s : List Byte) : ∃ x, chr '*' ∉ x ∧ s = x ++ fromStar s := by
  rcases exists_star s with hx | ⟨x, w, hx, rfl⟩
  · have h := fromStar_append hx []
    rw [List.append_nil] at h
    exact ⟨s, hx, by rw [h]; exact (List.append_nil s).symm⟩
  · exact ⟨x, hx, by rw [fromStar_star hx]⟩

theorem count_fromStar (s : List Byte) : (fromStar s).count (chr '*') = s.count (chr '*') := by
  obtain ⟨x, hx, h⟩ := exists_fromStar s
  conv_rhs => rw [h, count_of_notMem hx]

theorem removeFrom_sublist (k : ℕ) (s : List Byte) : (removeFrom k s).Sublist s := by
  induction s generalizing k with
  | nil => cases k <;> exact List.Sublist.refl _
  | cons c s ih =>
      cases k with
      | zero =>
          rw [removeFrom]
          split
          · exact (ih _).cons _
          · exact (ih 0).cons_cons _
      | succ k => exact (ih k).cons _

theorem count_removeComments_le (s : List Byte) : (removeComments s).count (chr '*') ≤ s.count (chr '*') :=
  (removeFrom_sublist 0 s).count_le _

/-- What is known of the texts of less than `n` bytes. `pass` keeps at least as many asterisks
as are left, and if it agrees with what is left from the first asterisk on then the text is
clean. If they begin on both sides of the end of a comment, they do not agree. -/
structure Known (n : ℕ) : Prop where
  same : ∀ w : List Byte, w.length < n →
    (removeComments w).count (chr '*') ≤ (pass w).count (chr '*') ∧
      (fromStar (pass w) = fromStar (removeComments w) → clean w = true)
  closes : ∀ w r : List Byte, w.length < n → Closes w r → Apart (removeComments r) (pass w)
  ends : ∀ y r : List Byte, y.length + r.length + 2 < n → chr '*' ∉ y →
    Apart (removeComments (y ++ chr '*' :: chr '/' :: r)) (pass r)

namespace Known

theorem same_step (h : Known n) (hw : w.length ≤ n) :
    (removeComments w).count (chr '*') ≤ (pass w).count (chr '*') ∧
      (fromStar (pass w) = fromStar (removeComments w) → clean w = true) := by
  cases shape w with
  | free hx =>
      rw [pass_of_notMem hx, removeComments_of_notMem hx]
      exact ⟨le_rfl, fun _ => clean_of_notMem hx⟩
  | @plain x w hx hout =>
      rw [List.length_append, List.length_cons] at hw
      obtain ⟨hcount, hclean⟩ := h.same w (by omega)
      rw [hx.pass_star, hout.removeComments_star, hout.clean_star, count_of_notMem hx.1, count_of_notMem hx.1,
        List.count_cons_self, List.count_cons_self, fromStar_star hx.1, fromStar_star hx.1]
      exact ⟨Nat.succ_le_succ hcount, fun heq => hclean (by rw [(List.cons.inj heq).2])⟩
  | @missed x w r hx hr =>
      have hmem : chr '*' ∉ x := fun hmem => hx.1 (List.mem_append_left _ hmem)
      rw [List.length_append, List.length_cons, List.length_cons] at hw
      obtain ⟨hcount, happart⟩ := h.closes w r (by omega) hr
      have hpass : pass (x ++ chr '/' :: chr '*' :: w) = (x ++ [chr '/']) ++ chr '*' :: pass w := by
        rw [← hx.pass_star, List.append_assoc, List.singleton_append]
      rw [hpass, hr.removeComments_append hmem, count_of_notMem hmem, count_of_notMem hx.1, List.count_cons_self,
        fromStar_star hx.1, fromStar_append hmem]
      refine ⟨hcount, fun heq => ?_⟩
      obtain ⟨y, hy, hsplit⟩ := exists_fromStar (removeComments r)
      rw [← heq] at hsplit
      exact absurd hsplit (happart y [] hy even_nil)
  | @found x w r hx hend =>
      have hr := commentEnd_closes hend
      rw [List.length_append, List.length_cons, List.length_cons] at hw
      have hlen := hr.length_lt
      obtain ⟨hcount, hclean⟩ := h.same r (by omega)
      obtain ⟨b, rfl, hb⟩ := commentEnd_suffix hend
      rw [hx.pass_found hend, hr.removeComments_append hx.1, count_of_notMem hx.1, count_of_notMem hx.1,
        fromStar_append hx.1, fromStar_append hx.1, hr.clean_append hx.1, hx.2, count_of_notMem hb]
      refine ⟨hcount, fun heq => ?_⟩
      have hslash : chr '/' ≠ chr '*' := by decide
      rw [hclean heq, List.count_cons_self, List.count_cons_of_ne hslash]
      simp
  | @kept x w r hx hend hr =>
      have hlt : (removeComments r).count (chr '*') < (chr '/' :: chr '*' :: w).count (chr '*') := by
        have hslash : chr '/' ≠ chr '*' := by decide
        rw [List.count_cons_of_ne hslash, List.count_cons_self]
        have := hr.count_lt
        have := count_removeComments_le r
        omega
      rw [hx.pass_kept hend, hr.removeComments_append hx.1, count_of_notMem hx.1, count_of_notMem hx.1,
        fromStar_append hx.1, fromStar_append hx.1]
      refine ⟨hlt.le, fun heq => ?_⟩
      have := congrArg (List.count (chr '*')) heq
      rw [count_fromStar, count_fromStar] at this
      omega
  | opened hx hclose =>
      obtain ⟨hremove, hclean⟩ := opened_eq hx hclose
      rw [hx.pass_kept (commentEnd_of_close hclose), hremove]
      exact ⟨le_rfl, fun _ => hclean⟩

/-- Behind a slash that is not the first of a pair: `a` goes on at the end of the comment,
and `b` behind its asterisk. -/
theorem closes_step_end (h : Known n) (hx : Even x) (hw : x.length + r.length + 2 ≤ n) :
    Apart (removeComments r) (x ++ chr '*' :: pass (chr '/' :: r)) := by
  have hslash : chr '/' ≠ chr '*' := by decide
  cases r with
  | nil =>
      refine .of_count ?_
      rw [count_of_notMem hx.1, List.count_cons_self]
      exact Nat.succ_pos _
  | cons c s =>
      rw [List.length_cons] at hw
      by_cases hc : c = chr '*'
      · subst hc
        cases hend : commentEnd s with
        | some r₂ =>
            obtain ⟨y, rfl, hy⟩ := commentEnd_suffix hend
            rw [pass_comment hend, removeComments_star]
            rw [List.length_append, List.length_cons, List.length_cons] at hw
            exact (h.ends y r₂ (by omega) hy).star hx
        | none =>
            refine .of_count ?_
            rw [pass_open hend, count_of_notMem hx.1, List.count_cons_self, List.count_cons_of_ne hslash]
            have := count_removeComments_le (chr '*' :: s)
            omega
      · have hbehind : (x ++ chr '*' :: pass (chr '/' :: c :: s)).count (chr '*') = (pass s).count (chr '*') + 1 := by
          rw [pass_slash hc, count_of_notMem hx.1, List.count_cons_self, List.count_cons_of_ne hslash,
            List.count_cons_of_ne hc]
        refine .of_count ?_
        rw [hbehind]
        by_cases hopen : c = chr '/' ∧ ∃ u r₃, s = chr '*' :: u ∧ Closes u r₃
        · obtain ⟨rfl, u, r₃, rfl, hr⟩ := hopen
          rw [List.length_cons] at hw
          have := (h.closes u r₃ (by omega) hr).1
          rw [removeComments_comment hr, pass_star, List.count_cons_self]
          omega
        · have hnone : commentLength (c :: s) = none := commentLength_eq_none fun hc u hu => by
            by_contra hclose
            obtain ⟨r₃, hr⟩ := exists_closes hclose
            exact hopen ⟨hc, u, r₃, hu, hr⟩
          rw [removeComments_cons hnone, List.count_cons_of_ne hc]
          have := (h.same s (by omega)).1
          omega

theorem closes_step (h : Known n) (hw : w.length ≤ n) (hr : Closes w r) : Apart (removeComments r) (pass w) := by
  have hslash : chr '/' ≠ chr '*' := by decide
  have hcount := hr.count_lt
  have hleft := count_removeComments_le r
  rcases exists_star w with hx | ⟨x, w, hx, rfl⟩
  · rw [List.count_eq_zero.mpr hx] at hcount
    exact absurd hcount (Nat.not_lt_zero _)
  · have hstar := (closes_append hx).mp hr
    by_cases hhead : w.head? = some (chr '/')
    · -- the first asterisk belongs to the end of the comment
      obtain ⟨s, rfl⟩ : ∃ s, w = chr '/' :: s := by
        cases w with
        | nil => cases hhead
        | cons c s => exact ⟨s, by rw [Option.some.inj hhead]⟩
      obtain rfl := closes_end.mp hstar
      rw [List.length_append, List.length_cons, List.length_cons] at hw
      rcases even_or hx with heven | ⟨y, heven, rfl⟩
      · rw [heven.pass_star]
        exact h.closes_step_end heven (by omega)
      · rw [List.append_assoc, List.singleton_append]
        cases hend : commentEnd (chr '/' :: s) with
        | some r₂ =>
            rw [heven.pass_found hend]
            rw [commentEnd.eq_def] at hend
            obtain ⟨b, rfl, hb⟩ := commentEnd_suffix ((if_neg hslash).symm.trans hend)
            simp only [List.length_append, List.length_cons] at hw
            exact (h.ends b r₂ (by omega) hb).behind heven
        | none =>
            refine .of_count ?_
            rw [heven.pass_kept hend, count_of_notMem heven.1, List.count_cons_of_ne hslash, List.count_cons_self,
              List.count_cons_of_ne hslash]
            omega
    · have hclose := (closes_cons fun hc => hhead hc.2).mp hstar
      have hlt := hclose.count_lt
      rw [List.length_append, List.length_cons] at hw
      rcases even_or hx with heven | ⟨y, heven, rfl⟩
      · refine .of_count ?_
        rw [heven.pass_star, count_of_notMem hx, List.count_cons_self]
        exact Nat.lt_succ_of_le (h.closes w r (by omega) hclose).1
      · rw [List.append_assoc, List.singleton_append]
        refine .of_count ?_
        cases hend : commentEnd w with
        | some r₂ =>
            obtain rfl := hclose.unique (commentEnd_closes hend)
            have hlen := hclose.length_lt
            rw [heven.pass_found hend, count_of_notMem heven.1]
            exact Nat.lt_succ_of_le (h.same r (by omega)).1
        | none =>
            rw [heven.pass_kept hend, count_of_notMem heven.1, List.count_cons_of_ne hslash, List.count_cons_self]
            omega

theorem ends_step {y : List Byte} (h : Known n) (hy : chr '*' ∉ y) (hw : y.length + r.length + 2 ≤ n) :
    Apart (removeComments (y ++ chr '*' :: chr '/' :: r)) (pass r) := by
  have hslash : chr '/' ≠ chr '*' := by decide
  by_cases hopen : ∃ x r₃, y = x ++ [chr '/'] ∧ Closes (chr '/' :: r) r₃
  · obtain ⟨x, r₃, rfl, hr⟩ := hopen
    have hx : chr '*' ∉ x := fun hmem => hy (List.mem_append_left _ hmem)
    have hclose := (closes_cons fun hc => hslash hc.1).mp hr
    rw [List.append_assoc, List.singleton_append, hr.removeComments_append hx]
    exact (h.closes r r₃ (by omega) hclose).before hx
  · have hout : Outside y (chr '*' :: chr '/' :: r) := by
      refine ⟨hy, fun hlast u hu => ?_⟩
      obtain ⟨x, rfl⟩ := List.getLast?_eq_some_iff.mp hlast
      by_contra hclose
      obtain ⟨r₃, hr⟩ := exists_closes hclose
      cases hu
      exact hopen ⟨x, r₃, rfl, hr⟩
    rw [hout.removeComments_star]
    by_cases hnext : ∃ u r₃, r = chr '*' :: u ∧ Closes u r₃
    · obtain ⟨u, r₃, rfl, hr⟩ := hnext
      rw [List.length_cons] at hw
      rw [removeComments_comment hr, pass_star]
      exact ((h.closes u r₃ (by omega) hr).star even_nil).before hy
    · have hnone : commentLength (chr '/' :: r) = none := commentLength_eq_none fun _ u hu => by
        by_contra hclose
        obtain ⟨r₃, hr⟩ := exists_closes hclose
        exact hnext ⟨u, r₃, hu, hr⟩
      obtain ⟨hcount, hclean⟩ := h.same r (by omega)
      rw [removeComments_cons hnone]
      refine Apart.before ⟨?_, fun x z hx hz heq => ?_⟩ hy
      · rw [List.count_cons_self, List.count_cons_of_ne hslash]
        exact Nat.succ_le_succ hcount
      · cases x with
        | cons c x => exact hx ((List.cons.inj heq).1 ▸ List.mem_cons_self ..)
        | nil =>
            -- the two agree behind their first asterisk, so they are the same
            replace heq : chr '/' :: removeComments r = z ++ pass r := (List.cons.inj heq).2
            have hsame : fromStar (pass r) = fromStar (removeComments r) := by
              have hfrom := congrArg fromStar heq
              rw [fromStar_append hz.1] at hfrom
              exact hfrom.symm.trans (fromStar_append (x := [chr '/']) (by decide) _)
            rw [pass_of_clean (hclean hsame)] at heq
            have hz' : z = [chr '/'] := List.append_cancel_right (heq.symm.trans rfl)
            rw [hz'] at hz
            exact absurd hz.2 (by decide)

end Known

theorem known (n : ℕ) : Known n := by
  induction n with
  | zero => exact ⟨fun _ h => absurd h (Nat.not_lt_zero _), fun _ _ h => absurd h (Nat.not_lt_zero _),
      fun _ _ h => absurd h (Nat.not_lt_zero _)⟩
  | succ n ih =>
      exact ⟨fun w hw => ih.same_step (Nat.le_of_lt_succ hw), fun w r hw => ih.closes_step (Nat.le_of_lt_succ hw),
        fun y r hw hy => ih.ends_step hy (Nat.le_of_lt_succ hw)⟩

/-- The function takes out exactly the comments of the clean texts. -/
theorem pass_eq_iff (s : List Byte) : pass s = removeComments s ↔ clean s = true :=
  ⟨fun h => ((known (s.length + 1)).same s (Nat.lt_succ_self _)).2 (congrArg fromStar h), pass_of_clean⟩

/-! ### The result -/

theorem hasComment_cons (c : Byte) (s : List Byte) :
    hasComment (c :: s) = ((commentLength (c :: s)).isSome || hasComment s) := by
  rw [hasComment, List.tails_cons, List.any_cons, hasComment]

/-- With a comment, something is taken out, and without one nothing. -/
theorem removeComments_lt_or (s : List Byte) :
    if hasComment s then (removeComments s).length < s.length else removeComments s = s := by
  induction s with
  | nil => rfl
  | cons c s ih =>
      rw [hasComment_cons]
      cases hlen : commentLength (c :: s) with
      | some n =>
          rw [Option.isSome_some, Bool.true_or, if_pos rfl, removeComments, removeFrom, hlen]
          exact Nat.lt_succ_of_le (removeFrom_sublist _ s).length_le
      | none =>
          rw [Option.isSome_none, Bool.false_or, removeComments_cons hlen]
          split at ih
          · next h =>
              rw [if_pos h]
              exact Nat.succ_lt_succ ih
          · next h => rw [if_neg h, ih]

theorem pass_lt_or (s : List Byte) : if strippedOnce s = none then pass s = s else (pass s).length < s.length := by
  cases h : strippedOnce s with
  | none =>
      rw [if_pos rfl]
      exact pass_of_strippedOnce h
  | some t =>
      obtain ⟨hpass, hlen⟩ := pass_strippedOnce h
      rw [if_neg nofun, ← hpass]
      exact Nat.lt_of_le_of_lt (length_pass_le t) hlen

/-- The search leaves a comment at its first asterisk, and takes the second of two slashes
with the first. -/
theorem stripCComments_iff (s : List Byte) : StripsComments s ↔ clean s = true := by
  have hremove := removeComments_lt_or s
  have hpass := pass_lt_or s
  rw [StripsComments, stripCComments_eq, ← pass_eq_iff]
  by_cases hnone : strippedOnce s = none
  · rw [if_pos hnone] at hpass ⊢
    by_cases hcomment : hasComment s = true
    · rw [if_pos hcomment] at hremove ⊢
      refine iff_of_false nofun fun h => ?_
      rw [← h, hpass] at hremove
      exact Nat.lt_irrefl _ hremove
    · rw [if_neg hcomment] at hremove ⊢
      rw [hpass, hremove]
      exact iff_of_true rfl rfl
  · rw [if_neg hnone] at hpass ⊢
    by_cases hcomment : hasComment s = true
    · rw [if_pos hcomment, Option.some.injEq]
    · rw [if_neg hcomment] at hremove ⊢
      refine iff_of_false nofun fun h => ?_
      rw [h, hremove] at hpass
      exact Nat.lt_irrefl _ hpass

/-- A comment with an asterisk in it is kept. -/
theorem stripCComments_asterisk : ¬ StripsComments (lit "/* a * b */") := by
  rw [StripsComments, stripCComments_eq]
  decide +kernel

end Swig.Misc
