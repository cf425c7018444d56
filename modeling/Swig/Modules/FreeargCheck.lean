import Mathlib.Data.List.Basic
import Mathlib.Tactic.Common

/-!
`emit_attach_parmmaps` (`emit.cxx`), behind the calls that attach the typemaps: the code of
ignored parameters, the check that `in` and `freearg` typemaps match, and the parameters
with variable arguments.

A list of parameters is the list of siblings from its first one on. The attributes
`tmap:in:next` and `tmap:freearg:next` lead behind the parameters that the typemap covers,
to a null pointer where there are none.
-/

namespace Swig.Modules

/-- A symbol in the code of an `in` typemap: a character or `$target`. -/
inductive InSymbol
  | char (c : Char)
  | target
  deriving DecidableEq

/-- A typemap attached to a parameter. `more` counts the parameters it covers besides that
one. -/
structure Attachment (α : Type) where
  code : α
  more : ℕ
  deriving DecidableEq

/-- The code of an `in` typemap, and whether `tmap:in:numinputs` is 0. -/
structure InCode where
  tm : List InSymbol
  ignored : Bool
  deriving DecidableEq

structure AttachedParm where
  lname : String
  isvarargs : Bool
  tmap_in : Option (Attachment InCode)
  tmap_freearg : Option (Attachment String)
  deriving DecidableEq

/-- The parameters from `tmap:in:next` on, for a parameter before `rest`. -/
def AttachedParm.inNext (p : AttachedParm) (rest : List AttachedParm) : List AttachedParm :=
  match p.tmap_in with
  | some tm => rest.drop tm.more
  | none => []

theorem AttachedParm.length_inNext_le (p : AttachedParm) (rest : List AttachedParm) :
    (p.inNext rest).length ≤ rest.length := by
  unfold AttachedParm.inNext
  split
  · rw [List.length_drop]
    exact Nat.sub_le _ _
  · exact Nat.zero_le _

/-! ### Ignored parameters -/

/-- `Replaceall(tm, "$target", lname)`. -/
def replaceTarget (lname : String) (tm : List InSymbol) : List Char :=
  tm.flatMap fun
    | .char c => [c]
    | .target => lname.toList

/-- The code that is printed for the parameters without an input. -/
def ignoredCode : List AttachedParm → List Char
  | [] => []
  | p :: rest =>
      match p.tmap_in with
      | some tm =>
          (if tm.code.ignored then replaceTarget p.lname tm.code.tm ++ ['\n'] else []) ++
            ignoredCode (rest.drop tm.more)
      | none => ignoredCode rest
termination_by ps => ps.length
decreasing_by all_goals simp only [List.length_drop, List.length_cons]; omega

/-! ### The check -/

/-- `Delattr(p, "tmap:freearg")` and `Delattr(p, "tmap:freearg:next")`. -/
def AttachedParm.nukeFreearg (p : AttachedParm) : AttachedParm := { p with tmap_freearg := none }

/-- `npin != npfreearg`, for a parameter with a `freearg` typemap and `rest` behind it:
both lead to a tail of the list. -/
def AttachedParm.mismatch (p : AttachedParm) (rest : List AttachedParm) : Bool :=
  p.tmap_freearg.any fun tm => (p.inNext rest).length != (rest.drop tm.more).length

/-- The check of the `in` and `freearg` typemaps. -/
def checkFreearg : List AttachedParm → List AttachedParm
  | [] => []
  | p :: rest =>
      let npin := p.inNext rest
      let covered := (p :: rest).take ((p :: rest).length - npin.length)
      (if p.mismatch rest then covered.map AttachedParm.nukeFreearg else covered) ++ checkFreearg npin
termination_by ps => ps.length
decreasing_by exact Nat.lt_succ_of_le (p.length_inNext_le rest)

/-! ### Variable arguments -/

/-- `Setattr(p, "tmap:in", "")`, for a parameter with variable arguments. -/
def AttachedParm.discard (p : AttachedParm) : AttachedParm :=
  if p.isvarargs then { p with tmap_in := p.tmap_in.map fun tm => { tm with code := { tm.code with tm := [] } } } else p

/-- The loop that discards variable arguments without an input, and how many parameters
there are from `lp` on, which is its first argument. -/
def discardVarargs : ℕ → List AttachedParm → List AttachedParm × ℕ
  | lp, [] => ([], lp)
  | _, p :: rest =>
      if p.tmap_in.any fun tm => tm.code.ignored then
        let r := discardVarargs 0 rest
        (p.discard :: r.1, r.2)
      else
        let npin := p.inNext rest
        let r := discardVarargs (p :: rest).length npin
        ((p :: rest).take ((p :: rest).length - npin.length) ++ r.1, r.2)
termination_by _ ps => ps.length
decreasing_by
  · exact Nat.lt_succ_self _
  · exact Nat.lt_succ_of_le (p.length_inNext_le rest)

/-- The result of `emit_attach_parmmaps`: the code printed, the parameters, and the
parameter that `emit:varargs` of the first one is set to, as how many there are from it on. -/
structure Attached where
  code : List Char
  parms : List AttachedParm
  varargs : Option ℕ

/-- `emit_attach_parmmaps`, with the typemaps attached. -/
def emitAttachParmmaps (l : List AttachedParm) : Attached :=
  let r := discardVarargs 0 (checkFreearg l)
  { code := ignoredCode l
    parms := r.1
    varargs := if (r.1.drop (r.1.length - r.2)).any AttachedParm.isvarargs then some r.2 else none }

/-! ### What the check deletes -/

variable {ps pre post rest l : List AttachedParm} {p q : AttachedParm}

/-- The parameters that the check comes to, with those behind them. -/
inductive Reached (ps : List AttachedParm) : List AttachedParm → Prop
  | first : Reached ps ps
  | next {p : AttachedParm} {rest : List AttachedParm} (h : Reached ps (p :: rest)) : Reached ps (p.inNext rest)

/-- The last `n` parameters begin with one that the `in` typemap of a parameter covers,
which the check comes to and whose `freearg` typemap does not match. -/
def Covered (ps : List AttachedParm) (n : ℕ) : Prop :=
  ∃ q rest, Reached ps (q :: rest) ∧ q.mismatch rest ∧ (q.inNext rest).length < n ∧ n ≤ rest.length + 1

theorem Reached.length_le (h : Reached ps l) : l.length ≤ ps.length := by
  induction h with
  | first => exact Nat.le_refl _
  | next _ ih => exact Nat.le_trans (Nat.le_succ_of_le (AttachedParm.length_inNext_le _ _)) ih

theorem reached_cons (h : Reached (q :: rest) l) : l = q :: rest ∨ Reached (q.inNext rest) l := by
  induction h with
  | first => exact .inl rfl
  | next _ ih =>
      rcases ih with heq | hreached
      · obtain ⟨rfl, rfl⟩ := List.cons.inj heq
        exact .inr .first
      · exact .inr hreached.next

theorem Reached.cons (h : Reached (q.inNext rest) l) : Reached (q :: rest) l := by
  induction h with
  | first => exact .next .first
  | next _ ih => exact ih.next

/-- The parameters that the first `in` typemap covers, and those behind them. -/
theorem covered_cons {n : ℕ} (hn : n ≤ rest.length + 1) :
    Covered (q :: rest) n ↔
      if (q.inNext rest).length < n then q.mismatch rest = true else Covered (q.inNext rest) n := by
  split
  case isTrue hlt =>
    refine ⟨?_, fun h => ⟨q, rest, .first, h, hlt, hn⟩⟩
    rintro ⟨q', rest', hreached, hmismatch, -, hle⟩
    rcases reached_cons hreached with heq | hreached
    · obtain ⟨rfl, rfl⟩ := List.cons.inj heq
      exact hmismatch
    · have hlength := hreached.length_le
      rw [List.length_cons] at hlength
      omega
  case isFalse hlt =>
    constructor
    · rintro ⟨q', rest', hreached, hmismatch, hlt', hle⟩
      rcases reached_cons hreached with heq | hreached
      · obtain ⟨rfl, rfl⟩ := List.cons.inj heq
        exact absurd hlt' hlt
      · exact ⟨q', rest', hreached, hmismatch, hlt', hle⟩
    · rintro ⟨q', rest', hreached, hmismatch⟩
      exact ⟨q', rest', hreached.cons, hmismatch⟩

theorem AttachedParm.inNext_eq_drop (p : AttachedParm) (rest : List AttachedParm) :
    p.inNext rest = (p :: rest).drop ((p :: rest).length - (p.inNext rest).length) := by
  unfold AttachedParm.inNext
  split
  case h_1 tm _ =>
    rw [List.length_drop, List.length_cons]
    rcases Nat.le_total tm.more rest.length with hle | hle
    · rw [show rest.length + 1 - (rest.length - tm.more) = tm.more + 1 by omega, List.drop_succ_cons]
    · rw [List.drop_of_length_le hle, Nat.sub_eq_zero_of_le hle, Nat.sub_zero]
      exact List.drop_length.symm
  · exact (List.drop_length).symm

/-- What the check leaves of a parameter. -/
theorem checkFreearg_getElem? (h : ps = pre ++ p :: post) :
    (Covered ps (post.length + 1) → (checkFreearg ps)[pre.length]? = some p.nukeFreearg) ∧
      (¬Covered ps (post.length + 1) → (checkFreearg ps)[pre.length]? = some p) := by
  fun_induction checkFreearg ps generalizing pre with
  | case1 => simp at h
  | case2 q rest npin covered =>
      rename_i ih
      have hlength := congrArg List.length h
      rw [List.length_append, List.length_cons, List.length_cons] at hlength
      have hnpin : npin.length ≤ rest.length := q.length_inNext_le rest
      have hcovered : covered.length = rest.length + 1 - npin.length := by
        rw [List.length_take, List.length_cons]
        omega
      rw [covered_cons (by omega)]
      change ((if npin.length < _ then _ else Covered npin _) → _) ∧
        (¬(if npin.length < _ then _ else Covered npin _) → _)
      by_cases hlt : npin.length < post.length + 1
      · -- the parameter is one that the first `in` typemap covers
        have hp : covered[pre.length]? = some p := by
          rw [List.getElem?_take_of_lt (by rw [List.length_cons]; omega), h, List.getElem?_append_right (Nat.le_refl _),
            Nat.sub_self, List.getElem?_cons_zero]
        rw [if_pos hlt]
        cases q.mismatch rest with
        | true =>
            refine ⟨fun _ => ?_, fun hne => absurd rfl hne⟩
            rw [if_pos rfl, List.getElem?_append_left (by rw [List.length_map]; omega), List.getElem?_map, hp,
              Option.map_some]
        | false =>
            refine ⟨fun he => absurd he Bool.false_ne_true, fun _ => ?_⟩
            rw [if_neg Bool.false_ne_true, List.getElem?_append_left (by omega), hp]
      · have hsplit : npin = pre.drop covered.length ++ p :: post := by
          rw [hcovered, ← List.drop_append_of_le_length (by omega), ← h]
          exact q.inNext_eq_drop rest
        have hfirst : (if q.mismatch rest = true then covered.map AttachedParm.nukeFreearg else covered).length =
            covered.length := by
          split
          · exact List.length_map _
          · rfl
        have hih := ih hsplit
        rw [List.length_drop] at hih
        rw [if_neg hlt, List.getElem?_append_right (by omega), hfirst]
        exact hih

/-! ### What is left of the typemaps -/

theorem length_checkFreearg (ps : List AttachedParm) : (checkFreearg ps).length = ps.length := by
  fun_induction checkFreearg ps with
  | case1 => rfl
  | case2 q rest npin covered =>
      rename_i ih
      have hnpin : npin.length ≤ rest.length := q.length_inNext_le rest
      have hcovered : covered.length = rest.length + 1 - npin.length := by
        rw [List.length_take, List.length_cons]
        omega
      rw [List.length_append, ih, List.length_cons]
      split
      · rw [List.length_map]
        omega
      · omega

/-- The typemap attributes that the check looks at. -/
def AttachedParm.links (p : AttachedParm) : Option (Attachment String) × Option ℕ :=
  (p.tmap_freearg, p.tmap_in.map Attachment.more)

theorem mismatch_congr {p' : AttachedParm} {post' : List AttachedParm} (h : p'.links = p.links)
    (hlength : post'.length = post.length) : p'.mismatch post' = p.mismatch post := by
  obtain ⟨hfreearg, hin⟩ := Prod.mk.inj h
  have hnext : (p'.inNext post').length = (p.inNext post).length := by
    have hnext (p : AttachedParm) (post : List AttachedParm) :
        (p.inNext post).length = ((p.tmap_in.map Attachment.more).map (post.length - ·)).getD 0 := by
      unfold AttachedParm.inNext
      cases p.tmap_in with
      | none => rfl
      | some tm => exact List.length_drop
    rw [hnext, hnext, hin, hlength]
  simp only [AttachedParm.mismatch, hfreearg, hnext, List.length_drop, hlength]

theorem links_discard (p : AttachedParm) : p.discard.links = p.links := by
  unfold AttachedParm.discard
  split
  · rw [AttachedParm.links, Option.map_map]
    rfl
  · rfl

/-- The last loop changes only the code of `in` typemaps. -/
theorem discardVarargs_links (lp : ℕ) (ps : List AttachedParm) :
    (discardVarargs lp ps).1.map AttachedParm.links = ps.map AttachedParm.links := by
  fun_induction discardVarargs lp ps with
  | case1 => rfl
  | case2 lp p rest hignored r =>
      rename_i ih
      rw [List.map_cons, List.map_cons, links_discard, ih]
  | case3 lp p rest hignored npin r =>
      rename_i ih
      have hnpin : npin = (p :: rest).drop ((p :: rest).length - npin.length) := p.inNext_eq_drop rest
      rw [List.map_append, ih, ← List.map_append]
      nth_rewrite 2 [hnpin]
      rw [List.take_append_drop]

theorem getElem?_split (h : ps = pre ++ p :: post) {n : ℕ} (hn : pre.length = n) : ps[n]? = some p := by
  rw [h, List.getElem?_append_right (Nat.le_of_eq hn), hn, Nat.sub_self, List.getElem?_cons_zero]

/-- What `emit_attach_parmmaps` leaves of the parameters. -/
theorem emitAttachParmmaps_parm {p' : AttachedParm} {pre' post' : List AttachedParm} (h : ps = pre ++ p :: post)
    (h' : (emitAttachParmmaps ps).parms = pre' ++ p' :: post') (hpre : pre'.length = pre.length) :
    post'.length = post.length ∧ (Covered ps (post.length + 1) → p'.tmap_freearg = none) ∧
      (¬Covered ps (post.length + 1) → p'.links = p.links) := by
  have hlinks : (emitAttachParmmaps ps).parms.map AttachedParm.links = (checkFreearg ps).map AttachedParm.links :=
    discardVarargs_links 0 _
  have hlength := congrArg List.length hlinks
  rw [List.length_map, List.length_map, length_checkFreearg, h', h] at hlength
  simp only [List.length_append, List.length_cons] at hlength
  have hat := congrArg (·[pre.length]?) hlinks
  simp only [List.getElem?_map, getElem?_split h' hpre, Option.map_some] at hat
  obtain ⟨hcovered, hother⟩ := checkFreearg_getElem? h
  refine ⟨by omega, fun hc => ?_, fun hc => ?_⟩
  · rw [hcovered hc] at hat
    exact (Prod.mk.inj (Option.some.inj hat)).1
  · rw [hother hc] at hat
    exact Option.some.inj hat

/-- The `freearg` typemaps that are left match the `in` typemaps of their parameters, and
those that did are left. -/
structure Checked (ps ps' : List AttachedParm) : Prop where
  same : ∀ pre p post, ps' = pre ++ p :: post → p.mismatch post = false
  kept : ∀ pre p post, ps = pre ++ p :: post → p.mismatch post = false →
    ∃ p', ps'[pre.length]? = some p' ∧ p'.tmap_freearg = p.tmap_freearg

/-- A list with a parameter at the place of one of another list. -/
theorem exists_split {ps' : List AttachedParm} (h : ps = pre ++ p :: post) (hlength : ps'.length = ps.length) :
    ∃ pre' p' post', ps' = pre' ++ p' :: post' ∧ pre'.length = pre.length := by
  have hlt : pre.length < ps'.length := by
    rw [hlength, h, List.length_append, List.length_cons]
    omega
  refine ⟨ps'.take pre.length, ps'[pre.length], ps'.drop (pre.length + 1), ?_, ?_⟩
  · rw [List.getElem_cons_drop, List.take_append_drop]
  · rw [List.length_take]
    omega

theorem length_emitAttachParmmaps (ps : List AttachedParm) : (emitAttachParmmaps ps).parms.length = ps.length := by
  have hlength := congrArg List.length (discardVarargs_links 0 (checkFreearg ps))
  rw [List.length_map, List.length_map, length_checkFreearg] at hlength
  exact hlength

/-- The `freearg` typemaps that don't match are those of the parameters that it deletes them of. -/
theorem Checked.mismatch_iff_covered (hchecked : Checked ps (emitAttachParmmaps ps).parms) (h : ps = pre ++ p :: post)
    (hfreearg : p.tmap_freearg.isSome) : p.mismatch post = true ↔ Covered ps (post.length + 1) := by
  obtain ⟨pre', p', post', h', hpre⟩ := exists_split h (length_emitAttachParmmaps ps)
  obtain ⟨hpost, hcovered, hother⟩ := emitAttachParmmaps_parm h h' hpre
  refine ⟨fun hmismatch => ?_, fun hc => ?_⟩
  · by_contra hc
    have hsame := hchecked.same pre' p' post' h'
    rw [mismatch_congr (hother hc) hpost, hmismatch] at hsame
    cases hsame
  · by_contra hmismatch
    obtain ⟨p'', hp'', hkept⟩ := hchecked.kept pre p post h (Bool.eq_false_iff.mpr hmismatch)
    rw [getElem?_split h' hpre] at hp''
    obtain rfl : p' = p'' := Option.some.inj hp''
    rw [← hkept, hcovered hc] at hfreearg
    cases hfreearg

/-- The check does what it is for exactly where the `freearg` typemaps that don't match are
those of the parameters that it deletes them of. -/
theorem emitAttachParmmaps_checked_iff (ps : List AttachedParm) :
    Checked ps (emitAttachParmmaps ps).parms ↔ ∀ pre p post, ps = pre ++ p :: post → p.tmap_freearg.isSome →
      (p.mismatch post = true ↔ Covered ps (post.length + 1)) := by
  constructor
  · exact fun hchecked _ _ _ h hfreearg => hchecked.mismatch_iff_covered h hfreearg
  · intro hps
    refine ⟨fun pre' p' post' h' => ?_, fun pre p post h hmatch => ?_⟩
    · obtain ⟨pre, p, post, h, hpre⟩ := exists_split h' (length_emitAttachParmmaps ps).symm
      obtain ⟨hpost, hcovered, hother⟩ := emitAttachParmmaps_parm h h' hpre.symm
      by_cases hc : Covered ps (post.length + 1)
      · rw [AttachedParm.mismatch, hcovered hc]
        rfl
      · rw [mismatch_congr (hother hc) hpost]
        cases hfreearg : p.tmap_freearg with
        | none =>
            rw [AttachedParm.mismatch, hfreearg]
            rfl
        | some tm =>
            have hiff := hps pre p post h (by rw [hfreearg]; rfl)
            exact Bool.eq_false_iff.mpr fun hmismatch => hc (hiff.mp hmismatch)
    · obtain ⟨pre', p', post', h', hpre⟩ := exists_split h (length_emitAttachParmmaps ps)
      obtain ⟨hpost, hcovered, hother⟩ := emitAttachParmmaps_parm h h' hpre
      refine ⟨p', getElem?_split h' hpre, ?_⟩
      by_cases hc : Covered ps (post.length + 1)
      · rw [hcovered hc]
        cases hfreearg : p.tmap_freearg with
        | none => rfl
        | some tm =>
            have hmismatch := (hps pre p post h (by rw [hfreearg]; rfl)).mpr hc
            rw [hmatch] at hmismatch
            cases hmismatch
      · exact (Prod.mk.inj (hother hc)).1

/-- A parameter without an `in` typemap ends the check: the `freearg` typemap of the second
parameter covers two, its `in` typemap one. -/
theorem emitAttachParmmaps_not_checked : ¬∀ ps, Checked ps (emitAttachParmmaps ps).parms := by
  intro h
  have hchecked := h
    [⟨"arg1", false, none, none⟩, ⟨"arg2", false, some ⟨⟨[], false⟩, 0⟩, some ⟨"", 1⟩⟩,
      ⟨"arg3", false, some ⟨⟨[], false⟩, 0⟩, none⟩]
  have hiff := hchecked.mismatch_iff_covered (show _ = [_] ++ _ :: _ from rfl) rfl
  obtain ⟨q, rest, hreached, hmismatch, -⟩ := hiff.mp rfl
  rcases reached_cons hreached with heq | hreached
  · obtain ⟨rfl, rfl⟩ := List.cons.inj heq
    cases hmismatch
  · exact absurd hreached.length_le (Nat.not_succ_le_zero _)

end Swig.Modules
