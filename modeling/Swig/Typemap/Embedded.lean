import Swig.CParse.ReplaceDescriptor
import Swig.DOH.Attributes
import Swig.DOH.Sprintf
import Swig.Lib.Rounds

/-!
`replace_embedded_typemap` (`typemap.c`): `$typemap(...)` in a typemap's code, which
`typemap_replace_vars` has turned into `$TYPEMAP(...)`.
-/

namespace Swig.Typemap.Embedded

open DOH ByteBlock Fuel
open CParse.Descriptor (CString opened argument argument_close argument_cons prefix_of_argument)
open Relation (ReflTransGen)
open Rounds (Round Describes Raises)

def marker : List Byte := lit "$TYPEMAP("

def errorText : List Byte := lit "<error in embedded typemap>"

/-! ### The arguments -/

/-- `split_embedded_typemap` behind the first parenthesis: `arg` is the argument so far, `leading` says that
only blanks have been skipped in front of it. There is no result where a string is not closed, and the end of
the text is passed. -/
def splitLoop (inString : Bool) (level angle : ℤ) (leading : Bool) (arg : List Byte) (args : List (List Byte)) :
    List Byte → Option (List (List Byte))
  | [] => if inString then none else some args
  | c :: cs =>
      if inString then
        if c = chr '\\' then
          match cs with
          | [] => none
          | d :: cs => splitLoop true level angle leading (arg ++ [c, d]) args cs
        else splitLoop (c != chr '"') level angle (leading && c != chr '"') (arg ++ [c]) args cs
      else if c = chr '"' then splitLoop true level angle leading (arg ++ [c]) args cs
      else if level = 0 ∧ angle = 0 ∧ c = chr ')' then some (args ++ [arg])
      else if level = 0 ∧ angle = 0 ∧ c = chr ',' then splitLoop false level angle true [] (args ++ [arg]) cs
      else
        let level := if c = chr ')' then level - 1 else opened level c
        let angle := if c = chr '<' then angle + 1 else if c = chr '>' then angle - 1 else angle
        if isspace c && leading then splitLoop false level angle true (arg ++ [c]).tail args cs
        else splitLoop false level angle false (arg ++ [c]) args cs

/-- `split_embedded_typemap`. -/
def splitEmbeddedTypemap (s : List Byte) : Option (List (List Byte)) :=
  splitLoop false 0 0 true [] [] ((s.dropWhile (· != chr '(')).drop 1)

/-- The optional arguments `name=value`, and whether all have that form. -/
def extraVariables : List (List Byte) → Hash (List Byte) → Bool → Hash (List Byte) × Bool
  | [], vars, ok => (vars, ok)
  | parm :: parms, vars, ok =>
      match parm.findIdx? (· == chr '=') with
      | some (eq + 1) =>
          extraVariables parms (setObject vars (chr '$' :: parm.take (eq + 1)) (parm.drop (eq + 2))).2 ok
      | _ => extraVariables parms vars false

/-! ### The loop -/

/-- The text from the marker to the parenthesis that closes it, or to the end, and whether there is one. -/
def dollarTypemap (s : List Byte) : List Byte × Bool :=
  let a := argument 0 s
  if a.2 then (a.1 ++ [chr ')'], true) else (a.1, false)

section Loop

variable {σ P : Type} (cparse_parms : List Byte → Option P)
  (lookup : σ → List Byte → P → Hash (List Byte) → Option (Option (List Byte) × σ))

/-- The typemap code for a `$TYPEMAP(...)`, if there is one; `lookup` is what is done with the method, the
parameters and the variables. -/
def substitution (st : σ) (dollar_typemap : List Byte) : Option (Option (List Byte) × σ) :=
  (splitEmbeddedTypemap dollar_typemap).bind fun
    | method :: parms :: extra =>
        match cparse_parms parms, extraVariables extra newHash true with
        | some p, (vars, true) => lookup st method p vars
        | _, _ => some (none, st)
    | _ => some (none, st)

/-- There is no code where the parenthesis is not closed. -/
def answer (st : σ) (dollar_typemap : List Byte) (closed : Bool) : Option (Option (List Byte) × σ) :=
  if closed then substitution cparse_parms lookup st dollar_typemap else some (none, st)

/-- One round of the loop, for the marker at `start`. -/
def embeddedRound (st : σ) (s : List Byte) (start : ℕ) : Option (σ × List Byte) := do
  let (dollar_typemap, closed) := dollarTypemap (s.drop start)
  let (tm, st) ← answer cparse_parms lookup st dollar_typemap closed
  let s ← match tm with
    | some tm => replaceText s dollar_typemap tm DOH_REPLACE_ANY
    | none => some s
  let s ← replaceText s dollar_typemap errorText DOH_REPLACE_ANY
  return (st, s)

/-- The loop of `replace_embedded_typemap`. -/
def embeddedLoop : ℕ → σ → List Byte → Option (σ × List Byte)
  | 0, _, _ => none
  | fuel + 1, st, s =>
      match indexOf marker s with
      | none => some (st, s)
      | some start => do
          let (st, s) ← embeddedRound cparse_parms lookup st s start
          embeddedLoop fuel st s

end Loop

/-- What `Swig_typemap_attach_parms` finds: the code for the first parameter and for later ones, in which
typemaps may be embedded, and whether the first takes more than one parameter. -/
structure Attached where
  code : Option CString
  others : List CString
  next : Bool

/-- The parser of parameters, which take the names of the ones at hand, the typemap store, and the hook of the
target language, which may keep a state. -/
structure Environment (σ : Type) where
  ParmList : Type
  cparse_parms : List Byte → Option ParmList
  attach_parms : σ → List Byte → ParmList → Attached × σ
  replaceSpecialVariables : σ → List Byte → List Byte → ParmList → CString × σ

variable {σ : Type} (E : Environment σ)

/-- Embedded typemaps in the code of an embedded typemap are errors (`already_substituting`). Each leaves fewer
markers, so that there are no more rounds than these. -/
def nestedLoop (code : CString) : Option (List Byte) :=
  (embeddedLoop E.cparse_parms (fun (st : Unit) _ _ _ => some (none, st)) (occurrences marker code.val + 1) ()
    code.val).map Prod.snd

/-- The code of the typemap that is found, with its variables replaced. -/
def findCode (st : σ) (method : List Byte) (p : E.ParmList) (vars : Hash (List Byte)) :
    Option (Option (List Byte) × σ) := do
  let (attached, st) := E.attach_parms st method p
  let tm ← attached.code.mapM (nestedLoop E)
  let _ ← attached.others.mapM (nestedLoop E)
  match tm, attached.next with
  | some tm, false => do
      let tm ← replaceText tm (lit "$argnum") (lit "1") DOH_REPLACE_ANY
      let tm ← vars.nodes.foldlM (fun tm n => replaceText tm n.key n.object DOH_REPLACE_ANY) tm
      let (tm, st) := E.replaceSpecialVariables st method tm p
      return (some tm.val, st)
  | _, _ => return (none, st)

/-- `replace_embedded_typemap`. -/
def replaceEmbeddedTypemap (fuel : ℕ) (st : σ) (s : List Byte) : Option (σ × List Byte) :=
  embeddedLoop E.cparse_parms (findCode E) fuel st s

/-! ### The texts searched -/

/-- The first marker of a text with its arguments, and whether it is closed. -/
def firstTypemap (s : List Byte) : Option (List Byte × Bool) :=
  (indexOf marker s).map fun start => dollarTypemap (s.drop start)

/-- The text with the code, if any, in place of each of the marker's arguments, and with the error otherwise. -/
def rewritten (s dollar_typemap : List Byte) : Option (List Byte) → List Byte
  | some tm => replacedAll dollar_typemap errorText (replacedAll dollar_typemap tm s)
  | none => replacedAll dollar_typemap errorText s

/-- The error in place of the first marker. -/
def Errs (s s' : List Byte) : Prop := ∃ d closed, firstTypemap s = some (d, closed) ∧ s' = rewritten s d none

/-- The first marker of a text has a string that is not closed. -/
def Unquoted (s : List Byte) : Prop := ∃ d, firstTypemap s = some (d, true) ∧ splitEmbeddedTypemap d = none

/-- All markers of a code can be turned into errors. -/
def Quoted (code : List Byte) : Prop := ∀ s, ReflTransGen Errs code s → ¬Unquoted s

/-- The arguments of a marker with which it is looked up. -/
inductive Asks (d : List Byte) : List Byte → E.ParmList → Hash (List Byte) → Prop
  | mk {method parms : List Byte} {extra : List (List Byte)} {p : E.ParmList} {vars : Hash (List Byte)}
      (hsplit : splitEmbeddedTypemap d = some (method :: parms :: extra)) (hparms : E.cparse_parms parms = some p)
      (hvars : extraVariables extra newHash true = (vars, true)) : Asks d method p vars

/-- A string is read beyond its text: in the first marker, or in a code that is found for it. -/
def Overruns (x : σ × List Byte) : Prop :=
  Unquoted x.2 ∨ ∃ d method p vars, firstTypemap x.2 = some (d, true) ∧ Asks E d method p vars ∧
    ∃ code ∈ (E.attach_parms x.1 method p).1.code.toList ++ (E.attach_parms x.1 method p).1.others, ¬Quoted code.val

/-- One of the rounds, with the code that is found in it, if any. -/
inductive Rewrites : σ × List Byte → σ × List Byte → Prop
  | mk {st st' : σ} {s d : List Byte} {closed : Bool} {tm : Option (List Byte)} (h : firstTypemap s = some (d, closed))
      (htm : answer E.cparse_parms (findCode E) st d closed = some (tm, st')) :
      Rewrites (st, s) (st', rewritten s d tm)

/-! ### The arguments of a marker -/

theorem nulFree_splitLoop {inString leading : Bool} {level angle : ℤ} {arg : List Byte} {args l : List (List Byte)}
    {s : List Byte} (hargs : ∀ a ∈ args, ∀ c ∈ a, c ≠ 0) (harg : ∀ c ∈ arg, c ≠ 0) (hs : ∀ c ∈ s, c ≠ 0)
    (h : splitLoop inString level angle leading arg args s = some l) : ∀ a ∈ l, ∀ c ∈ a, c ≠ 0 := by
  fun_induction splitLoop inString level angle leading arg args s with
  | case1 | case3 => cases h
  | case2 => exact Option.some.inj h ▸ hargs
  | case4 level angle leading arg args d cs ih =>
      obtain ⟨hc, hd, hcs⟩ : _ ∧ _ ∧ _ := by simpa only [List.forall_mem_cons] using hs
      refine ih hargs (List.forall_mem_append.mpr ⟨harg, ?_⟩) hcs h
      exact List.forall_mem_cons.mpr ⟨hc, List.forall_mem_singleton.mpr hd⟩
  | case5 level angle leading arg args c cs _ ih | case10 _ level angle leading arg args c cs _ _ _ _ _ _ _ ih =>
      obtain ⟨hc, hcs⟩ := List.forall_mem_cons.mp hs
      exact ih hargs (List.forall_mem_append.mpr ⟨harg, List.forall_mem_singleton.mpr hc⟩) hcs h
  | case6 _ level angle leading arg args cs _ ih =>
      obtain ⟨hc, hcs⟩ := List.forall_mem_cons.mp hs
      exact ih hargs (List.forall_mem_append.mpr ⟨harg, List.forall_mem_singleton.mpr hc⟩) hcs h
  | case7 => exact Option.some.inj h ▸ List.forall_mem_append.mpr ⟨hargs, List.forall_mem_singleton.mpr harg⟩
  | case8 _ level angle leading arg args c cs _ _ _ _ ih =>
      exact ih (List.forall_mem_append.mpr ⟨hargs, List.forall_mem_singleton.mpr harg⟩) (by simp)
        (List.forall_mem_of_forall_mem_cons hs) h
  | case9 _ level angle leading arg args c cs _ _ _ _ _ _ _ ih =>
      obtain ⟨hc, hcs⟩ := List.forall_mem_cons.mp hs
      have happend := List.forall_mem_append.mpr ⟨harg, List.forall_mem_singleton.mpr hc⟩
      exact ih hargs (fun b hb => happend b (List.mem_of_mem_tail hb)) hcs h

theorem nulFree_splitEmbeddedTypemap {d : List Byte} {l : List (List Byte)} (hd : ∀ c ∈ d, c ≠ 0)
    (h : splitEmbeddedTypemap d = some l) : ∀ a ∈ l, ∀ c ∈ a, c ≠ 0 :=
  nulFree_splitLoop (by rintro _ ⟨⟩) (by rintro _ ⟨⟩)
    (fun c hc => hd c ((List.dropWhile_sublist _).mem (List.mem_of_mem_drop hc))) h

/-- Names that are not empty, and values, without null characters. -/
structure Variables (vars : Hash (List Byte)) : Prop where
  valid : vars.Valid
  value : ∀ k v, getObject vars k = some v → k ≠ [] ∧ ∀ c ∈ v, c ≠ 0

theorem variables_newHash : Variables newHash where
  valid := valid_newHash
  value k v h := by
    rw [represents_newHash.getObject k, Finmap.lookup_empty] at h
    cases h

theorem Variables.set {vars : Hash (List Byte)} (h : Variables vars) {k v : List Byte} (hk : k ≠ [])
    (hv : ∀ c ∈ v, c ≠ 0) : Variables (setObject vars k v).2 where
  valid := h.valid.set k v
  value k' v' hget := by
    rw [getObject_set h.valid] at hget
    split at hget
    case isTrue heq =>
      obtain rfl := Option.some.inj hget
      exact ⟨heq ▸ hk, hv⟩
    case isFalse => exact h.value k' v' hget

theorem Variables.node {vars : Hash (List Byte)} (h : Variables vars) {n : HashNode (List Byte)}
    (hn : n ∈ vars.nodes) : n.key ≠ [] ∧ ∀ c ∈ n.object, c ≠ 0 := by
  obtain ⟨m, hr⟩ := h.valid
  exact h.value n.key n.object ((hr.getObject n.key).trans ((hr.binds.mem_iff n.key n.object).mp hn))

theorem variables_extraVariables {parms : List (List Byte)} {vars : Hash (List Byte)} (h : Variables vars)
    (hparms : ∀ a ∈ parms, ∀ c ∈ a, c ≠ 0) (ok : Bool) : Variables (extraVariables parms vars ok).1 := by
  induction parms generalizing vars ok with
  | nil => exact h
  | cons parm parms ih =>
      have hrest := List.forall_mem_of_forall_mem_cons hparms
      rw [extraVariables]
      split
      · exact ih (h.set (List.cons_ne_nil _ _) fun c hc => hparms parm List.mem_cons_self c (List.mem_of_mem_drop hc))
          hrest ok
      · exact ih h hrest false

/-! ### One round -/

section Loop

variable {σ P : Type} {cparse_parms : List Byte → Option P}
  {lookup : σ → List Byte → P → Hash (List Byte) → Option (Option (List Byte) × σ)}

theorem argument_marker (s : List Byte) : argument 0 (marker ++ s) =
    (marker ++ (argument 1 s).1, (argument 1 s).2) := rfl

theorem firstTypemap_spec {s d : List Byte} {closed : Bool} (h : firstTypemap s = some (d, closed)) :
    marker <+: d ∧ ∃ k, Occurs d s k := by
  obtain ⟨k, hk, heq⟩ := Option.map_eq_some_iff.mp h
  obtain ⟨v, hv⟩ := (indexOf_spec marker s).1 k hk |>.1
  obtain ⟨hpre, hclosed, -⟩ := prefix_of_argument 0 (s.drop k)
  have hmarker : marker <+: (argument 0 (s.drop k)).1 := by
    rw [← hv, argument_marker]
    exact List.prefix_append _ _
  rw [dollarTypemap] at heq
  split at heq
  · rename_i hsome
    obtain ⟨rfl, -⟩ := Prod.mk.inj heq
    exact ⟨hmarker.trans (List.prefix_append _ _), k, hclosed hsome⟩
  · obtain ⟨rfl, -⟩ := Prod.mk.inj heq
    exact ⟨hmarker, k, hpre⟩

theorem ne_nil_of_marker {d : List Byte} (h : marker <+: d) : d ≠ [] := by
  rintro rfl
  exact absurd (List.prefix_nil.mp h) (by decide)

theorem nulFree_firstTypemap {s d : List Byte} {closed : Bool} (hs : ∀ c ∈ s, c ≠ 0)
    (h : firstTypemap s = some (d, closed)) : ∀ c ∈ d, c ≠ 0 := by
  obtain ⟨-, k, hocc⟩ := firstTypemap_spec h
  exact fun c hc => hs c (List.mem_of_mem_drop (hocc.subset hc))

theorem nulFree_errorText : ∀ c ∈ errorText, c ≠ 0 := fun _ hc => ne_of_mem_of_not_mem hc (by decide)

theorem unmarked_errorText : Unmarked marker errorText where
  ne_nil := by decide
  first := by
    rintro _ ⟨⟩
    decide
  head := by
    rintro _ ⟨⟩
    decide

theorem nulFree_rewritten {s d : List Byte} {tm : Option (List Byte)} (hd : d ≠ []) (hs : ∀ c ∈ s, c ≠ 0)
    (htm : ∀ t ∈ tm, ∀ c ∈ t, c ≠ 0) : ∀ c ∈ rewritten s d tm, c ≠ 0 := by
  cases tm with
  | none => exact nulFree_replacedAll hd nulFree_errorText hs
  | some t => exact nulFree_replacedAll hd nulFree_errorText (nulFree_replacedAll hd (htm t rfl) hs)

/-- An error takes a marker away. -/
theorem occurrences_errs {s s' : List Byte} (h : Errs s s') : occurrences marker s' < occurrences marker s := by
  obtain ⟨d, closed, hfirst, rfl⟩ := h
  obtain ⟨hmarker, k, hocc⟩ := firstTypemap_spec hfirst
  exact occurrences_replacedAll (by decide) hmarker unmarked_errorText hocc

/-- What a round of the loop does. -/
def round (cparse_parms : List Byte → Option P)
    (lookup : σ → List Byte → P → Hash (List Byte) → Option (Option (List Byte) × σ)) (x : σ × List Byte) :
    Round (σ × List Byte) (σ × List Byte) :=
  match indexOf marker x.2 with
  | none => .done x
  | some start =>
      match embeddedRound cparse_parms lookup x.1 x.2 start with
      | none => .stuck
      | some y => .next y

theorem embeddedLoop_eq_run (fuel : ℕ) (x : σ × List Byte) :
    embeddedLoop cparse_parms lookup fuel x.1 x.2 = Rounds.run (round cparse_parms lookup) fuel x := by
  induction fuel generalizing x with
  | zero => rfl
  | succ fuel ih =>
      rw [embeddedLoop, Rounds.run, round]
      cases indexOf marker x.2 with
      | none => rfl
      | some start =>
          dsimp only
          cases embeddedRound cparse_parms lookup x.1 x.2 start with
          | none => rfl
          | some y => exact ih y

theorem round_none {x : σ × List Byte} (h : firstTypemap x.2 = none) : round cparse_parms lookup x = .done x := by
  rw [round, Option.map_eq_none_iff.mp h]

theorem round_done {x y : σ × List Byte} (h : round cparse_parms lookup x = .done y) :
    y = x ∧ firstTypemap x.2 = none := by
  rw [round] at h
  cases hindex : indexOf marker x.2 with
  | none =>
      rw [hindex] at h
      exact ⟨(Round.done.inj h).symm, Option.map_eq_none_iff.mpr hindex⟩
  | some start =>
      rw [hindex] at h
      dsimp only at h
      split at h <;> cases h

theorem round_some {st : σ} {s d : List Byte} {closed : Bool} (hs : ∀ c ∈ s, c ≠ 0)
    (h : firstTypemap s = some (d, closed))
    (hcode : ∀ tm st', answer cparse_parms lookup st d closed = some (some tm, st') → ∀ c ∈ tm, c ≠ 0) :
    round cparse_parms lookup (st, s) =
      match answer cparse_parms lookup st d closed with
      | none => .stuck
      | some (tm, st') => .next (st', rewritten s d tm) := by
  obtain ⟨hmarker, -⟩ := firstTypemap_spec h
  have hd := ne_nil_of_marker hmarker
  obtain ⟨start, hstart, hdollar⟩ := Option.map_eq_some_iff.mp h
  rw [round, hstart]
  dsimp only
  rw [embeddedRound, hdollar]
  dsimp only
  cases htm : answer cparse_parms lookup st d closed with
  | none => rfl
  | some r =>
      obtain ⟨tm, st'⟩ := r
      cases tm with
      | none =>
          simp only [Option.bind_eq_bind, Option.bind_some, replaceText_any hd nulFree_errorText hs]
          rfl
      | some tm =>
          have htm := hcode tm st' htm
          simp only [Option.bind_eq_bind, Option.bind_some, replaceText_any hd htm hs,
            replaceText_any hd nulFree_errorText (nulFree_replacedAll hd htm hs)]
          rfl

end Loop

/-! ### The code that is found -/

theorem describes_nested : Describes (round E.cparse_parms fun (st : Unit) _ _ _ => some (none, st))
    (fun x => ∀ c ∈ x.2, c ≠ 0) (fun x y => Errs x.2 y.2) (fun x => Unquoted x.2) := by
  have hround (s : List Byte) (hs : ∀ c ∈ s, c ≠ 0) {d : List Byte} {closed : Bool}
      (h : firstTypemap s = some (d, closed)) :
      round E.cparse_parms (fun (st : Unit) _ _ _ => some (none, st)) ((), s) =
        if closed = true ∧ splitEmbeddedTypemap d = none then .stuck else .next ((), rewritten s d none) := by
    have hanswer : answer E.cparse_parms (fun (st : Unit) _ _ _ => some (none, st)) () d closed =
        if closed = true ∧ splitEmbeddedTypemap d = none then none else some (none, ()) := by
      cases closed with
      | false => rfl
      | true =>
          rw [answer, if_pos rfl, substitution]
          cases splitEmbeddedTypemap d with
          | none => rfl
          | some l =>
              rw [if_neg (fun h => by cases h.2), Option.bind_some]
              split <;> try rfl
              split <;> rfl
    have hnone (tm : List Byte) (st' : Unit)
        (h' : answer E.cparse_parms (fun (st : Unit) _ _ _ => some (none, st)) () d closed = some (some tm, st')) :
        ∀ c ∈ tm, c ≠ 0 := by
      rw [hanswer] at h'
      split at h' <;> cases h'
    rw [round_some hs h hnone, hanswer]
    by_cases hunquoted : closed = true ∧ splitEmbeddedTypemap d = none
    · rw [if_pos hunquoted, if_pos hunquoted]
    · rw [if_neg hunquoted, if_neg hunquoted]
  constructor
  · rintro ⟨_, s⟩ ⟨_, s'⟩ hs hquoted
    cases hfirst : firstTypemap s with
    | none =>
        rw [round_none hfirst]
        refine iff_of_false (by rintro ⟨⟩) ?_
        rintro ⟨d, closed, h, -⟩
        cases hfirst.symm.trans h
    | some q =>
        obtain ⟨d, closed⟩ := q
        have hsplit : ¬(closed = true ∧ splitEmbeddedTypemap d = none) := fun h => hquoted ⟨d, h.1 ▸ hfirst, h.2⟩
        rw [hround s hs hfirst, if_neg hsplit]
        constructor
        · intro h
          obtain ⟨-, rfl⟩ := Prod.mk.inj (Round.next.inj h)
          exact ⟨d, closed, hfirst, rfl⟩
        · rintro ⟨d', closed', h, rfl⟩
          obtain ⟨rfl, rfl⟩ := Prod.mk.inj (Option.some.inj (hfirst.symm.trans h))
          rfl
  · rintro ⟨_, s⟩ hs
    cases hfirst : firstTypemap s with
    | none =>
        rw [round_none hfirst]
        refine iff_of_false (by rintro ⟨⟩) ?_
        rintro ⟨d, h, -⟩
        cases hfirst.symm.trans h
    | some q =>
        obtain ⟨d, closed⟩ := q
        rw [hround s hs hfirst]
        split
        case isTrue h => exact iff_of_true rfl ⟨d, h.1 ▸ hfirst, h.2⟩
        case isFalse h =>
          refine iff_of_false (by rintro ⟨⟩) ?_
          rintro ⟨d', h', hsplit⟩
          obtain ⟨rfl, rfl⟩ := Prod.mk.inj (Option.some.inj (hfirst.symm.trans h'))
          exact h ⟨rfl, hsplit⟩
  · rintro ⟨_, s⟩ ⟨_, s'⟩ hs ⟨d, closed, hfirst, heq⟩
    dsimp only at heq hfirst ⊢
    rw [heq]
    exact nulFree_rewritten (ne_nil_of_marker (firstTypemap_spec hfirst).1) hs (by rintro _ ⟨⟩)

theorem nestedLoop_isSome_iff (code : CString) : (nestedLoop E code).isSome ↔ Quoted code.val := by
  have hrun := (describes_nested E).run_isSome_iff (m := fun x => occurrences marker x.2) (x := ((), code.val))
    (fun x y _ h => occurrences_errs h) code.property
  rw [nestedLoop, Option.isSome_map, embeddedLoop_eq_run _ ((), code.val)]
  refine hrun.trans ?_
  constructor
  · exact fun h s hreach => h ((), s) (hreach.lift (fun s => ((), s)) fun _ _ h => h)
  · exact fun h y hreach => h y.2 (hreach.lift Prod.snd fun _ _ h => h)

theorem nestedLoop_eq_none_iff (code : CString) : nestedLoop E code = none ↔ ¬Quoted code.val := by
  rw [← nestedLoop_isSome_iff E, Option.not_isSome_iff_eq_none]

theorem nulFree_nestedLoop {code : CString} {tm : List Byte} (h : nestedLoop E code = some tm) :
    ∀ c ∈ tm, c ≠ 0 := by
  obtain ⟨x, hx, rfl⟩ := Option.map_eq_some_iff.mp h
  rw [embeddedLoop_eq_run _ ((), code.val)] at hx
  obtain ⟨y, hy, hdone⟩ := (describes_nested E).done_of_run code.property hx
  exact (round_done hdone).1 ▸ hy

theorem mapM_eq_none_iff {α β : Type} {f : α → Option β} {l : List α} :
    l.mapM f = none ↔ ∃ a ∈ l, f a = none := by
  induction l with
  | nil => exact iff_of_false (by rintro ⟨⟩) (by simp)
  | cons a l ih =>
      rw [List.mapM_cons, List.exists_mem_cons_iff, ← ih]
      cases hf : f a with
      | none => exact iff_of_true rfl (.inl rfl)
      | some b =>
          cases hl : l.mapM f with
          | none => exact iff_of_true rfl (.inr rfl)
          | some bs => exact iff_of_false (by rintro ⟨⟩) (by simp)

/-- The variables are replaced one after the other. -/
theorem replaceVariables_eq_some {vars : Hash (List Byte)} (hvars : Variables vars) {tm : List Byte}
    (htm : ∀ c ∈ tm, c ≠ 0) : ∃ tm', ((replaceText tm (lit "$argnum") (lit "1") DOH_REPLACE_ANY).bind fun tm =>
      vars.nodes.foldlM (fun tm n => replaceText tm n.key n.object DOH_REPLACE_ANY) tm) = some tm' := by
  have hargnum : lit "$argnum" ≠ [] := by decide
  have hone : ∀ c ∈ lit "1", c ≠ 0 := fun _ hc => ne_of_mem_of_not_mem hc (by decide)
  rw [replaceText_any hargnum hone htm, Option.bind_some]
  have hloop : ∃ tm', vars.nodes.foldlM (fun tm n => replaceText tm n.key n.object DOH_REPLACE_ANY)
      (replacedAll (lit "$argnum") (lit "1") tm) = some tm' ∧ ∀ c ∈ tm', c ≠ 0 :=
    foldlM_of_invariant (fun tm => ∀ c ∈ tm, c ≠ 0) (nulFree_replacedAll hargnum hone htm) fun n tm hn htm =>
      ⟨_, replaceText_any (hvars.node hn).1 (hvars.node hn).2 htm,
        nulFree_replacedAll (hvars.node hn).1 (hvars.node hn).2 htm⟩
  exact hloop.imp fun tm' h => h.1

theorem option_mapM_eq_none_iff {α β : Type} {f : α → Option β} {o : Option α} :
    o.mapM f = none ↔ ∃ a ∈ o.toList, f a = none := by
  cases o with
  | none => exact iff_of_false (by rintro ⟨⟩) (by simp)
  | some a =>
      simp only [Option.toList_some, List.mem_singleton, exists_eq_left]
      exact Option.map_eq_none_iff

theorem findCode_eq_none_iff {st : σ} {method : List Byte} {p : E.ParmList} {vars : Hash (List Byte)}
    (hvars : Variables vars) : findCode E st method p vars = none ↔
      ∃ code ∈ (E.attach_parms st method p).1.code.toList ++ (E.attach_parms st method p).1.others,
        ¬Quoted code.val := by
  rw [findCode]
  rcases E.attach_parms st method p with ⟨⟨code, others, next⟩, st₁⟩
  have hcodes : (∃ c ∈ code.toList ++ others, ¬Quoted c.val) ↔
      code.mapM (nestedLoop E) = none ∨ others.mapM (nestedLoop E) = none := by
    rw [option_mapM_eq_none_iff, mapM_eq_none_iff, ← exists_or]
    simp only [List.mem_append, or_and_right, nestedLoop_eq_none_iff]
  refine Iff.trans ?_ hcodes.symm
  cases hcode : code.mapM (nestedLoop E) with
  | none => exact iff_of_true (by simp [hcode]) (.inl rfl)
  | some tm =>
      cases hothers : others.mapM (nestedLoop E) with
      | none => exact iff_of_true (by simp [hcode, hothers]) (.inr rfl)
      | some tms =>
          refine iff_of_false ?_ (by simp)
          simp only [hcode, hothers, Option.bind_eq_bind, Option.bind_some]
          cases tm with
          | none => rintro ⟨⟩
          | some tm =>
              cases next with
              | true => rintro ⟨⟩
              | false =>
                  have htm : ∀ c ∈ tm, c ≠ 0 := by
                    cases code with
                    | none => cases hcode
                    | some code =>
                        obtain ⟨tm', htm', heq⟩ := Option.map_eq_some_iff.mp hcode
                        exact Option.some.inj heq ▸ nulFree_nestedLoop E htm'
                  obtain ⟨tm', htm'⟩ := replaceVariables_eq_some hvars htm
                  obtain ⟨tm₁, htm₁, hvarsReplaced⟩ := Option.bind_eq_some_iff.mp htm'
                  dsimp only
                  rw [htm₁, Option.bind_some, hvarsReplaced]
                  rintro ⟨⟩

theorem nulFree_findCode {st st' : σ} {method tm : List Byte} {p : E.ParmList} {vars : Hash (List Byte)}
    (h : findCode E st method p vars = some (some tm, st')) : ∀ c ∈ tm, c ≠ 0 := by
  rw [findCode] at h
  obtain ⟨code', -, h⟩ := Option.bind_eq_some_iff.mp h
  obtain ⟨others', -, h⟩ := Option.bind_eq_some_iff.mp h
  split at h
  · obtain ⟨tm₁, -, h⟩ := Option.bind_eq_some_iff.mp h
    obtain ⟨tm₂, -, h⟩ := Option.bind_eq_some_iff.mp h
    obtain ⟨heq, -⟩ := Prod.mk.inj (Option.some.inj h)
    exact Option.some.inj heq ▸ (E.replaceSpecialVariables _ method tm₂ p).1.property
  · cases h

theorem nulFree_answer {st st' : σ} {d tm : List Byte} {closed : Bool}
    (h : answer E.cparse_parms (findCode E) st d closed = some (some tm, st')) : ∀ c ∈ tm, c ≠ 0 := by
  rw [answer] at h
  split at h
  · obtain ⟨l, -, h⟩ := Option.bind_eq_some_iff.mp h
    split at h
    · split at h
      · exact nulFree_findCode E h
      · cases h
    · cases h
  · cases h

theorem answer_eq_none_iff {st : σ} {d : List Byte} (hd : ∀ c ∈ d, c ≠ 0) (closed : Bool) :
    answer E.cparse_parms (findCode E) st d closed = none ↔ closed = true ∧ (splitEmbeddedTypemap d = none ∨
      ∃ method p vars, Asks E d method p vars ∧
        ∃ code ∈ (E.attach_parms st method p).1.code.toList ++ (E.attach_parms st method p).1.others,
          ¬Quoted code.val) := by
  cases closed with
  | false => exact iff_of_false (by rintro ⟨⟩) fun h => by cases h.1
  | true =>
      rw [answer, if_pos rfl, and_iff_right rfl, substitution]
      cases hsplit : splitEmbeddedTypemap d with
      | none => exact iff_of_true rfl (.inl rfl)
      | some l =>
          rw [Option.bind_some, or_iff_right (by rintro ⟨⟩)]
          have hl := nulFree_splitEmbeddedTypemap hd hsplit
          split
          · rename_i method parms extra
            split
            · rename_i p vars hp hv
              have hvars : Variables vars := by
                have hall : Variables (extraVariables extra newHash true).1 :=
                  variables_extraVariables variables_newHash
                    (fun a ha => hl a (List.mem_cons_of_mem _ (List.mem_cons_of_mem _ ha))) true
                rwa [hv] at hall
              rw [findCode_eq_none_iff E hvars]
              constructor
              · exact fun h => ⟨method, p, vars, .mk hsplit hp hv, h⟩
              · rintro ⟨_, _, _, ⟨hsplit', hp', hv'⟩, h⟩
                cases hsplit.symm.trans hsplit'
                cases hp.symm.trans hp'
                exact h
            · rename_i hno
              refine iff_of_false (by rintro ⟨⟩) ?_
              rintro ⟨_, _, _, ⟨hsplit', hp', hv'⟩, -⟩
              cases hsplit.symm.trans hsplit'
              exact hno _ _ hp' hv'
          · rename_i hno
            refine iff_of_false (by rintro ⟨⟩) ?_
            rintro ⟨_, _, _, ⟨hsplit', hp', hv'⟩, -⟩
            cases hsplit.symm.trans hsplit'
            exact hno _ _ _ rfl

/-! ### All rounds -/

theorem overruns_iff {st : σ} {s d : List Byte} {closed : Bool} (hs : ∀ c ∈ s, c ≠ 0)
    (h : firstTypemap s = some (d, closed)) :
    Overruns E (st, s) ↔ answer E.cparse_parms (findCode E) st d closed = none := by
  rw [answer_eq_none_iff E (nulFree_firstTypemap hs h)]
  constructor
  · rintro (⟨d', h', hsplit⟩ | ⟨d', method, p, vars, h', hasks, hcode⟩)
    · cases h.symm.trans h'
      exact ⟨rfl, .inl hsplit⟩
    · cases h.symm.trans h'
      exact ⟨rfl, .inr ⟨method, p, vars, hasks, hcode⟩⟩
  · rintro ⟨rfl, hsplit | ⟨method, p, vars, hasks, hcode⟩⟩
    · exact .inl ⟨d, h, hsplit⟩
    · exact .inr ⟨d, method, p, vars, h, hasks, hcode⟩

theorem describes_embedded : Describes (round E.cparse_parms (findCode E)) (fun x => ∀ c ∈ x.2, c ≠ 0) (Rewrites E)
    (Overruns E) := by
  have hround {st : σ} {s d : List Byte} {closed : Bool} (hs : ∀ c ∈ s, c ≠ 0)
      (h : firstTypemap s = some (d, closed)) : round E.cparse_parms (findCode E) (st, s) = _ :=
    round_some hs h fun tm st' h' => nulFree_answer E h'
  constructor
  · rintro ⟨st, s⟩ ⟨st', s'⟩ hs hno
    cases hfirst : firstTypemap s with
    | none =>
        rw [round_none hfirst]
        refine iff_of_false (by rintro ⟨⟩) ?_
        rintro ⟨h, -⟩
        cases hfirst.symm.trans h
    | some q =>
        obtain ⟨d, closed⟩ := q
        rw [hround hs hfirst]
        cases hanswer : answer E.cparse_parms (findCode E) st d closed with
        | none => exact absurd ((overruns_iff E hs hfirst).mpr hanswer) hno
        | some r =>
            obtain ⟨tm, st₁⟩ := r
            constructor
            · intro h
              obtain ⟨rfl, rfl⟩ := Prod.mk.inj (Round.next.inj h)
              exact .mk hfirst hanswer
            · rintro ⟨h, htm⟩
              cases hfirst.symm.trans h
              cases hanswer.symm.trans htm
              rfl
  · rintro ⟨st, s⟩ hs
    cases hfirst : firstTypemap s with
    | none =>
        rw [round_none hfirst]
        refine iff_of_false (by rintro ⟨⟩) ?_
        rintro (⟨d, h, -⟩ | ⟨d, method, p, vars, h, -⟩)
        · cases hfirst.symm.trans h
        · cases hfirst.symm.trans h
    | some q =>
        obtain ⟨d, closed⟩ := q
        rw [hround hs hfirst, overruns_iff E hs hfirst]
        cases hanswer : answer E.cparse_parms (findCode E) st d closed with
        | none => exact iff_of_true rfl rfl
        | some r => exact iff_of_false (by rintro ⟨⟩) (by rintro ⟨⟩)
  · rintro _ _ hs ⟨hfirst, htm⟩
    refine nulFree_rewritten (ne_nil_of_marker (firstTypemap_spec hfirst).1) hs ?_
    rintro t rfl
    exact nulFree_answer E htm

/-- All markers are replaced, with every access inside of the texts, if and only if no string runs over the end of
its text, and code that makes markers is not put in without end. -/
theorem replaceEmbeddedTypemap_returns_iff (st : σ) (s : CString) :
    (∃ x, Returns (fun fuel => replaceEmbeddedTypemap E fuel st s.val) x ∧ occurrences marker x.2 = 0) ↔
      (∀ x, ReflTransGen (Rewrites E) (st, s.val) x → ¬Overruns E x) ∧
        Acc (fun y x => Raises (Rewrites E) (fun x => occurrences marker x.2) x y) (st, s.val) := by
  have hloop (fuel : ℕ) : replaceEmbeddedTypemap E fuel st s.val =
      Rounds.run (round E.cparse_parms (findCode E)) fuel (st, s.val) := embeddedLoop_eq_run fuel (st, s.val)
  rw [← Rounds.acc_iff_raises, ← (describes_embedded E).returns_iff s.property]
  simp only [hloop]
  constructor
  · rintro ⟨x, hx, -⟩
    exact ⟨x, hx⟩
  · rintro ⟨x, N, hN⟩
    obtain ⟨y, -, hy⟩ := (describes_embedded E).done_of_run s.property (hN N (Nat.le_refl N))
    obtain ⟨rfl, hfirst⟩ := round_done hy
    exact ⟨x, ⟨N, hN⟩, occurrences_eq_zero ((indexOf_spec marker x.2).2 (Option.map_eq_none_iff.mp hfirst))⟩

/-- A parser that knows `int`. -/
def intNames : CParse.Descriptor.TypeNames where
  SwigType := Unit
  cparse_type s := if s = lit "int" then some () else none
  manglestr _ := lit "_int"
  isIdent_manglestr _ _ hc := List.all_eq_true.mp (by decide) _ hc

/-- A typemap store without typemaps. -/
def noTypemaps : Environment Unit where
  ParmList := Unit
  cparse_parms s := if s = lit "int" then some () else none
  attach_parms st _ _ := (⟨none, [], false⟩, st)
  replaceSpecialVariables st _ _ _ := (⟨[], by simp⟩, st)

end Swig.Typemap.Embedded
