import Swig.Lib.Fuel
import Swig.Lib.Walks
import Swig.SType.ArrayType
import Mathlib.Data.Fintype.Card

/-!
`_symbol_lookup` (`symbol.c`): the search for a name in a symbol table and in the scopes
it inherits from, with a mark on each table that is being searched. A plain name is looked
up in every graph of scopes; the branch for templates clears the mark before the search
goes on, and a template nothing is known about is searched for along a cycle for ever.
-/

namespace Swig.Symbol

open SType Fuel Walks Relation

/-! ### The search -/

/-- The marks of the tables, and what `Swig_symbol_template_deftype` remembers. -/
structure Marked (Table Memory : Type) where
  marks : Table → Bool
  memory : Memory

/-- A set of symbol tables with a function `check`. `Swig_symbol_template_deftype` sees the marks
and leaves them as they are, and it may not return; some template is known to no table, and
its name is left as it is. -/
structure Scopes (Table Node Memory : Type) where
  csymtab : Table → SwigType → Option Node
  inherit : Table → List Table
  check : Option (Node → ℤ)
  deftype : (Table → Bool) → Memory → SwigType → Table → Option (SwigType × Memory)
  unknown : ∃ name, istemplate name ∧ ∀ t, csymtab t name = none ∧
    ∀ marks w, ∃ w', deftype marks w name t = some (name, w')

section

variable {Table Node Memory : Type} [DecidableEq Table]

/-- `Setmark(symtab, v)`. -/
def Marked.setmark (st : Marked Table Memory) (t : Table) (v : Bool) : Marked Table Memory :=
  { st with marks := Function.update st.marks t v }

/-- The node that was found, or else the `next` search. -/
def orNext (found : Option (Option Node × Marked Table Memory))
    (next : Marked Table Memory → Option (Option Node × Marked Table Memory)) :
    Option (Option Node × Marked Table Memory) :=
  found.bind fun r =>
    match r.1 with
    | some _ => some r
    | none => next r.2

/-- The loop over the inherited scopes. -/
def searchInherits (call : Marked Table Memory → Table → Option (Option Node × Marked Table Memory)) :
    List Table → Marked Table Memory → Option (Option Node × Marked Table Memory)
  | [], st => some (none, st)
  | u :: us, st => orNext (call st u) fun st => searchInherits call us st

namespace Scopes

variable (S : Scopes Table Node Memory)

/-- `_symbol_lookup`, `k` calls deep. -/
def lookup : ℕ → Marked Table Memory → SwigType → Table → Option (Option Node × Marked Table Memory)
  | 0, _, _, _ => none
  | k + 1, st, name, t =>
      if st.marks t then some (none, st)
      else
        let st := st.setmark t true
        let inherited := fun st =>
          (searchInherits (fun st u => lookup k st name u) (S.inherit t) st).map fun r => (r.1, r.2.setmark t false)
        match S.csymtab t name with
        | some n =>
            match S.check with
            | some check =>
                if check n = 1 then some (some n, st.setmark t false)
                else if check n < 0 then some (none, st.setmark t false)
                else inherited st
            | none => some (some n, st.setmark t false)
        | none =>
            if istemplate name then
              let st := st.setmark t false
              (S.deftype st.marks st.memory name t).bind fun (dname, memory) =>
                let st := { st with memory := memory }
                orNext (if dname ≠ name then lookup k st dname t else some (none, st)) inherited
            else inherited st

/-- `t` inherits from `u`. -/
def Inherits (t u : Table) : Prop := u ∈ S.inherit t

/-- The search returns, and the marks are what they were. -/
def Restores (st : Marked Table Memory) (name : SwigType) (t : Table) : Prop :=
  ∃ r, Returns (fun k => S.lookup k st name t) r ∧ r.2.marks = st.marks

/-- Default arguments are applied to a name at a table until it is found there or stays as it is. -/
inductive Settles (t : Table) (marks : Table → Bool) : Memory → SwigType → Prop
  | plain {w : Memory} {name : SwigType} (h : istemplate name = false) : Settles t marks w name
  | found {w : Memory} {name : SwigType} {n : Node} (h : S.csymtab t name = some n) : Settles t marks w name
  | same {w w' : Memory} {name : SwigType} (h : S.deftype marks w name t = some (name, w')) : Settles t marks w name
  | more {w w' : Memory} {name dname : SwigType} (h : S.deftype marks w name t = some (dname, w'))
      (hmore : Settles t marks w' dname) : Settles t marks w name

end Scopes

variable {S : Scopes Table Node Memory} {st st' : Marked Table Memory} {name : SwigType} {t u : Table} {k : ℕ}
  {r : Option Node × Marked Table Memory}

/-! ### Marks -/

theorem unmark_mark (h : st.marks t = false) (hst : st'.marks = (st.setmark t true).marks) :
    (st'.setmark t false).marks = st.marks := by
  show Function.update st'.marks t false = st.marks
  rw [hst, Marked.setmark, Function.update_idem, ← h, Function.update_eq_self]

theorem unmark_same (h : st.marks t = false) (hst : st'.marks = st.marks) : (st'.setmark t false).marks = st.marks := by
  show Function.update st'.marks t false = st.marks
  rw [hst, ← h, Function.update_eq_self]

omit [DecidableEq Table] in
theorem orNext_eq_some {found : Option (Option Node × Marked Table Memory)}
    {next : Marked Table Memory → Option (Option Node × Marked Table Memory)} (h : orNext found next = some r) :
    ∃ s, found = some s ∧ (r = s ∧ s.1 ≠ none ∨ s.1 = none ∧ next s.2 = some r) := by
  obtain ⟨s, hs, hrest⟩ := Option.bind_eq_some_iff.mp h
  refine ⟨s, hs, ?_⟩
  cases hfound : s.1 with
  | some n =>
      rw [hfound] at hrest
      exact .inl ⟨(Option.some.inj hrest).symm, by simp⟩
  | none =>
      rw [hfound] at hrest
      exact .inr ⟨rfl, hrest⟩

omit [DecidableEq Table] in
theorem searchInherits_none {call : Marked Table Memory → Table → Option (Option Node × Marked Table Memory)}
    (hcall : ∀ st u r, call st u = some r → r.1 = none) {us : List Table}
    (h : searchInherits call us st = some r) : r.1 = none := by
  induction us generalizing st with
  | nil =>
      obtain rfl := Option.some.inj h
      rfl
  | cons u us ih =>
      obtain ⟨s, hs, ⟨rfl, -⟩ | ⟨-, hrest⟩⟩ := orNext_eq_some h
      · exact hcall st u r hs
      · exact ih hrest

omit [DecidableEq Table] in
/-- A scope whose search never returns is got to, if nothing is found before it. -/
theorem searchInherits_stuck {call : Marked Table Memory → Table → Option (Option Node × Marked Table Memory)}
    {us : List Table} (hu : u ∈ us)
    (hcall : ∀ st u r, call st u = some r → r.1 = none ∧ r.2.marks = st.marks)
    (hstuck : ∀ st' : Marked Table Memory, st'.marks = st.marks → call st' u = none) :
    searchInherits call us st = none := by
  by_contra h
  obtain ⟨r, hr⟩ := Option.ne_none_iff_exists'.mp h
  induction us generalizing st with
  | nil => cases hu
  | cons v us ih =>
      obtain ⟨s, hs, hrest⟩ := orNext_eq_some hr
      obtain ⟨hnone, hmarks⟩ := hcall st v s hs
      obtain rfl | hu := List.mem_cons.mp hu
      · rw [hstuck st rfl] at hs
        cases hs
      · obtain ⟨-, hsome⟩ | ⟨-, hrest⟩ := hrest
        · exact hsome hnone
        · exact ih hu (fun st' hst => hstuck st' (hst.trans hmarks)) (by simp [hrest]) hrest

omit [DecidableEq Table] in
theorem searchInherits_marks {call : Marked Table Memory → Table → Option (Option Node × Marked Table Memory)}
    (hcall : ∀ st u r, call st u = some r → r.2.marks = st.marks) {us : List Table}
    (h : searchInherits call us st = some r) : r.2.marks = st.marks := by
  induction us generalizing st with
  | nil =>
      obtain rfl := Option.some.inj h
      rfl
  | cons u us ih =>
      obtain ⟨s, hs, ⟨rfl, -⟩ | ⟨-, hrest⟩⟩ := orNext_eq_some h
      · exact hcall st u r hs
      · exact (ih hrest).trans (hcall st u s hs)

namespace Scopes

/-- How a search ends: at a marked table, with what the table itself says, behind the inherited
scopes, or by way of the template's default arguments. -/
theorem lookup_cases (h : S.lookup (k + 1) st name t = some r) :
    (st.marks t ∧ r = (none, st)) ∨
    (st.marks t = false ∧ (S.csymtab t name).isSome ∧ r.2 = (st.setmark t true).setmark t false) ∨
    (st.marks t = false ∧ (istemplate name = false ∨ (S.csymtab t name).isSome) ∧
      ∃ s, searchInherits (fun st u => S.lookup k st name u) (S.inherit t) (st.setmark t true) = some s ∧
        r = (s.1, s.2.setmark t false)) ∨
    (st.marks t = false ∧ istemplate name ∧ S.csymtab t name = none ∧
      ∃ dname w', S.deftype st.marks st.memory name t = some (dname, w') ∧
        orNext (if dname ≠ name then S.lookup k ⟨st.marks, w'⟩ dname t else some (none, ⟨st.marks, w'⟩))
          (fun st => (searchInherits (fun st u => S.lookup k st name u) (S.inherit t) st).map
            fun r => (r.1, r.2.setmark t false)) = some r) := by
  rw [lookup] at h
  by_cases hmark : st.marks t
  · rw [if_pos hmark] at h
    exact .inl ⟨hmark, (Option.some.inj h).symm⟩
  have hfree : st.marks t = false := by simpa using hmark
  rw [if_neg hmark] at h
  dsimp only at h
  refine .inr ?_
  cases hsym : S.csymtab t name with
  | some n =>
      have hinherited (h : (searchInherits (fun st u => S.lookup k st name u) (S.inherit t)
          (st.setmark t true)).map (fun r => (r.1, r.2.setmark t false)) = some r) :
          ∃ s, searchInherits (fun st u => S.lookup k st name u) (S.inherit t) (st.setmark t true) = some s ∧
            r = (s.1, s.2.setmark t false) := by
        obtain ⟨s, hs, rfl⟩ := Option.map_eq_some_iff.mp h
        exact ⟨s, hs, rfl⟩
      rw [hsym] at h
      dsimp only at h
      split at h
      · split at h
        · obtain rfl := Option.some.inj h
          exact .inl ⟨hfree, rfl, rfl⟩
        · split at h
          · obtain rfl := Option.some.inj h
            exact .inl ⟨hfree, rfl, rfl⟩
          · exact .inr (.inl ⟨hfree, .inr rfl, hinherited h⟩)
      · obtain rfl := Option.some.inj h
        exact .inl ⟨hfree, rfl, rfl⟩
  | none =>
      rw [hsym] at h
      dsimp only at h
      by_cases htemplate : istemplate name
      · rw [if_pos htemplate] at h
        obtain ⟨⟨dname, w'⟩, hd, hrest⟩ := Option.bind_eq_some_iff.mp h
        have hmarks : ((st.setmark t true).setmark t false).marks = st.marks := unmark_mark hfree rfl
        rw [hmarks] at hd hrest
        exact .inr (.inr ⟨hfree, htemplate, rfl, dname, w', hd, hrest⟩)
      · rw [if_neg htemplate] at h
        obtain ⟨s, hs, rfl⟩ := Option.map_eq_some_iff.mp h
        exact .inr (.inl ⟨hfree, .inl (by simpa using htemplate), s, hs, rfl⟩)

/-- A search that returns has restored the marks. -/
theorem lookup_marks (h : S.lookup k st name t = some r) : r.2.marks = st.marks := by
  induction k generalizing st name t r with
  | zero => cases h
  | succ k ih =>
      have hsearch {st' : Marked Table Memory} {s : Option Node × Marked Table Memory}
          (hs : searchInherits (fun st u => S.lookup k st name u) (S.inherit t) st' = some s) :
          s.2.marks = st'.marks := searchInherits_marks (fun _ _ _ hr => ih hr) hs
      obtain ⟨-, rfl⟩ | ⟨hfree, -, hr⟩ | ⟨hfree, -, s, hs, rfl⟩ | ⟨hfree, -, -, dname, w', -, hor⟩ := lookup_cases h
      · rfl
      · rw [hr]
        exact unmark_mark hfree rfl
      · exact unmark_mark hfree (hsearch hs)
      · obtain ⟨s, hs, hrest⟩ := orNext_eq_some hor
        have hmarks : s.2.marks = st.marks := by
          split at hs
          · exact (ih hs :)
          · obtain rfl := Option.some.inj hs
            rfl
        obtain ⟨rfl, -⟩ | ⟨-, hnext⟩ := hrest
        · exact hmarks
        · obtain ⟨r, hr, rfl⟩ := Option.map_eq_some_iff.mp hnext
          exact unmark_same hfree ((hsearch hr).trans hmarks)

/-- Where a search returns, the default arguments came to an end. -/
theorem settles_of_lookup (h : S.lookup k st name t = some r) (hfree : st.marks t = false) :
    S.Settles t st.marks st.memory name := by
  induction k generalizing st name r with
  | zero => cases h
  | succ k ih =>
      obtain ⟨hmark, -⟩ | ⟨-, hsym, -⟩ | ⟨-, hplain | hsym, -⟩ | ⟨-, -, -, dname, w', hd, hor⟩ := lookup_cases h
      · rw [hfree] at hmark
        cases hmark
      · obtain ⟨n, hn⟩ := Option.isSome_iff_exists.mp hsym
        exact .found hn
      · exact .plain hplain
      · obtain ⟨n, hn⟩ := Option.isSome_iff_exists.mp hsym
        exact .found hn
      · obtain ⟨s, hs, -⟩ := orNext_eq_some hor
        by_cases hname : dname = name
        · exact .same (hname ▸ hd)
        · rw [if_pos hname] at hs
          exact .more hd (ih hs hfree)

/-! ### Searches that return -/

omit [DecidableEq Table] in
theorem orNext_returns {found : ℕ → Option (Option Node × Marked Table Memory)}
    {next : ℕ → Marked Table Memory → Option (Option Node × Marked Table Memory)}
    {s : Option Node × Marked Table Memory} (hfound : Returns found s)
    (hnext : ∃ r, Returns (fun k => next k s.2) r) : ∃ r, Returns (fun k => orNext (found k) (next k)) r := by
  obtain ⟨o, st⟩ := s
  cases o with
  | some n => exact ⟨_, hfound.bind (.const (some n, st))⟩
  | none =>
      obtain ⟨r, hr⟩ := hnext
      exact ⟨r, hfound.bind hr⟩

omit [DecidableEq Table] in
theorem searchInherits_returns {call : ℕ → Marked Table Memory → Table → Option (Option Node × Marked Table Memory)}
    (hmarks : ∀ k st u r, call k st u = some r → r.2.marks = st.marks) {us : List Table}
    (hcall : ∀ u ∈ us, ∀ st' : Marked Table Memory, st'.marks = st.marks → ∃ r, Returns (fun k => call k st' u) r) :
    ∃ r, Returns (fun k => searchInherits (call k) us st) r := by
  induction us generalizing st with
  | nil => exact ⟨(none, st), .const _⟩
  | cons u us ih =>
      obtain ⟨s, N, hN⟩ := hcall u List.mem_cons_self st rfl
      have hsame := hmarks N st u s (hN N le_rfl)
      have hrest : ∃ r, Returns (fun k => searchInherits (call k) us s.2) r :=
        ih fun v hv st' hst => hcall v (List.mem_cons_of_mem u hv) st' (hst.trans hsame)
      exact orNext_returns ⟨N, hN⟩ hrest

/-- A search returns if those inside it do. -/
theorem lookup_returns
    (hinherits : ∀ u ∈ S.inherit t, ∀ st' : Marked Table Memory,
      st'.marks = (st.setmark t true).marks ∨ istemplate name ∧ st'.marks = st.marks →
        ∃ r, Returns (fun k => S.lookup k st' name u) r)
    (hdeftype : istemplate name → st.marks t = false → S.csymtab t name = none →
      ∃ dname w', S.deftype st.marks st.memory name t = some (dname, w') ∧
        (dname ≠ name → ∃ r, Returns (fun k => S.lookup k ⟨st.marks, w'⟩ dname t) r)) :
    ∃ r, Returns (fun k => S.lookup k st name t) r := by
  suffices hround : ∃ r, Returns (fun k => S.lookup (k + 1) st name t) r from
    hround.imp fun r hr => hr.of_succ
  simp only [lookup]
  by_cases hmark : st.marks t
  · simp only [if_pos hmark]
    exact ⟨_, .const _⟩
  have hfree : st.marks t = false := by simpa using hmark
  have hinherited {st' : Marked Table Memory}
      (hst : st'.marks = (st.setmark t true).marks ∨ istemplate name ∧ st'.marks = st.marks) :
      ∃ r, Returns (fun k => (searchInherits (fun st u => S.lookup k st name u) (S.inherit t) st').map
        fun r => (r.1, r.2.setmark t false)) r := by
    have hsearch : ∃ r, Returns (fun k => searchInherits (fun st u => S.lookup k st name u) (S.inherit t) st') r :=
      searchInherits_returns (fun _ _ _ _ => S.lookup_marks) fun u hu st'' hst' => hinherits u hu st'' (by rwa [hst'])
    obtain ⟨r, hr⟩ := hsearch
    exact ⟨_, hr.map _⟩
  simp only [if_neg hmark]
  cases hsym : S.csymtab t name with
  | some n =>
      dsimp only
      cases S.check with
      | some check =>
          dsimp only
          split
          · exact ⟨_, .const _⟩
          · split
            · exact ⟨_, .const _⟩
            · exact hinherited (.inl rfl)
      | none => exact ⟨_, .const _⟩
  | none =>
      dsimp only
      by_cases htemplate : istemplate name
      · have hmarks : ((st.setmark t true).setmark t false).marks = st.marks := unmark_mark hfree rfl
        obtain ⟨dname, w', hd, hmore⟩ := hdeftype htemplate hfree hsym
        have hd : S.deftype st.marks ((st.setmark t true).setmark t false).memory name t = some (dname, w') := hd
        simp only [if_pos htemplate, hmarks, hd, Option.bind_some]
        by_cases hname : dname = name
        · simp only [ne_eq, hname, not_true_eq_false, if_false]
          have hmarks : (⟨st.marks, w'⟩ : Marked Table Memory).marks = st.marks := rfl
          exact orNext_returns (s := (none, ⟨st.marks, w'⟩)) (.const _) (hinherited (.inr ⟨htemplate, hmarks⟩))
        · simp only [ne_eq, hname, not_false_eq_true, if_true]
          obtain ⟨s, N, hN⟩ := hmore hname
          have hmarks : s.2.marks = st.marks := (S.lookup_marks (hN N le_rfl) :)
          exact orNext_returns ⟨N, hN⟩ (hinherited (.inr ⟨htemplate, hmarks⟩))
      · simp only [if_neg htemplate]
        exact hinherited (.inl rfl)

theorem lookup_marked (hmark : st.marks t) : S.lookup (k + 1) st name t = some (none, st) := by
  rw [lookup, if_pos hmark]

theorem restores_of_returns (h : ∃ r, Returns (fun k => S.lookup k st name t) r) : S.Restores st name t := by
  obtain ⟨r, N, hN⟩ := h
  exact ⟨r, ⟨N, hN⟩, S.lookup_marks (hN N le_rfl)⟩

/-- A plain name: a table is marked while its inherited scopes are searched, and there are
only so many tables without a mark. -/
theorem lookup_plain [Fintype Table] (hname : istemplate name = false) :
    ∃ r, Returns (fun k => S.lookup k st name t) r := by
  induction hn : (Finset.univ.filter fun u => st.marks u = false).card using Nat.strong_induction_on
    generalizing st t with
  | _ n ih =>
      have hplain : ¬istemplate name := by simp [hname]
      by_cases hmark : st.marks t
      · exact ⟨_, Returns.of_succ ⟨0, fun k _ => lookup_marked hmark⟩⟩
      refine lookup_returns (fun u _ st' hst => ?_) fun h => absurd h hplain
      obtain hst | ⟨h, -⟩ := hst
      · refine ih _ ?_ rfl
        rw [← hn, hst]
        refine Finset.card_lt_card ⟨fun v hv => ?_, fun hsub => ?_⟩
        · have hv := (Finset.mem_filter.mp hv).2
          refine Finset.mem_filter.mpr ⟨Finset.mem_univ v, ?_⟩
          by_cases hvt : v = t
          · simp [Marked.setmark, hvt] at hv
          · simpa [Marked.setmark, hvt] using hv
        · have ht := hsub (Finset.mem_filter.mpr ⟨Finset.mem_univ t, by simpa using hmark⟩)
          simpa [Marked.setmark] using (Finset.mem_filter.mp ht).2
      · exact absurd h hplain

/-- Any name, where no table is inherited from again. -/
theorem lookup_acyclic [Fintype Table] (hacyclic : Acyclic S.Inherits t)
    (hsettles : ∀ u, ReflTransGen S.Inherits t u → ∀ marks w name, marks u = false →
      S.Settles u marks w name) :
    ∃ r, Returns (fun k => S.lookup k st name t) r := by
  induction hacyclic.acc generalizing st name with
  | intro t _ ih =>
      have hinherits (st : Marked Table Memory) (name : SwigType) (u : Table) (hu : u ∈ S.inherit t) :
          ∃ r, Returns (fun k => S.lookup k st name u) r :=
        ih u hu (hacyclic.of_rel hu) fun v hv => hsettles v (.head hu hv)
      by_cases hmark : st.marks t
      · exact ⟨_, Returns.of_succ ⟨0, fun k _ => lookup_marked hmark⟩⟩
      have hfree : st.marks t = false := by simpa using hmark
      obtain ⟨marks, w⟩ := st
      induction hsettles t .refl marks w name hfree with
      | plain h =>
          exact lookup_returns (fun u hu st' _ => hinherits st' _ u hu) fun htemplate => by simp [h] at htemplate
      | found h =>
          exact lookup_returns (fun u hu st' _ => hinherits st' _ u hu) fun _ _ hnone => by simp [h] at hnone
      | same h =>
          exact lookup_returns (fun u hu st' _ => hinherits st' _ u hu)
            fun _ _ _ => ⟨_, _, h, fun hne => absurd rfl hne⟩
      | more h _ ihmore =>
          exact lookup_returns (fun u hu st' _ => hinherits st' _ u hu)
            fun _ _ _ => ⟨_, _, h, fun _ => ihmore hmark hfree⟩

/-! ### Cycles -/

/-- The name of a template that nothing is known about. -/
def Unknown (S : Scopes Table Node Memory) (name : SwigType) : Prop :=
  istemplate name ∧ ∀ t, S.csymtab t name = none ∧ ∀ marks w, ∃ w', S.deftype marks w name t = some (name, w')

/-- At a table without a mark the search for an unknown template is the search of the inherited scopes,
without a mark. -/
theorem lookup_unknown_succ (hname : S.Unknown name) (hfree : st.marks t = false) :
    ∃ w', S.lookup (k + 1) st name t =
      (searchInherits (fun st u => S.lookup k st name u) (S.inherit t) ⟨st.marks, w'⟩).map
        fun r => (r.1, r.2.setmark t false) := by
  obtain ⟨htemplate, hall⟩ := hname
  obtain ⟨hnone, hsame⟩ := hall t
  obtain ⟨w', hd⟩ := hsame st.marks st.memory
  refine ⟨w', ?_⟩
  have hmarks : ((st.setmark t true).setmark t false).marks = st.marks := unmark_mark hfree rfl
  have hd : S.deftype st.marks ((st.setmark t true).setmark t false).memory name t = some (name, w') := hd
  have hmark : ¬st.marks t := by simp [hfree]
  rw [lookup, if_neg hmark]
  simp only [hnone, if_pos htemplate, hmarks, hd, Option.bind_some, ne_eq, not_true_eq_false, if_false]
  rfl

theorem lookup_unknown_none (hname : S.Unknown name) (h : S.lookup k st name t = some r) : r.1 = none := by
  induction k generalizing st t r with
  | zero => cases h
  | succ k ih =>
      by_cases hmark : st.marks t
      · rw [lookup_marked hmark] at h
        obtain rfl := Option.some.inj h
        rfl
      obtain ⟨w', hround⟩ := S.lookup_unknown_succ (k := k) hname (by simpa using hmark)
      rw [hround] at h
      obtain ⟨s, hs, rfl⟩ := Option.map_eq_some_iff.mp h
      exact (searchInherits_none (fun _ _ _ hr => ih hr) hs :)

/-- From a table that a cycle is reached from, the search for an unknown template never returns. -/
theorem lookup_cycle (hname : S.Unknown name) (hst : ∀ u, st.marks u = false) (hcycle : ¬Acyclic S.Inherits t) :
    S.lookup k st name t = none := by
  induction k generalizing st t with
  | zero => rfl
  | succ k ih =>
      obtain ⟨u, hu, hcycle⟩ := exists_of_not_acyclic hcycle
      obtain ⟨w', hround⟩ := S.lookup_unknown_succ (k := k) hname (hst t)
      have hstuck : searchInherits (fun st u => S.lookup k st name u) (S.inherit t) ⟨st.marks, w'⟩ = none :=
        searchInherits_stuck hu (fun _ _ _ hr => ⟨lookup_unknown_none hname hr, lookup_marks hr⟩)
          fun st' hst' => ih (fun v => by rw [hst', hst]) hcycle
      rw [hround, hstuck]
      rfl

end Scopes

end

/-- Two namespaces with a `using namespace` for each other. -/
def usingEachOther : Scopes Bool Unit Unit where
  csymtab _ _ := none
  inherit t := [!t]
  check := none
  deftype _ w name _ := some (name, w)
  unknown := ⟨lit "X<(int)>", rfl, fun _ => ⟨rfl, fun _ w => ⟨w, rfl⟩⟩⟩

end Swig.Symbol
