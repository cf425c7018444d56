import Swig.Typesys.Scopes
import Swig.Lib.Fuel
import Swig.Lib.Marking
import Mathlib.Data.Finset.Card
import Mathlib.Data.Finset.Filter
import Mathlib.Logic.Relation

/-!
Looking a name up in a scope, in the scopes it inherits from and in the scopes
around it. The scopes of the current path are marked, so that a scope is not
entered again while it is searched.
-/

namespace Swig.Typesys

open Swig.DOH Fuel Marking Relation

variable {S : Type} [DecidableEq S]

/-- The marks on the scopes and the static variable `resolved_scope`. -/
structure Resolver (S : Type) where
  mark : S → Bool
  resolved_scope : Option S

def Resolver.setmark (st : Resolver S) (s : S) (x : Bool) : Resolver S :=
  { st with mark := Function.update st.mark s x }

/-- The loop of `_typedef_resolve` over the inherited scopes. -/
def inheritLoop {α : Type} (resolve : S → Resolver S → Option (Option α × Resolver S)) :
    List S → Resolver S → Option (Option α × Resolver S)
  | [], st => some (none, st)
  | s :: ss, st =>
      (resolve s st).bind fun (type, st) =>
        if type.isSome then some (type, st) else inheritLoop resolve ss st

/-- The end of `_typedef_resolve`: what is not found yet is looked for around the scope. -/
def lookParent {α : Type} (resolve : S → Resolver S → Option (Option α × Resolver S)) (s : S) (parent : Option S)
    (look_parent : Bool) (r : Option α × Resolver S) : Option (Option α × Resolver S) :=
  match r.1, look_parent, parent with
  | none, true, some p => (resolve p r.2).map fun r => (r.1, r.2.setmark s false)
  | type, _, _ => some (type, r.2.setmark s false)

/-- `_typedef_resolve`, at most `fuel` calls deep. -/
def typedefResolveMarked (tab : S → Typetab S) (base : List Byte) :
    ℕ → S → Bool → Resolver S → Option (Option (List Byte) × Resolver S)
  | 0, _, _, _ => none
  | fuel + 1, s, look_parent, st =>
      if st.mark s then some (none, st)
      else
        let st := st.setmark s true
        match (tab s).typetab.get base with
        | some type => some (some type, { st with resolved_scope := some s }.setmark s false)
        | none =>
            (inheritLoop (fun c => typedefResolveMarked tab base fuel c false) (tab s).inherit st).bind
              (lookParent (fun p => typedefResolveMarked tab base fuel p true) s (tab s).parent look_parent)

/-- `typedef_resolve`. -/
def typedefResolve (tab : S → Typetab S) (fuel : ℕ) (s : S) (base : List Byte) (st : Resolver S) :
    Option (Option (List Byte) × Resolver S) :=
  typedefResolveMarked tab base fuel s true st

/-! ### What is looked for -/

/-- The scopes that a scope inherits from, itself included. -/
abbrev Inherits (tab : S → Typetab S) (s d : S) : Prop := Reach (fun s => (tab s).inherit) Set.univ s d

/-- `p` is the scope around `s`. -/
def ParentOf (tab : S → Typetab S) (s p : S) : Prop := (tab s).parent = some p

/-- Nothing that the scope inherits from defines the name. -/
def Undefined (tab : S → Typetab S) (base : List Byte) (s : S) : Prop :=
  ∀ d, Inherits tab s d → (tab d).typetab.get base = none

/-- A finite set of scopes whose inherited scopes and parents are in it. -/
structure Closed (tab : S → Typetab S) (scopes : Finset S) : Prop where
  inherit : ∀ s ∈ scopes, ∀ c ∈ (tab s).inherit, c ∈ scopes
  parent : ∀ s ∈ scopes, ∀ p, ParentOf tab s p → p ∈ scopes

/-- No scope is around itself. -/
def Forest (tab : S → Typetab S) : Prop := ∀ s, ¬ TransGen (ParentOf tab) s s

/-- The search from `s` finds the name in `d`: `d` belongs to the innermost
scope `a` around `s` with a definition, and is `a` itself where that defines the name. -/
structure Preferred (tab : S → Typetab S) (base : List Byte) (s a d : S) : Prop where
  around : ReflTransGen (ParentOf tab) s a
  inherits : Inherits tab a d
  own : ((tab a).typetab.get base).isSome → d = a
  innermost : ∀ b, ReflTransGen (ParentOf tab) s b → TransGen (ParentOf tab) b a → Undefined tab base b

/-! ### The search in the inherited scopes -/

variable {tab : S → Typetab S} {base : List Byte} {scopes : Finset S}

/-- The scopes that are not marked. -/
def Resolver.free (st : Resolver S) : Set S := {s | st.mark s = false}

/-- What a search through free scopes from `s` came to. -/
structure Looked (tab : S → Typetab S) (base : List Byte) (s : S) (st : Resolver S)
    (r : Option (List Byte) × Resolver S) : Prop where
  mark : r.2.mark = st.mark
  found : ∀ t, r.1 = some t → s ∈ st.free ∧ ∃ d, r.2.resolved_scope = some d ∧
    (tab d).typetab.get base = some t ∧ Reach (fun s => (tab s).inherit) st.free s d
  missed : r.1 = none → r.2 = st ∧
    (s ∈ st.free → ∀ d, Reach (fun s => (tab s).inherit) st.free s d → (tab d).typetab.get base = none)

omit [DecidableEq S] in
/-- A loop that goes on while nothing is found and nothing has changed. -/
theorem inheritLoop_returns {α : Type} {f : ℕ → S → Resolver S → Option (Option α × Resolver S)} {st : Resolver S}
    {cs : List S} (h : ∀ c ∈ cs, ∃ r, Returns (fun n => f n c st) r ∧ (r.1 = none → r.2 = st)) :
    ∃ r, Returns (fun n => inheritLoop (f n) cs st) r ∧
      ((r = (none, st) ∧ ∀ c ∈ cs, Returns (fun n => f n c st) (none, st)) ∨
        (r.1.isSome ∧ ∃ c ∈ cs, Returns (fun n => f n c st) r)) := by
  induction cs with
  | nil => exact ⟨(none, st), .const _, .inl ⟨rfl, by simp⟩⟩
  | cons c cs ih =>
      obtain ⟨⟨type, st'⟩, hc, hst⟩ := h c List.mem_cons_self
      cases type with
      | some t =>
          exact ⟨(some t, st'), hc.bind (.const _), .inr ⟨rfl, c, List.mem_cons_self, hc⟩⟩
      | none =>
          have hst' : st' = st := hst rfl
          subst hst'
          obtain ⟨r, hr, hcases⟩ := ih fun c hc => h c (List.mem_cons_of_mem _ hc)
          refine ⟨r, hc.bind hr, ?_⟩
          rcases hcases with ⟨hnone, hall⟩ | ⟨hsome, c', hc', hr'⟩
          · refine .inl ⟨hnone, fun d hd => ?_⟩
            rcases List.mem_cons.mp hd with rfl | hd
            · exact hc
            · exact hall d hd
          · exact .inr ⟨hsome, c', List.mem_cons_of_mem _ hc', hr'⟩

/-- The number of scopes that can still be entered. -/
def Resolver.room (st : Resolver S) (scopes : Finset S) : ℕ := {s ∈ scopes | st.mark s = false}.card

theorem Resolver.room_setmark {st : Resolver S} {s : S} (hs : s ∈ scopes) (hmark : st.mark s = false) :
    (st.setmark s true).room scopes < st.room scopes := by
  refine Finset.card_lt_card ((Finset.ssubset_iff_of_subset ?_).mpr ⟨s, ?_, ?_⟩)
  · intro x hx
    rw [Finset.mem_filter] at hx ⊢
    refine ⟨hx.1, ?_⟩
    by_cases hxs : x = s
    · rw [hxs]
      exact hmark
    · simpa only [setmark, Function.update_of_ne hxs] using hx.2
  · exact Finset.mem_filter.mpr ⟨hs, hmark⟩
  · intro hs'
    have hmark' := (Finset.mem_filter.mp hs').2
    simp [setmark] at hmark'

theorem Resolver.setmark_free (st : Resolver S) (s : S) : (st.setmark s true).free = st.free \ {s} := by
  ext x
  by_cases hxs : x = s
  · subst hxs
    simp [free, setmark]
  · simp [free, setmark, hxs]

/-- A mark that is set and cleared. -/
theorem Resolver.setmark_setmark {st st' : Resolver S} {s : S} (hmark : st.mark s = false)
    (h : st'.mark = (st.setmark s true).mark) : (st'.setmark s false).mark = st.mark := by
  ext x
  by_cases hxs : x = s
  · simp [setmark, hxs, hmark]
  · simp [setmark, Function.update_of_ne hxs, h]

theorem Resolver.setmark_same {st : Resolver S} {s : S} (hmark : st.mark s = false) :
    (st.setmark s true).setmark s false = st := by
  have hst := setmark_setmark hmark (rfl : (st.setmark s true).mark = (st.setmark s true).mark)
  cases st
  exact congrArg (Resolver.mk · _) hst

/-! ### One call -/

section Calls

variable {st : Resolver S} {s : S} {n : ℕ} {look_parent : Bool}

theorem typedefResolveMarked_marked (hmark : st.mark s = true) :
    typedefResolveMarked tab base (n + 1) s look_parent st = some (none, st) := by
  simp [typedefResolveMarked, hmark]

theorem typedefResolveMarked_own {t : List Byte} (hmark : st.mark s = false)
    (hget : (tab s).typetab.get base = some t) :
    typedefResolveMarked tab base (n + 1) s look_parent st =
      some (some t, { st.setmark s true with resolved_scope := some s }.setmark s false) := by
  simp [typedefResolveMarked, hmark, hget]

theorem typedefResolveMarked_search (hmark : st.mark s = false) (hget : (tab s).typetab.get base = none) :
    typedefResolveMarked tab base (n + 1) s look_parent st =
      (inheritLoop (fun c => typedefResolveMarked tab base n c false) (tab s).inherit (st.setmark s true)).bind
        (lookParent (fun p => typedefResolveMarked tab base n p true) s (tab s).parent look_parent) := by
  simp [typedefResolveMarked, hmark, hget]

variable {α : Type} {resolve : ℕ → S → Resolver S → Option (Option α × Resolver S)} {parent : Option S}
  {r : Option α × Resolver S}

theorem lookParent_found {t : α} (h : r.1 = some t) :
    Returns (fun n => lookParent (resolve n) s parent look_parent r) (some t, r.2.setmark s false) := by
  refine .congr (.const _) fun n => ?_
  rw [lookParent, h]
  simp [h]

theorem lookParent_inherited :
    Returns (fun n => lookParent (resolve n) s parent false r) (r.1, r.2.setmark s false) := by
  refine .congr (.const _) fun n => ?_
  rw [lookParent]
  intros
  contradiction

theorem lookParent_outermost (hparent : parent = none) :
    Returns (fun n => lookParent (resolve n) s parent look_parent r) (r.1, r.2.setmark s false) := by
  refine .congr (.const _) fun n => ?_
  subst hparent
  rw [lookParent]
  intros
  contradiction

theorem lookParent_around {p : S} {r' : Option α × Resolver S} (h : r.1 = none) (hparent : parent = some p)
    (hp : Returns (fun n => resolve n p r.2) r') :
    Returns (fun n => lookParent (resolve n) s parent true r) (r'.1, r'.2.setmark s false) := by
  refine .congr (hp.map fun r => (r.1, r.2.setmark s false)) fun n => ?_
  simp [lookParent, h, hparent]

theorem typedefResolveMarked_returns {r r' : Option (List Byte) × Resolver S} (hmark : st.mark s = false)
    (hget : (tab s).typetab.get base = none)
    (hr : Returns (fun n => inheritLoop (fun c => typedefResolveMarked tab base n c false) (tab s).inherit
      (st.setmark s true)) r)
    (hr' : Returns (fun n => lookParent (fun p => typedefResolveMarked tab base n p true) s (tab s).parent
      look_parent r) r') :
    Returns (fun n => typedefResolveMarked tab base n s look_parent st) r' := by
  apply Returns.of_succ
  refine .congr (Returns.bind (g := fun r n => lookParent (fun p => typedefResolveMarked tab base n p true) s
    (tab s).parent look_parent r) hr hr') fun n => ?_
  exact typedefResolveMarked_search hmark hget

end Calls

/-- The search in the scopes that an unmarked scope without the name inherits from. -/
theorem inherited_returns {st : Resolver S} {s : S} (hget : (tab s).typetab.get base = none)
    (hcalls : ∀ c ∈ (tab s).inherit, ∃ r,
      Returns (fun n => typedefResolveMarked tab base n c false (st.setmark s true)) r ∧
        Looked tab base c (st.setmark s true) r) :
    ∃ r, Returns (fun n => inheritLoop (fun c => typedefResolveMarked tab base n c false) (tab s).inherit
        (st.setmark s true)) r ∧
      r.2.mark = (st.setmark s true).mark ∧
      (∀ t, r.1 = some t → ∃ d, r.2.resolved_scope = some d ∧ (tab d).typetab.get base = some t ∧
        Reach (fun s => (tab s).inherit) st.free s d) ∧
      (r.1 = none → r.2 = st.setmark s true ∧
        ∀ d, Reach (fun s => (tab s).inherit) st.free s d → (tab d).typetab.get base = none) := by
  obtain ⟨r, hr, hcases⟩ := inheritLoop_returns fun c hc =>
    (hcalls c hc).imp fun r h => ⟨h.1, fun hnone => (h.2.missed hnone).1⟩
  refine ⟨r, hr, ?_⟩
  rcases hcases with ⟨rfl, hall⟩ | ⟨hsome, c, hc, hcr⟩
  · refine ⟨rfl, nofun, fun _ => ⟨rfl, fun d hd => ?_⟩⟩
    rcases hd.last_start with rfl | ⟨c, hc, hcfree, hcd⟩
    · exact hget
    obtain ⟨r, hr, hlooked⟩ := hcalls c hc
    have heq : r = (none, st.setmark s true) := hr.unique (hall c hc)
    subst heq
    rw [← st.setmark_free s] at hcfree hcd
    exact (hlooked.missed rfl).2 hcfree d hcd
  · obtain ⟨r', hr', hlooked⟩ := hcalls c hc
    have heq : r' = r := hr'.unique hcr
    subst heq
    refine ⟨hlooked.mark, fun t ht => ?_, fun hnone => ?_⟩
    · obtain ⟨hcfree, d, hd, hdt, hreach⟩ := hlooked.found t ht
      rw [st.setmark_free s] at hcfree hreach
      have hsc : Reach (fun s => (tab s).inherit) st.free s c := Reach.refl.step hc hcfree.1
      exact ⟨d, hd, hdt, hsc.trans (hreach.mono Set.sdiff_subset)⟩
    · rw [hnone] at hsome
      cases hsome

/-- A search that does not go to the scopes around. -/
theorem typedefResolve_inherited (hclosed : Closed tab scopes) (st : Resolver S) {s : S} (hs : s ∈ scopes) :
    ∃ r, Returns (fun n => typedefResolveMarked tab base n s false st) r ∧ Looked tab base s st r := by
  induction hk : st.room scopes using Nat.strong_induction_on generalizing st s with
  | h k ih =>
      cases hmark : st.mark s with
      | true =>
          refine ⟨(none, st), .of_succ (Returns.congr (.const _) fun n => typedefResolveMarked_marked hmark), rfl, nofun, ?_⟩
          intro _
          refine ⟨rfl, fun hfree => ?_⟩
          rw [show st.mark s = false from hfree] at hmark
          cases hmark
      | false =>
          cases hget : (tab s).typetab.get base with
          | some t =>
              refine ⟨_, .of_succ (Returns.congr (.const _) fun n => typedefResolveMarked_own hmark hget), ?_, ?_, nofun⟩
              · exact Resolver.setmark_setmark hmark rfl
              · rintro t' ⟨⟩
                exact ⟨hmark, s, rfl, hget, .refl⟩
          | none =>
              have hroom := hk ▸ Resolver.room_setmark hs hmark
              obtain ⟨r, hr, hrmark, hfound, hmissed⟩ := inherited_returns hget fun c hc =>
                ih _ hroom (st.setmark s true) (hclosed.inherit s hs c hc) rfl
              refine ⟨(r.1, r.2.setmark s false), typedefResolveMarked_returns hmark hget hr lookParent_inherited, ?_⟩
              refine ⟨Resolver.setmark_setmark hmark hrmark, fun t ht => ⟨hmark, hfound t ht⟩, fun hnone => ?_⟩
              obtain ⟨hst, hall⟩ := hmissed hnone
              refine ⟨?_, fun _ => hall⟩
              rw [hst, Resolver.setmark_same hmark]

/-! ### The search in the scopes around -/

/-- What a search from `s` came to. -/
structure Resolved (tab : S → Typetab S) (base : List Byte) (s : S) (st : Resolver S)
    (r : Option (List Byte) × Resolver S) : Prop where
  mark : r.2.mark = st.mark
  found : ∀ t, r.1 = some t → ∃ a d, r.2.resolved_scope = some d ∧ (tab d).typetab.get base = some t ∧
    Preferred tab base s a d
  missed : r.1 = none → ∀ a, ReflTransGen (ParentOf tab) s a → Undefined tab base a

/-- The marked scopes are within `s` and were searched before it. -/
def SearchedBelow (tab : S → Typetab S) (base : List Byte) (s : S) (st : Resolver S) : Prop :=
  ∀ x, st.mark x = true → TransGen (ParentOf tab) x s ∧ Undefined tab base x

omit [DecidableEq S] in
/-- What is out of reach without the marked scopes is out of reach. -/
theorem SearchedBelow.undefined {st : Resolver S} {s : S} (h : SearchedBelow tab base s st)
    (hall : ∀ d, Reach (fun s => (tab s).inherit) st.free s d → (tab d).typetab.get base = none) :
    Undefined tab base s := by
  intro d hd
  rcases hd.last_taken with hfree | ⟨x, hx, hxd⟩
  · exact hall d hfree
  · exact (h x (Bool.eq_true_of_not_eq_false hx)).2 d hxd

theorem SearchedBelow.parent {st : Resolver S} {s p : S} (h : SearchedBelow tab base s st)
    (hs : Undefined tab base s) (hp : ParentOf tab s p) : SearchedBelow tab base p (st.setmark s true) := by
  intro x hx
  by_cases hxs : x = s
  · subst hxs
    exact ⟨.single hp, hs⟩
  · have hx' : st.mark x = true := by simpa only [Resolver.setmark, Function.update_of_ne hxs] using hx
    exact ⟨(h x hx').1.tail hp, (h x hx').2⟩

omit [DecidableEq S] in
theorem ancestor_cases {s p a : S} (hp : ParentOf tab s p) (h : ReflTransGen (ParentOf tab) s a) :
    a = s ∨ ReflTransGen (ParentOf tab) p a := by
  rcases h.cases_head with rfl | ⟨q, hq, hqa⟩
  · exact .inl rfl
  · rw [ParentOf, hp] at hq
    cases hq
    exact .inr hqa

omit [DecidableEq S] in
/-- The parent is asked where the scope itself has no definition. -/
theorem Preferred.of_parent {s p a d : S} (hp : ParentOf tab s p) (hs : Undefined tab base s)
    (h : Preferred tab base p a d) : Preferred tab base s a d where
  around := .head hp h.around
  inherits := h.inherits
  own := h.own
  innermost b hb hba := by
    rcases ancestor_cases hp hb with rfl | hb
    · exact hs
    · exact h.innermost b hb hba

theorem typedefResolve_around (hclosed : Closed tab scopes) (hforest : Forest tab) (st : Resolver S) {s : S}
    (hs : s ∈ scopes) (hbelow : SearchedBelow tab base s st) :
    ∃ r, Returns (fun n => typedefResolveMarked tab base n s true st) r ∧ Resolved tab base s st r := by
  induction hk : st.room scopes using Nat.strong_induction_on generalizing st s with
  | h k ih =>
      have hmark : st.mark s = false := by
        by_contra h
        exact hforest s (hbelow s (Bool.eq_true_of_not_eq_false h)).1
      have hself (b : S) (hb : ReflTransGen (ParentOf tab) s b) (hbs : TransGen (ParentOf tab) b s) :
          Undefined tab base b := absurd (hbs.trans_left hb) (hforest b)
      cases hget : (tab s).typetab.get base with
      | some t =>
          refine ⟨_, .of_succ (Returns.congr (.const _) fun n => typedefResolveMarked_own hmark hget), ?_, ?_, nofun⟩
          · exact Resolver.setmark_setmark hmark rfl
          · rintro t' ⟨⟩
            exact ⟨s, s, rfl, hget, .refl, .refl, fun _ => rfl, hself⟩
      | none =>
          obtain ⟨⟨type, st'⟩, hr, hrmark, hfound, hmissed⟩ := inherited_returns hget fun c hc =>
            typedefResolve_inherited hclosed (st.setmark s true) (hclosed.inherit s hs c hc)
          cases type with
          | some t =>
              refine ⟨(some t, st'.setmark s false),
                typedefResolveMarked_returns hmark hget hr (lookParent_found rfl), ?_, ?_, nofun⟩
              · exact Resolver.setmark_setmark hmark hrmark
              · rintro t' ⟨⟩
                obtain ⟨d, hd, hdt, hreach⟩ := hfound t rfl
                refine ⟨s, d, hd, hdt, .refl, hreach.mono (Set.subset_univ _), fun hown => ?_, hself⟩
                rw [hget] at hown
                cases hown
          | none =>
              obtain ⟨hst, hall⟩ := hmissed rfl
              subst hst
              have hundef := hbelow.undefined hall
              cases hparent : (tab s).parent with
              | none =>
                  refine ⟨(none, (st.setmark s true).setmark s false),
                    typedefResolveMarked_returns hmark hget hr (lookParent_outermost hparent), ?_, nofun, ?_⟩
                  · exact Resolver.setmark_setmark hmark rfl
                  · intro _ a ha
                    rcases ha.cases_head with rfl | ⟨q, hq, -⟩
                    · exact hundef
                    · rw [ParentOf, hparent] at hq
                      cases hq
              | some p =>
                  have hroom := hk ▸ Resolver.room_setmark hs hmark
                  obtain ⟨r, hpr, hresolved⟩ := ih _ hroom (st.setmark s true) (hclosed.parent s hs p hparent)
                    (hbelow.parent hundef hparent) rfl
                  refine ⟨(r.1, r.2.setmark s false),
                    typedefResolveMarked_returns hmark hget hr (lookParent_around rfl hparent hpr), ?_, ?_, ?_⟩
                  · exact Resolver.setmark_setmark hmark hresolved.mark
                  · intro t ht
                    obtain ⟨a, d, hd, hdt, hpref⟩ := hresolved.found t ht
                    exact ⟨a, d, hd, hdt, hpref.of_parent hparent hundef⟩
                  · intro hnone a ha
                    rcases ancestor_cases hparent ha with rfl | ha
                    · exact hundef
                    · exact hresolved.missed hnone a ha

/-- `_typedef_resolve(s, base, 1)` on scopes without marks ends without marks. It
finds the name if a scope around `s` inherits from one that defines it, and then
`resolved_scope` is the scope with that definition. -/
theorem typedefResolve_finds (hclosed : Closed tab scopes) (hforest : Forest tab) {st : Resolver S}
    (hclear : ∀ x, st.mark x = false) {s : S} (hs : s ∈ scopes) (base : List Byte) :
    ∃ type st', Returns (fun n => typedefResolveMarked tab base n s true st) (type, st') ∧
      (∀ x, st'.mark x = false) ∧
      (type.isSome ↔ ∃ a d, ReflTransGen (ParentOf tab) s a ∧ Inherits tab a d ∧
        ((tab d).typetab.get base).isSome) ∧
      ∀ t, type = some t → ∃ a d, st'.resolved_scope = some d ∧ (tab d).typetab.get base = some t ∧
        Preferred tab base s a d := by
  have hbelow : SearchedBelow tab base s st := fun x hx => by
    rw [hclear] at hx
    cases hx
  obtain ⟨⟨type, st'⟩, hr, hresolved⟩ := typedefResolve_around hclosed hforest st hs hbelow
  refine ⟨type, st', hr, fun x => ?_, ⟨fun htype => ?_, ?_⟩, hresolved.found⟩
  · rw [hresolved.mark]
    exact hclear x
  · obtain ⟨t, rfl⟩ := Option.isSome_iff_exists.mp htype
    obtain ⟨a, d, -, hdt, hpref⟩ := hresolved.found t rfl
    exact ⟨a, d, hpref.around, hpref.inherits, Option.isSome_of_eq_some hdt⟩
  · rintro ⟨a, d, ha, had, hdef⟩
    cases type with
    | some t => rfl
    | none =>
        rw [hresolved.missed rfl a ha d had] at hdef
        cases hdef

/-- The parent of a scope was made before it. -/
theorem Scopes.forest (st : Scopes) : Forest st.tab := by
  have hlt (a b : ℕ) (h : TransGen (ParentOf st.tab) a b) : b < a := by
    induction h with
    | single h => exact st.parent_lt _ _ h
    | tail _ h ih => exact (st.parent_lt _ _ h).trans ih
  exact fun s h => lt_irrefl s (hlt s s h)

theorem nested_typedefResolve_finds :
    ∃ type st', Returns (fun n => typedefResolveMarked (typesystemInit.newScope (some (lit "A"))).tab (lit "T") n 1
        true ⟨fun _ => false, none⟩) (type, st') ∧
      (∀ x, st'.mark x = false) ∧
      (type.isSome ↔ ∃ a d, ReflTransGen (ParentOf (typesystemInit.newScope (some (lit "A"))).tab) 1 a ∧
        Inherits (typesystemInit.newScope (some (lit "A"))).tab a d ∧
        (((typesystemInit.newScope (some (lit "A"))).tab d).typetab.get (lit "T")).isSome) ∧
      ∀ t, type = some t → ∃ a d, st'.resolved_scope = some d ∧
        ((typesystemInit.newScope (some (lit "A"))).tab d).typetab.get (lit "T") = some t ∧
        Preferred (typesystemInit.newScope (some (lit "A"))).tab (lit "T") 1 a d := by
  refine @typedefResolve_finds ℕ _ _ {0, 1} ⟨?_, ?_⟩ (Scopes.forest _) _ (fun _ => rfl) 1 (by decide) _
  · intro s _ c hc
    have : ((typesystemInit.newScope (some (lit "A"))).tab s).inherit = [] := by
      by_cases hs : s = 1
      · subst hs
        rfl
      · simp [Scopes.newScope, typesystemInit, hs, Typetab.fresh]
    rw [this] at hc
    cases hc
  · intro s hs p hp
    have hlt := (typesystemInit.newScope (some (lit "A"))).parent_lt s p hp
    simp only [Finset.mem_insert, Finset.mem_singleton] at hs ⊢
    omega

end Swig.Typesys
