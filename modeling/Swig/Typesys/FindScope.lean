import Swig.Typesys.Scopes
import Swig.Lib.FirstSearch

/-!
`SwigType_find_scope`: the scope that a name stands for, looked for in a scope,
in the scopes it uses and in the scopes around it. There are no marks on this
search, so scopes that use each other can be gone through for ever.
-/

namespace Swig.Typesys

open Swig.DOH Fuel FirstSearch Relation

namespace Scopes

/-- The scope of a name in a scope itself. -/
def lookup (st : Scopes) ( nameprefix : List Byte) (ss : ℕ) : Option ℕ :=
  match (st.tab ss).qname with
  | some qname => st.scopes.get (qname ++ lit "::" ++ nameprefix)
  | none => st.scopes.get nameprefix

/-- The loop of `SwigType_find_scope` over a scope and those around it; `find`
is the call on a used scope. -/
def findScopeLoop (st : Scopes) (find : ℕ → Option (Option ℕ)) ( nameprefix : List Byte) (check_parent : Bool)
    (ss : ℕ) : Option (Option ℕ) :=
  match st.lookup nameprefix ss with
  | some s => some (some s)
  | none =>
      (firstHit find (st.tab ss).using_).bind fun s =>
        match s with
        | some s => some (some s)
        | none =>
            if check_parent then
              match _h : (st.tab ss).parent with
              | some parent => st.findScopeLoop find nameprefix check_parent parent
              | none => some none
            else some none
termination_by ss
decreasing_by exact st.parent_lt ss parent _h

/-- `SwigType_find_scope`, at most `fuel` calls deep, with the value of its
static `check_parent` and `SwigType_typedef_resolve_all` as a parameter. -/
def findScope (st : Scopes) (resolveAll : List Byte → Option (List Byte)) :
    ℕ → Bool → ℕ → List Byte → Option (Option ℕ)
  | 0, _, _, _ => none
  | fuel + 1, check_parent, s, nameprefix =>
      (if istemplate nameprefix then resolveAll nameprefix else some nameprefix).bind fun nameprefix =>
        st.findScopeLoop (fun ttab => st.findScope resolveAll fuel false ttab nameprefix) nameprefix check_parent s

/-- The used scopes of a scope. -/
def used (st : Scopes) (s : ℕ) : List ℕ := (st.tab s).using_

/-- The search comes from `s` to the scope `a` around it: nothing on the way there
leads to a scope of the name. -/
inductive Climbs (st : Scopes) ( nameprefix : List Byte) (s : ℕ) : ℕ → Prop
  | refl : Climbs st nameprefix s s
  | step {a p : ℕ} (h : Climbs st nameprefix s a) (ha : ¬ Leads (st.lookup nameprefix) st.used a)
      (hp : (st.tab a).parent = some p) : Climbs st nameprefix s p

variable {st : Scopes} { nameprefix : List Byte} {resolveAll : List Byte → Option (List Byte)} {s p n : ℕ}

/-- The loop without the scopes around is one call of the search. -/
theorem findScopeLoop_search : st.findScopeLoop (search (st.lookup nameprefix) st.used n) nameprefix false s =
    search (st.lookup nameprefix) st.used (n + 1) s := by
  rw [findScopeLoop, search]
  cases st.lookup nameprefix s with
  | some x => rfl
  | none =>
      show (firstHit _ (st.used s)).bind _ = firstHit _ (st.used s)
      rcases firstHit (search (st.lookup nameprefix) st.used n) (st.used s) with _ | _ | x <;> rfl

theorem findScopeLoop_around : st.findScopeLoop (search (st.lookup nameprefix) st.used n) nameprefix true s =
    (search (st.lookup nameprefix) st.used (n + 1) s).bind fun x =>
      match x, (st.tab s).parent with
      | none, some parent => st.findScopeLoop (search (st.lookup nameprefix) st.used n) nameprefix true parent
      | x, _ => some x := by
  rw [findScopeLoop, search]
  cases st.lookup nameprefix s with
  | some x => rfl
  | none =>
      show (firstHit _ (st.used s)).bind _ = (firstHit _ (st.used s)).bind _
      congr 1
      ext1 x
      cases x with
      | some x => rfl
      | none =>
          simp only [if_true]
          split <;> simp [*]

theorem findScope_used (htemplate : istemplate nameprefix = false) :
    st.findScope resolveAll n false s nameprefix = search (st.lookup nameprefix) st.used n s := by
  induction n generalizing s with
  | zero => rfl
  | succ n ih =>
      rw [findScope, htemplate, if_neg Bool.false_ne_true, Option.bind_some, ← findScopeLoop_search]
      simp only [ih]

theorem Climbs.head {a : ℕ} (hs : ¬ Leads (st.lookup nameprefix) st.used s) (hp : (st.tab s).parent = some p)
    (h : Climbs st nameprefix p a) : Climbs st nameprefix s a := by
  induction h with
  | refl => exact .step .refl hs hp
  | step _ ha hp' ih => exact ih.step ha hp'

theorem Climbs.cases_head {a : ℕ} (h : Climbs st nameprefix s a) :
    a = s ∨ ∃ p, ¬ Leads (st.lookup nameprefix) st.used s ∧ (st.tab s).parent = some p ∧
      Climbs st nameprefix p a := by
  induction h with
  | refl => exact .inl rfl
  | @step a q _ ha hq ih =>
      rcases ih with rfl | ⟨p, hs, hp, hpa⟩
      · exact .inr ⟨q, ha, hq, .refl⟩
      · exact .inr ⟨p, hs, hp, hpa.step ha hq⟩

/-- The scopes it comes to can all be searched, so the search returns. -/
theorem findScopeLoop_returns
    (h : ∀ a, Climbs st nameprefix s a → Acc (fun c a => Asks (st.lookup nameprefix) st.used a c) a) :
    ∃ r, Returns (fun n => st.findScopeLoop (search (st.lookup nameprefix) st.used n) nameprefix true s) r := by
  induction s using Nat.strong_induction_on with
  | _ s ih =>
      obtain ⟨r, N, hN⟩ := search_returns (h s .refl)
      have hr : Returns (fun n => search (st.lookup nameprefix) st.used (n + 1) s) r :=
        ⟨N, fun n hn => hN (n + 1) (by omega)⟩
      have hloop {r' : Option ℕ} (h' : Returns (fun n => match r, (st.tab s).parent with
          | none, some parent => st.findScopeLoop (search (st.lookup nameprefix) st.used n) nameprefix true parent
          | r, _ => some r) r') :
          Returns (fun n => st.findScopeLoop (search (st.lookup nameprefix) st.used n) nameprefix true s) r' :=
        .congr (hr.bind h') fun n => findScopeLoop_around
      cases r with
      | some x => exact ⟨some x, hloop (.const _)⟩
      | none =>
          cases hparent : (st.tab s).parent with
          | none => exact ⟨none, hloop (by rw [hparent]; exact .const _)⟩
          | some p =>
              have hs : ¬ Leads (st.lookup nameprefix) st.used s := fun hs =>
                Bool.false_ne_true ((search_isSome_iff (hN N le_rfl)).mpr hs)
              obtain ⟨r', hr'⟩ := ih p (st.parent_lt s p hparent) fun a ha => h a (ha.head hs hparent)
              exact ⟨r', hloop (by rw [hparent]; exact hr')⟩

theorem acc_of_findScopeLoop {r : Option ℕ}
    (h : st.findScopeLoop (search (st.lookup nameprefix) st.used n) nameprefix true s = some r) {a : ℕ}
    (ha : Climbs st nameprefix s a) : Acc (fun c a => Asks (st.lookup nameprefix) st.used a c) a := by
  induction s using Nat.strong_induction_on with
  | _ s ih =>
      rw [findScopeLoop_around] at h
      obtain ⟨x, hx, hr⟩ := Option.bind_eq_some_iff.mp h
      rcases ha.cases_head with rfl | ⟨p, hs, hp, hpa⟩
      · exact acc_of_search hx
      · cases x with
        | some x => exact absurd ((search_isSome_iff hx).mp rfl) hs
        | none =>
            rw [hp] at hr
            exact ih p (st.parent_lt s p hp) hr hpa

theorem findScope_eq (htemplate : istemplate nameprefix = false) :
    st.findScope resolveAll (n + 1) true s nameprefix =
      st.findScopeLoop (search (st.lookup nameprefix) st.used n) nameprefix true s := by
  rw [findScope, htemplate, if_neg Bool.false_ne_true, Option.bind_some]
  simp only [findScope_used htemplate]

/-- A call returns if and only if the searches of all scopes it comes to are bounded. -/
theorem findScope_returns_iff (htemplate : istemplate nameprefix = false) :
    (∃ r, Returns (fun n => st.findScope resolveAll n true s nameprefix) r) ↔
      ∀ a, Climbs st nameprefix s a → Acc (fun c a => Asks (st.lookup nameprefix) st.used a c) a := by
  constructor
  · rintro ⟨r, N, hN⟩ a ha
    have hr : st.findScope resolveAll (N + 1) true s nameprefix = some r := hN (N + 1) (by omega)
    rw [findScope_eq htemplate] at hr
    exact acc_of_findScopeLoop hr ha
  · intro h
    obtain ⟨r, hr⟩ := findScopeLoop_returns h
    exact ⟨r, .of_succ (.congr hr fun n => findScope_eq htemplate)⟩

/-! ### Scopes that were built -/

/-- The scopes in the lists of a scope were made. -/
def Built (st : Scopes) : Prop := ∀ s, ∀ u ∈ st.used s, u < st.next

theorem built_init : Built typesystemInit := by
  intro s u hu
  cases hu

theorem Built.newScope (h : Built st) (name : Option (List Byte)) : Built (st.newScope name) := by
  intro s u hu
  by_cases hs : s = st.next
  · subst hs
    simp [used, Scopes.newScope, Typetab.fresh] at hu
  · have hu' : u ∈ st.used s := by simpa [used, Scopes.newScope, hs] using hu
    exact Nat.lt_succ_of_lt (h s u hu')

theorem used_usingScope {st' : Scopes} {scope : ℕ} (h : st.usingScope scope = some st') :
    st'.next = st.next ∧
      ∀ s, st'.used s = if s = st.current_scope then addScope (st.used s) scope else st.used s := by
  by_cases hscope : scope = st.current_scope
  · simp [usingScope, inheritScope, hscope] at h
  · simp only [usingScope, inheritScope, hscope, if_false, Option.bind_some, setCurrent, Function.update_self,
      Function.update_idem, Option.some_inj] at h
    subst h
    refine ⟨rfl, fun s => ?_⟩
    by_cases hs : s = st.current_scope
    · subst hs
      simp [used]
    · simp [used, hs]

theorem Built.usingScope {st' : Scopes} {scope : ℕ} (h : Built st) (hscope : scope < st.next)
    (hst' : st.usingScope scope = some st') : Built st' := by
  obtain ⟨hnext, hused⟩ := used_usingScope hst'
  intro s u hu
  rw [hnext]
  rw [hused] at hu
  split at hu
  · rw [addScope] at hu
    split at hu
    · exact h s u hu
    · rcases List.mem_append.mp hu with hu | hu
      · exact h s u hu
      · rwa [List.mem_singleton.mp hu]
  · exact h s u hu

theorem Built.call {st' : Scopes} {op : ScopeOp} (h : Built st) (hst' : st.call op = some st') : Built st' := by
  cases op with
  | new_scope name =>
      cases hst'
      exact h.newScope name
  | pop_scope =>
      cases hst'
      exact h
  | set_scope t =>
      rw [Scopes.call] at hst'
      split at hst' <;> cases hst'
      exact h
  | using_scope scope =>
      rw [Scopes.call] at hst'
      split at hst' <;> [skip; cases hst']
      exact h.usingScope ‹_› hst'

theorem Built.calls {ops : List ScopeOp} {st' : Scopes} (h : Built st)
    (hst' : ops.foldlM Scopes.call st = some st') : Built st' := by
  induction ops generalizing st with
  | nil =>
      cases hst'
      exact h
  | cons op ops ih =>
      rw [List.foldlM_cons] at hst'
      obtain ⟨st₁, hst₁, hst'⟩ := Option.bind_eq_some_iff.mp hst'
      exact ih (h.call hst₁) hst'

theorem Climbs.le {a : ℕ} (h : Climbs st nameprefix s a) : a ≤ s := by
  induction h with
  | refl => exact le_rfl
  | step _ _ hp ih => exact (st.parent_lt _ _ hp).le.trans ih

end Scopes

/-- On scopes that were built, `SwigType_find_scope` returns for a name that is no
template if and only if its search comes to no cycle of scopes that use each other. -/
theorem findScope_terminates_iff {ops : List ScopeOp} {st : Scopes} (hst : buildScopes ops = some st) {s : ℕ}
    (hs : s < st.next) { nameprefix : List Byte} (htemplate : istemplate nameprefix = false)
    (resolveAll : List Byte → Option (List Byte)) :
    (∃ r, Returns (fun n => st.findScope resolveAll n true s nameprefix) r) ↔
      ∀ a, Scopes.Climbs st nameprefix s a → NoCycle (st.lookup nameprefix) st.used a := by
  rw [Scopes.findScope_returns_iff htemplate]
  refine forall₂_congr fun a ha => ⟨noCycle_of_acc, @acc_of_noCycle _ _ _ _ _ (Finset.range st.next) ?_ ?_⟩
  · intro x _ u hu
    exact Finset.mem_range.mpr (Scopes.built_init.calls hst x u hu)
  · exact Finset.mem_range.mpr (ha.le.trans_lt hs)

theorem findScope_nested_terminates_iff :
    (∃ r, Returns (fun n => (typesystemInit.newScope (some (lit "A"))).findScope some n true 1 (lit "B")) r) ↔
      ∀ a, Scopes.Climbs (typesystemInit.newScope (some (lit "A"))) (lit "B") 1 a →
        NoCycle ((typesystemInit.newScope (some (lit "A"))).lookup (lit "B"))
          (typesystemInit.newScope (some (lit "A"))).used a :=
  @findScope_terminates_iff [.new_scope (some (lit "A"))] _ rfl 1 (by decide) (lit "B") (by decide) some

/-- Two scopes that use each other. -/
def mutualUsing : List ScopeOp :=
  [.new_scope (some (lit "A")), .pop_scope, .new_scope (some (lit "B")), .using_scope 1, .set_scope (some 1),
    .using_scope 2]

theorem Scopes.scopeName_global {st : Scopes} (h : (st.tab 0).name = []) (name : List Byte) :
    st.scopeName name (some 0) = name := by
  have hparent : (st.tab 0).parent = none := by
    by_contra hp
    obtain ⟨p, hp⟩ := Option.ne_none_iff_exists'.mp hp
    exact absurd (st.parent_lt 0 p hp) (Nat.not_lt_zero p)
  rw [scopeName, scopeNameLoop, hparent, scopeNameLoop, h, if_pos rfl]

theorem mutualUsing_built : ∃ st, buildScopes mutualUsing = some st ∧ 1 < st.next ∧ st.used 1 = [2] ∧ st.used 2 = [1] ∧
    st.lookup (lit "C") 1 = none ∧ st.lookup (lit "C") 2 = none := by
  have hget (k : List Byte) (hk : k ∉ [[], lit "A", lit "B"]) :
      (((StringTable.new.set [] 0).set (lit "A") 1).set (lit "B") 2).get k = none := by
    simp only [List.mem_cons, List.not_mem_nil, or_false, not_or] at hk
    simp [StringTable.get_set, hk]
  have hA : typesystemInit.scopeName (lit "A") (some 0) = lit "A" := Scopes.scopeName_global rfl _
  have hB : (typesystemInit.newScope (some (lit "A"))).popScope.scopeName (lit "B") (some 0) = lit "B" :=
    Scopes.scopeName_global rfl _
  refine ⟨_, rfl, by decide, rfl, rfl, ?_, ?_⟩
  · show (((StringTable.new.set [] 0).set (typesystemInit.scopeName (lit "A") (some 0)) 1).set
      ((typesystemInit.newScope (some (lit "A"))).popScope.scopeName (lit "B") (some 0)) 2).get
      (typesystemInit.scopeName (lit "A") (some 0) ++ lit "::" ++ lit "C") = none
    rw [hA, hB]
    exact hget _ (by decide)
  · show (((StringTable.new.set [] 0).set (typesystemInit.scopeName (lit "A") (some 0)) 1).set
      ((typesystemInit.newScope (some (lit "A"))).popScope.scopeName (lit "B") (some 0)) 2).get
      ((typesystemInit.newScope (some (lit "A"))).popScope.scopeName (lit "B") (some 0) ++ lit "::" ++ lit "C") = none
    rw [hA, hB]
    exact hget _ (by decide)

theorem mutualUsing_asks : ¬ ∀ ops st s nameprefix resolveAll, buildScopes ops = some st → s < st.next →
    istemplate nameprefix = false → ∃ r, Returns (fun n => st.findScope resolveAll n true s nameprefix) r := by
  intro h
  obtain ⟨st, hst, hs, h₁, h₂, hl₁, hl₂⟩ := mutualUsing_built
  have hr := h mutualUsing st 1 (lit "C") some hst hs (by decide)
  have hacc := (Scopes.findScope_returns_iff (by decide)).mp hr 1 .refl
  refine not_cycle_of_acc hacc (.tail (.single (b := 2) ?_) ?_)
  · exact ⟨hl₁, [], [], h₁, by simp⟩
  · exact ⟨hl₂, [], [], h₂, by simp⟩

end Swig.Typesys
