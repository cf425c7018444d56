import Swig.Symbol.Overloads

/-!
Removals from chains of overloaded functions, the one that breaks `sym:overloaded`,
and sequences of calls.
-/

namespace Swig.SymbolTable

open DoublyLinked Fuel

variable {N : Type} [DecidableEq N] {at_ : N → Decl} {st : SymbolTable N} {f : SymName → List N}

/-! ### Removing -/

/-- The state before the overnames are adjusted. -/
def removed (st : SymbolTable N) (s : SymName) (n : N) : SymbolTable N :=
  (st.unlink s (st.previousSibling n) (st.nextSibling n)).deleteAttributes n

theorem removed_self (st : SymbolTable N) (s : SymName) (n : N) :
    (st.removed s n).nextSibling n = none ∧ (st.removed s n).previousSibling n = none := by
  constructor
  · show Function.update ((st.unlink s (st.previousSibling n) (st.nextSibling n)).setPreviousSibling n none).nextSibling
      n none n = none
    rw [Function.update_self]
  · show Function.update (st.unlink s (st.previousSibling n) (st.nextSibling n)).previousSibling n none n = none
    rw [Function.update_self]

theorem removed_nextSibling (st : SymbolTable N) (s : SymName) {n y : N} (hy : y ≠ n) :
    (st.removed s n).nextSibling y = if st.previousSibling n = some y then st.nextSibling n else st.nextSibling y := by
  have hdelete : (st.removed s n).nextSibling y = (st.unlink s (st.previousSibling n) (st.nextSibling n)).nextSibling y :=
    Function.update_of_ne hy ..
  rw [hdelete, unlink.eq_def]
  cases hprev : st.previousSibling n with
  | none => cases st.nextSibling n <;> rfl
  | some p =>
      by_cases hp : p = y
      · subst hp
        rw [if_pos rfl]
        cases hnext : st.nextSibling n <;> exact Function.update_self ..
      · rw [if_neg fun heq => hp (Option.some.inj heq)]
        cases hnext : st.nextSibling n <;> exact Function.update_of_ne (Ne.symm hp) ..

theorem removed_previousSibling (st : SymbolTable N) (s : SymName) {n y : N} (hy : y ≠ n) :
    (st.removed s n).previousSibling y =
      if st.nextSibling n = some y then st.previousSibling n else st.previousSibling y := by
  have hdelete : (st.removed s n).previousSibling y =
      (st.unlink s (st.previousSibling n) (st.nextSibling n)).previousSibling y := Function.update_of_ne hy ..
  rw [hdelete, unlink.eq_def]
  cases hnext : st.nextSibling n with
  | none => cases st.previousSibling n <;> rfl
  | some x =>
      by_cases hx : x = y
      · subst hx
        rw [if_pos rfl]
        exact Function.update_self ..
      · rw [if_neg fun heq => hx (Option.some.inj heq)]
        cases st.previousSibling n <;> exact Function.update_of_ne (Ne.symm hx) ..

theorem removed_table (st : SymbolTable N) (s s' : SymName) (n : N) : (st.removed s n).table s' =
    if s' = s ∧ st.previousSibling n = none then st.nextSibling n else st.table s' := by
  show (st.unlink s (st.previousSibling n) (st.nextSibling n)).table s' = _
  rw [unlink.eq_def]
  cases hprev : st.previousSibling n with
  | none =>
      by_cases hs : s' = s
      · subst hs
        rw [if_pos ⟨rfl, rfl⟩]
        cases hnext : st.nextSibling n <;> exact Function.update_self ..
      · rw [if_neg fun h => hs h.1]
        cases hnext : st.nextSibling n <;> exact Function.update_of_ne hs ..
  | some p =>
      rw [if_neg nofun]
      cases st.nextSibling n <;> rfl

theorem removed_others (st : SymbolTable N) (s : SymName) (n : N) :
    (st.removed s n).symtab = Function.update st.symtab n false ∧ (st.removed s n).name = st.name ∧
      (st.removed s n).overname = Function.update st.overname n none ∧
      (st.removed s n).overloaded = Function.update st.overloaded n none := by
  rw [removed, unlink.eq_def]
  cases st.previousSibling n <;> cases st.nextSibling n <;> exact ⟨rfl, rfl, rfl, rfl⟩

theorem Linked.removed_list (h : Linked at_ st f) {s : SymName} {n : N} {as bs : List N} (hchain : f s = as ++ n :: bs) :
    IsList (st.removed s n).nextSibling (st.removed s n).previousSibling ((st.removed s n).table s) (as ++ bs) := by
  have hlist := h.list s
  rw [hchain] at hlist
  obtain ⟨q, hseg⟩ := hlist.seg
  have hne (y : N) : st.previousSibling n = some y ∨ st.nextSibling n = some y → y ≠ n := by
    rintro hy rfl
    obtain ⟨hprev, hnext⟩ := hlist.mid
    obtain ⟨-, hnbs, hdisj⟩ := List.nodup_append.mp hlist.nodup
    rcases hy with hy | hy
    · exact hdisj y (List.mem_of_getLast? (hprev.symm.trans hy)) y List.mem_cons_self rfl
    · exact (List.nodup_cons.mp hnbs).1 (List.mem_of_head? (hnext.symm.trans hy))
  have hremove : Seg (st.removed s n).nextSibling (st.removed s n).previousSibling none ((st.removed s n).table s)
      (as ++ bs) (if st.nextSibling n = none then st.previousSibling n else q) none := by
    refine hseg.remove hlist.nodup (fun l hl => ?_) (fun y hy hl => ?_) (fun b hb => ?_) (fun y hy hb => ?_) ?_ rfl
    · rw [removed_nextSibling st s (hne l (.inl hl)), if_pos hl]
    · rw [removed_nextSibling st s hy, if_neg hl]
    · rw [removed_previousSibling st s (hne b (.inr hb)), if_pos hb]
    · rw [removed_previousSibling st s hy, if_neg hb]
    · rw [removed_table]
      simp only [true_and]
  exact ⟨⟨_, hremove⟩, hlist.nodup.sublist (List.Sublist.append_left (List.sublist_cons_self n bs) as)⟩

omit [DecidableEq N] in
theorem Linked.exists_overname (h : Linked at_ st f) {s : SymName} {n : N} (hn : n ∈ f s) : st.overname n ≠ none := by
  obtain ⟨i, hi⟩ := List.getElem?_of_mem hn
  rw [h.overname s i n hi]
  exact Option.some_ne_none _

/-- The overnames from the head of the list on, which is found from a node of it. -/
theorem Linked.fix_removed (h : Linked at_ st f) {s : SymName} {n x : N} {as bs xs ys : List N}
    (hchain : f s = as ++ n :: bs) (hx : as ++ bs = xs ++ x :: ys) {fuel : ℕ} (hfuel : (as ++ bs).length < fuel) :
    ((st.removed s n).findHead fuel x).bind (fun head => fixOvernames fuel (st.removed s n) head 0) =
      some ((st.removed s n).numbered (as ++ bs) 0) := by
  have hlist := h.removed_list hchain
  rw [hx] at hlist hfuel ⊢
  obtain ⟨q, hseg⟩ := hlist.seg
  have hfirst : Seg (st.removed s n).nextSibling (st.removed s n).previousSibling none ((st.removed s n).table s)
      ((xs ++ [x]) ++ ys) q none := by rwa [List.append_assoc]
  obtain ⟨q', e', hfirst, -⟩ := hfirst.of_append
  obtain ⟨hd, zs, hzs⟩ : ∃ hd zs, xs ++ x :: ys = hd :: zs := List.exists_cons_of_ne_nil (by simp)
  have hhead : (xs ++ [x]).head? = some hd := by
    cases xs with
    | nil => exact congrArg some (List.cons.inj hzs).1
    | cons y xs => exact congrArg some (List.cons.inj hzs).1
  have hset (y : N) (hy : y ∈ hd :: zs) : (st.removed s n).overname y ≠ none := by
    have hmem : y ∈ f s := by
      rw [hchain]
      rw [← hzs, ← hx] at hy
      exact (List.sublist_cons_self n bs).append_left as |>.subset hy
    have hyn : y ≠ n := by
      rintro rfl
      have hnodup := (h.list s).nodup
      rw [hchain] at hnodup
      rw [← hzs, ← hx] at hy
      exact (List.nodup_middle.mp hnodup |> List.nodup_cons.mp).1 hy
    rw [(st.removed_others s n).2.2.1, Function.update_of_ne hyn]
    exact h.exists_overname hmem
  rw [findHead_eq hfirst (by simp only [List.length_append, List.length_cons] at hfuel; omega), hhead, Option.bind_some]
  rw [hzs] at hseg hlist hfuel ⊢
  have htable : (st.removed s n).table s = some hd := hseg.1
  rw [htable] at hseg
  exact fixOvernames_eq hseg hlist.nodup hset (by simp only [List.length_cons] at hfuel; omega)

theorem Linked.symbolRemove_eq (h : Linked at_ st f) {s : SymName} {n : N} {as bs : List N}
    (hchain : f s = as ++ n :: bs) {fuel : ℕ} (hfuel : (as ++ bs).length < fuel) :
    st.symbolRemove fuel n =
      some (if bs = [] then st.removed s n else (st.removed s n).numbered (as ++ bs) 0) := by
  have hlist := h.list s
  rw [hchain] at hlist
  obtain ⟨hprev, hnext⟩ := hlist.mid
  obtain ⟨hsymtab, hname, -⟩ := h.named s n (hchain ▸ List.mem_append_right as List.mem_cons_self)
  rw [symbolRemove.eq_def, hsymtab, hname]
  dsimp only
  rw [← removed]
  cases bs with
  | nil =>
      rw [show st.nextSibling n = none from hnext, if_pos rfl]
  | cons b bs =>
      rw [show st.nextSibling n = some b from hnext, if_neg (List.cons_ne_nil b bs)]
      rcases List.eq_nil_or_concat' as with rfl | ⟨as', l, rfl⟩
      · rw [show st.previousSibling n = none from hprev]
        have hx : [] ++ b :: bs = [] ++ b :: bs := rfl
        exact h.fix_removed hchain hx hfuel
      · rw [show st.previousSibling n = some l by rw [hprev, List.getLast?_concat]]
        have hx : as' ++ [l] ++ b :: bs = as' ++ l :: (b :: bs) := by
          rw [List.append_assoc]
          rfl
        exact h.fix_removed hchain hx hfuel

/-- A call. -/
inductive Op (N : Type)
  | add (s : SymName) (n : N)
  | remove (n : N)

/-- The calls that keep the chains: not the removal of the first of three nodes. -/
def Safe (f : SymName → List N) : Op N → Prop
  | .add _ _ => True
  | .remove n => ∀ s, (f s).head? = some n → (f s).length ≤ 2

/-- A node is taken out of its chain; of the overloaded nodes, all but the first of a
long chain may go. -/
theorem Linked.remove (h : Linked at_ st f) {s : SymName} {n : N} {as bs : List N} (hchain : f s = as ++ n :: bs)
    (hsafe : as = [] → bs.length ≤ 1) :
    Linked at_ (if bs = [] then st.removed s n else (st.removed s n).numbered (as ++ bs) 0)
      (Function.update f s (as ++ bs)) := by
  have hnodup := (h.list s).nodup
  rw [hchain] at hnodup
  obtain ⟨hn, hnodup'⟩ := List.nodup_cons.mp (List.nodup_middle.mp hnodup)
  have hsub : as ++ bs ⊆ f s := by
    rw [hchain]
    exact ((List.sublist_cons_self n bs).append_left as).subset
  have hlist := h.list s
  rw [hchain] at hlist
  obtain ⟨hprev, hnext⟩ := hlist.mid
  have hneighbour (y : N) (hy : st.previousSibling n = some y ∨ st.nextSibling n = some y) : y ∈ f s := by
    apply hsub
    rcases hy with hy | hy
    · exact List.mem_append_left _ (List.mem_of_getLast? (hprev.symm.trans hy))
    · exact List.mem_append_right _ (List.mem_of_head? (hnext.symm.trans hy))
  have hframe (y : N) (hy : y ∉ f s) (hyn : y ≠ n) : (st.removed s n).nextSibling y = st.nextSibling y ∧
      (st.removed s n).previousSibling y = st.previousSibling y := by
    rw [removed_nextSibling st s hyn, removed_previousSibling st s hyn, if_neg fun heq => hy (hneighbour y (.inl heq)),
      if_neg fun heq => hy (hneighbour y (.inr heq))]
    exact ⟨rfl, rfl⟩
  obtain ⟨hsymtab, hname, hover, hoverloaded⟩ := st.removed_others s n
  generalize hst' : (if bs = [] then st.removed s n else (st.removed s n).numbered (as ++ bs) 0) = st'
  have hfields : st'.table = (st.removed s n).table ∧ st'.nextSibling = (st.removed s n).nextSibling ∧
      st'.previousSibling = (st.removed s n).previousSibling ∧ st'.overloaded = Function.update st.overloaded n none ∧
      st'.symtab = Function.update st.symtab n false ∧ st'.name = st.name := by
    rw [← hst', ← hsymtab, ← hname, ← hoverloaded]
    split <;> exact ⟨rfl, rfl, rfl, rfl, rfl, rfl⟩
  have hoverout (y : N) (hy : y ∉ as ++ bs) : st'.overname y = Function.update st.overname n none y := by
    rw [← hst', ← hover]
    split
    · rfl
    · exact if_neg hy
  have hoverin (i : ℕ) (y : N) (hy : (as ++ bs)[i]? = some y) : st'.overname y = some (overnameOf i) := by
    have hmem := List.mem_of_getElem? hy
    rw [← hst']
    split
    · -- the last node was removed: the others keep their numbers
      next hbs =>
        subst hbs
        rw [List.append_nil] at hy hmem hn
        rw [hover, Function.update_of_ne (ne_of_mem_of_not_mem hmem hn)]
        refine h.overname s i y ?_
        rw [hchain, List.getElem?_append_left (List.getElem?_eq_some_iff.mp hy).1]
        exact hy
    · obtain ⟨hi, rfl⟩ := List.getElem?_eq_some_iff.mp hy
      show (if _ then some (overnameOf (0 + (as ++ bs).idxOf (as ++ bs)[i])) else _) = _
      rw [if_pos hmem, hnodup'.idxOf_getElem, Nat.zero_add]
  obtain ⟨htable', hnext', hprev', hoverloaded', hsymtab', hname'⟩ := hfields
  have hother {s' : SymName} (hs' : s' ≠ s) {x : N} (hx : x ∈ f s') : x ∉ f s := fun hmem => hs' (h.disjoint s' s x hx hmem)
  have hnmem : n ∈ f s := hchain ▸ List.mem_append_right as List.mem_cons_self
  have hold (s' : SymName) (x : N) (hx : x ∈ Function.update f s (as ++ bs) s') : x ∈ f s' ∧ x ≠ n := by
    by_cases hs' : s' = s
    · subst hs'
      rw [Function.update_self] at hx
      exact ⟨hsub hx, ne_of_mem_of_not_mem hx hn⟩
    · rw [Function.update_of_ne hs'] at hx
      exact ⟨hx, fun heq => hother hs' hx (heq ▸ hnmem)⟩
  refine ⟨⟨fun s' => ?_, fun s' i x hx => ?_, fun s' hlen x hx => ?_⟩, fun s₁ s₂ x h₁ h₂ => ?_, fun s' x hx => ?_,
    fun x hx => ?_⟩
  · rw [htable', hnext', hprev']
    by_cases hs' : s' = s
    · subst hs'
      rw [Function.update_self]
      exact h.removed_list hchain
    · rw [Function.update_of_ne hs', removed_table, if_neg fun hs => hs' hs.1]
      have hxn (x : N) (hx : x ∈ f s') : x ≠ n := fun heq => hother hs' hx (heq ▸ hnmem)
      exact (h.list s').congr (fun x hx => (hframe x (hother hs' hx) (hxn x hx)).1)
        fun x hx => (hframe x (hother hs' hx) (hxn x hx)).2
  · by_cases hs' : s' = s
    · subst hs'
      rw [Function.update_self] at hx
      exact hoverin i x hx
    · rw [Function.update_of_ne hs'] at hx
      have hxs := hother hs' (List.mem_of_getElem? hx)
      rw [hoverout x fun hmem => hxs (hsub hmem), Function.update_of_ne (ne_of_mem_of_not_mem hnmem hxs).symm]
      exact h.overname s' i x hx
  · rw [hoverloaded', Function.update_of_ne (hold s' x hx).2]
    by_cases hs' : s' = s
    · subst hs'
      rw [Function.update_self] at hlen hx ⊢
      rw [h.overloaded s' (by rw [hchain]; simp only [List.length_append, List.length_cons] at hlen ⊢; omega) x (hsub hx),
        hchain]
      cases as with
      | nil =>
          have := hsafe rfl
          rw [List.nil_append] at hlen
          omega
      | cons a as => rfl
    · rw [Function.update_of_ne hs'] at hlen hx ⊢
      exact h.overloaded s' hlen x hx
  · exact h.disjoint s₁ s₂ x (hold s₁ x h₁).1 (hold s₂ x h₂).1
  · rw [hsymtab', hname', Function.update_of_ne (hold s' x hx).2]
    exact h.named s' x (hold s' x hx).1
  · have hxs : x ∉ as ++ bs := by
      have := hx s
      rwa [Function.update_self] at this
    rw [hoverout x hxs, hnext', hprev']
    by_cases hxn : x = n
    · subst hxn
      exact ⟨Function.update_self .., removed_self st s x⟩
    · have hxf (s' : SymName) : x ∉ f s' := by
        by_cases hs' : s' = s
        · subst hs'
          rw [hchain]
          rw [List.mem_append, not_or] at hxs
          simp only [List.mem_append, List.mem_cons, hxs.1, hxs.2, hxn, or_false, not_false_eq_true]
        · have := hx s'
          rwa [Function.update_of_ne hs'] at this
      rw [Function.update_of_ne hxn, (hframe x (hxf s) hxn).1, (hframe x (hxf s) hxn).2]
      exact h.fresh x hxf

/-- The removal of the first of three nodes leaves nodes that point to it. -/
theorem Linked.safe_of_chained (h : Linked at_ st f) {s : SymName} {n : N} {as bs : List N}
    (hchain : f s = as ++ n :: bs)
    (hafter : Chained (if bs = [] then st.removed s n else (st.removed s n).numbered (as ++ bs) 0)
      (Function.update f s (as ++ bs))) : as = [] → bs.length ≤ 1 := by
  rintro rfl
  by_contra hlen
  have hover := hafter.overloaded s
  rw [Function.update_self, List.nil_append] at hover
  obtain ⟨b, bs, rfl⟩ := List.exists_cons_of_length_pos (l := bs) (by omega)
  have hb := hover (by omega) b List.mem_cons_self
  have hbn : b ≠ n := by
    rintro rfl
    have hnodup := (h.list s).nodup
    rw [hchain] at hnodup
    exact (List.nodup_cons.mp hnodup).1 List.mem_cons_self
  rw [if_neg (List.cons_ne_nil b bs)] at hb
  have hold : Function.update st.overloaded n none b = some b := by
    rw [← (st.removed_others s n).2.2.2]
    exact hb
  have hbefore := h.overloaded s (by rw [hchain]; simp only [List.nil_append, List.length_cons]; omega) b
    (by rw [hchain]; exact List.mem_cons_of_mem n List.mem_cons_self)
  rw [Function.update_of_ne hbn, hbefore, hchain] at hold
  exact hbn (Option.some.inj hold).symm

/-! ### Sequences of calls -/

/-- What a call has to find: a function declaration that is in no chain, or a node in
one; and the chains it leaves, where a node is added when it is returned and not
ignored. -/
inductive Step (at_ : N → Decl) (st : SymbolTable N) (f : SymName → List N) :
    Op N → SymbolTable N → (SymName → List N) → Prop
  | add {s : SymName} {n r : N} {st' : SymbolTable N} (hn : IsFunction (at_ n)) (hnew : ∀ s, n ∉ f s)
      (hst : Returns (fun k => symbolAdd at_ st k s n) (st', r)) :
      Step at_ st f (.add s n) st'
        (if r = n ∧ (at_ n).ignore = false then Function.update f s (f s ++ [n]) else f)
  | remove {s : SymName} {n : N} {st' : SymbolTable N} (hn : n ∈ f s)
      (hst : Returns (fun k => st.symbolRemove k n) st') :
      Step at_ st f (.remove n) st' (Function.update f s ((f s).erase n))

/-- A sequence of calls on an empty table, with the table and the chains before each. -/
inductive Run (at_ : N → Decl) :
    List (SymbolTable N × (SymName → List N) × Op N) → SymbolTable N → (SymName → List N) → Prop
  | nil : Run at_ [] empty fun _ => []
  | snoc {steps : List (SymbolTable N × (SymName → List N) × Op N)} {st st' : SymbolTable N}
      {f f' : SymName → List N} {op : Op N} (h : Run at_ steps st f) (hstep : Step at_ st f op st' f') :
      Run at_ (steps ++ [(st, f, op)]) st' f'

omit [DecidableEq N] in
theorem linked_empty : Linked at_ (empty : SymbolTable N) fun _ => [] where
  list _ := .nil
  overname _ _ _ hn := absurd hn (by simp)
  overloaded _ hlen := absurd hlen (by simp)
  disjoint _ _ _ hn := absurd hn List.not_mem_nil
  named _ _ hn := absurd hn List.not_mem_nil
  fresh _ _ := ⟨rfl, rfl, rfl⟩

theorem Linked.add_returns (h : Linked at_ st f) {s : SymName} {n : N} (hn : IsFunction (at_ n))
    (hnew : ∀ s, n ∉ f s) : ∃ st' r, Returns (fun k => symbolAdd at_ st k s n) (st', r) ∧
      Linked at_ st' (if r = n ∧ (at_ n).ignore = false then Function.update f s (f s ++ [n]) else f) := by
  obtain ⟨st', r, hst, hcases⟩ := symbolAdd_cases h hn hnew (Nat.lt_succ_self (f s).length)
  refine ⟨st', r, ⟨_, fun k hk => mono_symbolAdd st s n _ k _ hk hst⟩, ?_⟩
  rcases hcases with ⟨hnot, rfl⟩ | ⟨rfl, hignore, hadded⟩
  · rwa [if_neg]
    rintro ⟨rfl, hignore⟩
    rw [hignore] at hnot
    exact hnot.elim (fun hne => hne rfl) nofun
  · rw [if_pos ⟨rfl, hignore⟩]
    rcases hadded with ⟨hempty, rfl⟩ | ⟨c, cl, hc, hcl, rfl⟩
    · exact h.addFirst hn hnew hempty
    · exact h.addBehind hn hnew hc hcl

theorem Linked.remove_returns (h : Linked at_ st f) {s : SymName} {n : N} (hn : n ∈ f s) :
    ∃ st', Returns (fun k => st.symbolRemove k n) st' ∧
      (Safe f (.remove n) → Linked at_ st' (Function.update f s ((f s).erase n))) ∧
      (Chained st' (Function.update f s ((f s).erase n)) → Safe f (.remove n)) := by
  obtain ⟨as, bs, hchain⟩ := List.append_of_mem hn
  have hnodup := (h.list s).nodup
  rw [hchain] at hnodup
  have hnas : n ∉ as := fun hmem => (List.nodup_append.mp hnodup).2.2 n hmem n List.mem_cons_self rfl
  have herase : (f s).erase n = as ++ bs := by
    rw [hchain, List.erase_append_right _ hnas, List.erase_cons_head]
  have hsafe : Safe f (.remove n) ↔ (as = [] → bs.length ≤ 1) := by
    constructor
    · rintro h rfl
      have := h s (by rw [hchain]; rfl)
      rw [hchain] at this
      simpa using this
    · intro hlen s' hs'
      obtain rfl : s' = s := h.disjoint s' s n (List.mem_of_head? hs') hn
      rw [hchain] at hs' ⊢
      cases as with
      | nil => simpa using hlen rfl
      | cons a as => exact absurd (List.mem_cons.mpr (.inl (Option.some.inj hs').symm)) hnas
  rw [herase]
  refine ⟨_, ⟨(as ++ bs).length + 1, fun k hk => h.symbolRemove_eq hchain hk⟩, fun hop => h.remove hchain (hsafe.mp hop),
    fun hafter => hsafe.mpr (h.safe_of_chained hchain hafter)⟩

theorem Run.linked {steps : List (SymbolTable N × (SymName → List N) × Op N)} (h : Run at_ steps st f)
    (hsafe : ∀ x ∈ steps, Safe x.2.1 x.2.2) : Linked at_ st f := by
  induction h with
  | nil => exact linked_empty
  | snoc h hstep ih =>
      have hlinked := ih fun x hx => hsafe x (List.mem_append_left _ hx)
      have hop := hsafe _ (List.mem_append_right _ (List.mem_singleton_self _))
      cases hstep with
      | add hn hnew hst =>
          obtain ⟨st₁, r₁, hst₁, hlinked'⟩ := hlinked.add_returns hn hnew
          obtain ⟨rfl, rfl⟩ := Prod.mk.inj (hst.unique hst₁)
          exact hlinked'
      | remove hn hst =>
          obtain ⟨st₁, hst₁, hlinked', -⟩ := hlinked.remove_returns hn
          rw [hst.unique hst₁]
          exact hlinked' hop

/-- The chains are in order in every state reached exactly when no call removes the
first of three or more nodes; then every further call returns. -/
theorem Run.chained_iff {steps : List (SymbolTable N × (SymName → List N) × Op N)} (h : Run at_ steps st f) :
    (((∀ x ∈ steps, Chained x.1 x.2.1) ∧ Chained st f) ↔ ∀ x ∈ steps, Safe x.2.1 x.2.2) ∧
    ((∀ x ∈ steps, Safe x.2.1 x.2.2) →
      (∀ s n, IsFunction (at_ n) → (∀ s, n ∉ f s) → ∃ st' r, Returns (fun k => symbolAdd at_ st k s n) (st', r)) ∧
      ∀ s, ∀ n ∈ f s, ∃ st', Returns (fun k => st.symbolRemove k n) st') := by
  constructor
  · induction h with
    | nil => exact ⟨fun _ => nofun, fun _ => ⟨nofun, (linked_empty : Linked at_ empty fun _ => []).toChained⟩⟩
    | @snoc steps st st' f f' op h hstep ih =>
        have hlast (P : SymbolTable N × (SymName → List N) × Op N → Prop) :
            (∀ x ∈ steps ++ [(st, f, op)], P x) ↔ (∀ x ∈ steps, P x) ∧ P (st, f, op) := by
          simp [or_imp, forall_and]
        rw [hlast, hlast]
        constructor
        · rintro ⟨hchained, hafter⟩
          have hsafe := ih.mp hchained
          refine ⟨hsafe, ?_⟩
          cases hstep with
          | add => trivial
          | remove hn hst =>
              obtain ⟨st₁, hst₁, -, hsafe'⟩ := (h.linked hsafe).remove_returns hn
              rw [hst.unique hst₁] at hafter
              exact hsafe' hafter
        · rintro ⟨hsafe, hop⟩
          exact ⟨ih.mpr hsafe, ((h.snoc hstep).linked ((hlast _).mpr ⟨hsafe, hop⟩)).toChained⟩
  · intro hsafe
    have hlinked := h.linked hsafe
    refine ⟨fun s n hn hnew => ?_, fun s n hn => ?_⟩
    · obtain ⟨st', r, hst, -⟩ := hlinked.add_returns hn hnew (s := s)
      exact ⟨st', r, hst⟩
    · obtain ⟨st', hst, -⟩ := hlinked.remove_returns hn
      exact ⟨st', hst⟩

/-! ### Three functions -/

/-- Plain functions with different declarators. -/
def functions (n : ℕ) : Decl where
  nodeType := "cdecl"
  templatetype := none
  decl := some (lit "f(" ++ [UInt8.ofNat n])
  storage := none
  allows_typedef := false
  weak := false
  ignore := false

theorem isFunction_functions (n : ℕ) : IsFunction (functions n) where
  isfunction := rfl
  allows_typedef := rfl
  weak := rfl
  kind := by
    show some "cdecl" ≠ some "using"
    decide
  nodeType := by
    show "cdecl" ≠ "namespace"
    decide

theorem Run.add_function {steps : List (SymbolTable ℕ × (SymName → List ℕ) × Op ℕ)} {st st' : SymbolTable ℕ}
    {f : SymName → List ℕ} (h : Run functions steps st f) {s : SymName} {n k : ℕ} (hnew : ∀ s, n ∉ f s)
    (hst : symbolAdd functions st k s n = some (st', n)) :
    Run functions (steps ++ [(st, f, .add s n)]) st' (Function.update f s (f s ++ [n])) := by
  have hstep := Step.add (isFunction_functions n) hnew ⟨k, fun m hm => mono_symbolAdd st s n k m _ hm hst⟩
  rw [if_pos ⟨rfl, rfl⟩] at hstep
  exact h.snoc hstep

/-- The functions 0, 1 and 2 with one name. -/
theorem exists_run_functions : ∃ steps st, Run functions steps st (Function.update (fun _ => []) [] [0, 1, 2]) ∧
    steps.length = 3 ∧ ∀ x ∈ steps, Safe x.2.1 x.2.2 := by
  have hnew (xs : List ℕ) {n : ℕ} (hn : n ∉ xs) (s : SymName) :
      n ∉ Function.update (fun _ => []) ([] : SymName) xs s := by
    by_cases hs : s = []
    · rwa [hs, Function.update_self]
    · rw [Function.update_of_ne hs]
      exact List.not_mem_nil
  have h₁ := Run.nil.add_function (s := []) (n := 0) (k := 1) (fun _ => List.not_mem_nil) rfl
  have h₂ := h₁.add_function (s := []) (n := 1) (k := 1) (hnew [0] (by decide)) rfl
  rw [Function.update_idem] at h₂
  have h₃ := h₂.add_function (s := []) (n := 2) (k := 2) (hnew [0, 1] (by decide)) rfl
  rw [Function.update_idem] at h₃
  refine ⟨_, _, h₃, rfl, fun x hx => ?_⟩
  simp only [List.nil_append, List.cons_append, List.mem_cons, List.not_mem_nil, or_false] at hx
  rcases hx with rfl | rfl | rfl <;> trivial

/-- Function 1 is taken out again. -/
theorem chained_functions : ∃ steps st f, Run functions steps st f ∧ steps.length = 4 ∧
    (((∀ x ∈ steps, Chained x.1 x.2.1) ∧ Chained st f) ↔ ∀ x ∈ steps, Safe x.2.1 x.2.2) := by
  obtain ⟨steps, st, h, hlen, hsafe⟩ := exists_run_functions
  have hmem : 1 ∈ Function.update (fun _ => []) ([] : SymName) [0, 1, 2] [] := by decide
  obtain ⟨st', hst', -⟩ := (h.linked hsafe).remove_returns hmem
  have hrun := h.snoc (.remove hmem hst')
  exact ⟨_, _, _, hrun, by rw [List.length_append, hlen]; rfl, (Run.chained_iff hrun).1⟩

/-- Function 0 is taken out: the other two still point to it. -/
theorem not_chained : ¬ ∀ (steps : List (SymbolTable ℕ × (SymName → List ℕ) × Op ℕ)) (st : SymbolTable ℕ)
    (f : SymName → List ℕ), Run functions steps st f → Chained st f := by
  intro hclaim
  obtain ⟨steps, st, h, -, hsafe⟩ := exists_run_functions
  have hmem : 0 ∈ Function.update (fun _ => []) ([] : SymName) [0, 1, 2] [] := by decide
  obtain ⟨st', hst', -, hbroken⟩ := (h.linked hsafe).remove_returns hmem
  have hlen := hbroken (hclaim _ _ _ (h.snoc (.remove hmem hst'))) [] rfl
  exact absurd hlen (by decide)

end Swig.SymbolTable
