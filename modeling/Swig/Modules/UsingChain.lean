import Swig.Modules.UsingDeclaration

/-!
What `usingDeclaration` and `clean_overloaded` leave of a chain of overloaded methods.
-/

namespace Swig.TypePass

open DoublyLinked Fuel

/-! ### Overnames -/

/-- No name is the other one, or begins with it and a `_`. -/
def Separate (a b : String) : Prop :=
  ¬(a ++ "_").toList <+: (b ++ "_").toList ∧ ¬(b ++ "_").toList <+: (a ++ "_").toList

variable {a b : String} {i j : ℕ}

theorem Separate.symm (h : Separate a b) : Separate b a := ⟨h.2, h.1⟩

theorem Separate.ne (h : Separate a b) : a ≠ b := by
  rintro rfl
  exact h.1 List.prefix_rfl

theorem toList_copyOvername (a : String) (i : ℕ) :
    (copyOvername a i ++ "_").toList = (a ++ "_").toList ++ (Nat.toDigits 10 i ++ ['_']) := by
  rw [copyOvername, String.toList_append, String.toList_append, List.append_assoc, ← Nat.toList_repr]
  rfl

/-- Before the `_` there is all of the number. -/
theorem toDigits_prefix_inj (h : Nat.toDigits 10 i ++ ['_'] <+: Nat.toDigits 10 j ++ ['_']) : i = j := by
  obtain ⟨r, hr⟩ := h
  have hnumber (k : ℕ) (r : List Char) : (Nat.toDigits 10 k ++ '_' :: r).takeWhile (· ≠ '_') = Nat.toDigits 10 k := by
    have hne (c : Char) (hc : c ∈ Nat.toDigits 10 k) : c ≠ '_' := ne_of_mem_of_not_mem hc Nat.underscore_not_in_toDigits
    rw [List.takeWhile_append_of_pos fun c hc => decide_eq_true (hne c hc),
      List.takeWhile_cons_of_neg (by simp), List.append_nil]
  have hdigits : Nat.toDigits 10 i = Nat.toDigits 10 j := by
    rw [← hnumber i r, ← hnumber j [], ← hr, List.append_assoc]
    rfl
  rw [← @Nat.ofDigitChars_ten_toDigits i, hdigits, Nat.ofDigitChars_ten_toDigits]

theorem Separate.copyOvername (h : Separate a b) (i : ℕ) : Separate (copyOvername a i) b := by
  rw [Separate, toList_copyOvername]
  have hpre : (a ++ "_").toList <+: (a ++ "_").toList ++ (Nat.toDigits 10 i ++ ['_']) := List.prefix_append ..
  refine ⟨fun hb => h.1 (hpre.trans hb), fun hb => ?_⟩
  rcases List.prefix_or_prefix_of_prefix hpre hb with hab | hba
  · exact h.1 hab
  · exact h.2 hba

theorem separate_copyOvername (hij : i ≠ j) : Separate (copyOvername a i) (copyOvername a j) := by
  rw [Separate, toList_copyOvername, toList_copyOvername, List.prefix_append_right_inj, List.prefix_append_right_inj]
  exact ⟨fun h => hij (toDigits_prefix_inj h), fun h => hij (toDigits_prefix_inj h).symm⟩

/-- The overnames that the symbol table gives are separate. -/
theorem separate_overnameOf (hij : i ≠ j) : Separate (SymbolTable.overnameOf i) (SymbolTable.overnameOf j) :=
  separate_copyOvername (a := "__SWIG") hij

/-- The chains of the symbol table, of two nodes or more. -/
theorem chain_of_chained {N : Type} {st : SymbolTable N} {f : SymName → List N} (h : SymbolTable.Chained st f)
    {s : SymName} (hlen : 2 ≤ (f s).length) : Chain Separate st (f s) where
  list := by
    have hl := h.list s
    rwa [hl.head_eq] at hl
  overname := by
    refine List.pairwise_iff_getElem.mpr fun i j hi hj hij => ?_
    exact ⟨_, _, h.overname s i _ (List.getElem?_eq_getElem hi), h.overname s j _ (List.getElem?_eq_getElem hj),
      separate_overnameOf (Nat.ne_of_lt hij)⟩
  overloaded := by
    refine .inl fun x hx => ⟨h.overloaded s hlen x hx, ?_⟩
    obtain ⟨i, hi⟩ := List.getElem?_of_mem hx
    rw [h.overname s i x hi]
    exact Option.some_ne_none _

/-! ### The splice -/

variable {R : String → String → Prop} {st st' : SymbolTable ℕ} {n first fc last : ℕ} {xs ys as bs ks : List ℕ}

theorem Chain.congr (h : Chain R st xs) (hnext : ∀ x ∈ xs, st'.nextSibling x = st.nextSibling x)
    (hprev : ∀ x ∈ xs, st'.previousSibling x = st.previousSibling x)
    (hoverloaded : ∀ x ∈ xs, st'.overloaded x = st.overloaded x)
    (hovername : ∀ x ∈ xs, st'.overname x = st.overname x) : Chain R st' xs where
  list := h.list.congr hnext hprev
  overname := by
    refine h.overname.imp_of_mem ?_
    rintro x y hx hy ⟨a, b, ha, hb, hab⟩
    exact ⟨a, b, (hovername x hx).trans ha, (hovername y hy).trans hb, hab⟩
  overloaded := by
    refine h.overloaded.imp (fun hshared x hx => ?_) fun halone => ⟨halone.1, fun x hx => ?_⟩
    · rw [hoverloaded x hx, hovername x hx]
      exact hshared x hx
    · rw [hoverloaded x hx, halone.2 x hx]

/-- A node that knows one outside. -/
theorem not_chain_of_overloaded {x : ℕ} (hx : x ∈ xs) (hn : n ∉ xs) (hover : st.overloaded x = some n) :
    ¬Chain R st xs := by
  intro h
  rcases h.overloaded with hshared | ⟨-, hnone⟩
  · exact hn (List.mem_of_head? ((hshared x hx).1.symm.trans hover))
  · exact Option.some_ne_none n (hover.symm.trans (hnone x hx))

/-- As long as the pointers are the same, no node has left. -/
theorem Chain.not_without {R' : String → String → Prop} (h : Chain R st (as ++ n :: bs)) (hne : ¬(as = [] ∧ bs = [])) :
    ¬Chain R' st (as ++ bs) := by
  obtain ⟨hn, -⟩ := List.nodup_cons.mp (List.nodup_middle.mp h.list.nodup)
  rcases as with _ | ⟨a, as⟩
  · obtain ⟨b, bs, rfl⟩ := List.exists_cons_of_ne_nil fun hbs => hne ⟨rfl, hbs⟩
    exact not_chain_of_overloaded List.mem_cons_self hn (h.shared (by simp) b (by simp)).1
  · intro h'
    have hlen := congrArg List.length (h.list.unique h'.list)
    simp at hlen

/-- The nodes `ys` with another first node. -/
def withFirst (st : SymbolTable ℕ) (first : ℕ) (ys : List ℕ) : SymbolTable ℕ :=
  { st with overloaded := fun y => if y ∈ ys then some first else st.overloaded y }

theorem withFirst_cons (st : SymbolTable ℕ) (first y : ℕ) (ys : List ℕ) :
    withFirst (st.setOverloaded y (some first)) first ys = withFirst st first (y :: ys) := by
  rw [withFirst, withFirst]
  congr 1
  funext x
  by_cases hx : x ∈ ys
  · rw [if_pos hx, if_pos (List.mem_cons_of_mem y hx)]
  · rw [if_neg hx]
    by_cases hxy : x = y
    · rw [hxy, if_pos List.mem_cons_self]
      exact Function.update_self ..
    · rw [if_neg (by simp [hxy, hx])]
      exact Function.update_of_ne hxy ..

theorem setFirst_eq {p h q : Option ℕ} {fuel : ℕ} (hs : Seg st.nextSibling st.previousSibling p h ys q none)
    (hfuel : ys.length ≤ fuel) : setFirst first fuel st h = some (withFirst st first ys) := by
  induction ys generalizing st p h fuel with
  | nil =>
      obtain ⟨-, rfl⟩ := hs
      cases fuel <;> rfl
  | cons y ys ih =>
      obtain ⟨fuel, rfl⟩ := Nat.exists_eq_add_of_le' (Nat.one_le_of_lt hfuel)
      obtain ⟨rfl, -, hs⟩ := hs
      rw [setFirst, ← withFirst_cons]
      exact ih hs (by simpa using hfuel)

/-- The copies `ks` with their overnames, numbered from `cnt` on. -/
def named (st : SymbolTable ℕ) (overname : String) (ks : List ℕ) (cnt : ℕ) : SymbolTable ℕ :=
  { st with overname := fun y => if y ∈ ks then some (copyOvername overname (cnt + ks.idxOf y)) else st.overname y }

theorem named_cons (st : SymbolTable ℕ) (overname : String) {k : ℕ} {ks : List ℕ} (hk : k ∉ ks) (cnt : ℕ) :
    named (st.setOvername k (some (copyOvername overname cnt))) overname ks (cnt + 1) =
      named st overname (k :: ks) cnt := by
  rw [named, named]
  congr 1
  funext x
  by_cases hxk : x = k
  · subst hxk
    rw [if_neg hk, if_pos List.mem_cons_self, List.idxOf_cons_self]
    exact Function.update_self ..
  · rw [List.idxOf_cons_ne _ (Ne.symm hxk), show (st.setOvername k (some (copyOvername overname cnt))).overname x =
      st.overname x from Function.update_of_ne hxk ..]
    simp only [List.mem_cons, hxk, false_or]
    rw [show cnt + 1 + ks.idxOf x = cnt + (ks.idxOf x).succ by omega]

theorem placeCopies_eq {overname : String} {p q : Option ℕ} {fuel k cnt : ℕ}
    (hs : Seg st.nextSibling st.previousSibling p (some k) (k :: ks) q none) (hnodup : (k :: ks).Nodup)
    (hlast : (k :: ks).getLast? = some last) (hfuel : ks.length < fuel) : placeCopies first overname fuel st k cnt =
      some (named (withFirst st first (k :: ks)) overname (k :: ks) cnt, last) := by
  induction ks generalizing st p fuel k cnt with
  | nil =>
      obtain ⟨fuel, rfl⟩ := Nat.exists_eq_add_of_le' (Nat.one_le_of_lt hfuel)
      obtain rfl : k = last := by simpa using hlast
      rw [placeCopies, show st.nextSibling k = none from hs.2.2.2, ← named_cons _ _ List.not_mem_nil, ← withFirst_cons]
      simp [named, withFirst]
  | cons k' ks ih =>
      obtain ⟨fuel, rfl⟩ := Nat.exists_eq_add_of_le' (Nat.one_le_of_lt hfuel)
      obtain ⟨hk, hnodup⟩ := List.nodup_cons.mp hnodup
      obtain ⟨-, -, hs⟩ := hs
      have hnext : st.nextSibling k = some k' := hs.1
      rw [hnext] at hs
      rw [placeCopies, hnext, ← named_cons _ _ hk, ← withFirst_cons]
      exact ih hs hnodup (by rwa [List.getLast?_cons_cons] at hlast) (by simpa using hfuel)

theorem linkCopies_nextSibling (st : SymbolTable ℕ) (n fc last y : ℕ) : (linkCopies st n fc last).nextSibling y =
    if st.nextSibling n ≠ none ∧ y = last then st.nextSibling n
    else if st.previousSibling n = some y then some fc else st.nextSibling y := by
  rw [linkCopies]
  cases hprev : st.previousSibling n with
  | none =>
      cases hnext : st.nextSibling n with
      | none => rfl
      | some ns =>
          by_cases hy : y = last
          · rw [if_pos ⟨Option.some_ne_none ns, hy⟩, hy]
            exact Function.update_self ..
          · rw [if_neg fun hand => hy hand.2]
            exact Function.update_of_ne hy ..
  | some ps =>
      have hps : Function.update st.nextSibling ps (some fc) y =
          if some ps = some y then some fc else st.nextSibling y := by
        by_cases hy : y = ps
        · rw [if_pos (congrArg some hy.symm), hy, Function.update_self]
        · rw [if_neg fun heq => hy (Option.some.inj heq).symm, Function.update_of_ne hy]
      cases hnext : st.nextSibling n with
      | none => exact hps
      | some ns =>
          by_cases hy : y = last
          · rw [if_pos ⟨Option.some_ne_none ns, hy⟩, hy]
            exact Function.update_self ..
          · rw [if_neg fun hand => hy hand.2]
            exact (Function.update_of_ne hy ..).trans hps

theorem linkCopies_previousSibling (st : SymbolTable ℕ) (n fc last y : ℕ) :
    (linkCopies st n fc last).previousSibling y =
      if st.nextSibling n = some y then some last
      else if st.previousSibling n ≠ none ∧ y = fc then st.previousSibling n else st.previousSibling y := by
  rw [linkCopies]
  have hns (ns : ℕ) (f : ℕ → Option ℕ) :
      Function.update f ns (some last) y = if some ns = some y then some last else f y := by
    by_cases hy : y = ns
    · rw [if_pos (congrArg some hy.symm), hy, Function.update_self]
    · rw [if_neg fun heq => hy (Option.some.inj heq).symm, Function.update_of_ne hy]
  cases hprev : st.previousSibling n with
  | none =>
      cases hnext : st.nextSibling n with
      | none => rfl
      | some ns => exact hns ns _
  | some ps =>
      have hfc : Function.update st.previousSibling fc (some ps) y =
          if some ps ≠ none ∧ y = fc then some ps else st.previousSibling y := by
        by_cases hy : y = fc
        · rw [if_pos ⟨Option.some_ne_none ps, hy⟩, hy, Function.update_self]
        · rw [if_neg fun hand => hy hand.2, Function.update_of_ne hy]
      cases hnext : st.nextSibling n with
      | none => exact hfc
      | some ns => exact (hns ns _).trans (if_congr Iff.rfl rfl hfc)

theorem linkCopies_others (st : SymbolTable ℕ) (n fc last : ℕ) :
    (linkCopies st n fc last).overloaded = st.overloaded ∧ (linkCopies st n fc last).overname = st.overname ∧
      (linkCopies st n fc last).name = st.name := by
  rw [linkCopies]
  cases st.previousSibling n <;> cases st.nextSibling n <;> exact ⟨rfl, rfl, rfl⟩

theorem isList_linkCopies (hl : IsList st.nextSibling st.previousSibling (as ++ n :: bs).head? (as ++ n :: bs))
    (hk : IsList st.nextSibling st.previousSibling ks.head? ks) (hnodup : (as ++ (ks ++ bs)).Nodup)
    (hfc : ks.head? = some fc) (hlast : ks.getLast? = some last) :
    IsList (linkCopies st n fc last).nextSibling (linkCopies st n fc last).previousSibling
      (as ++ (ks ++ bs)).head? (as ++ (ks ++ bs)) := by
  obtain ⟨hprev, hnext⟩ := hl.mid
  obtain ⟨-, hksbs, hdisj⟩ := List.nodup_append.mp hnodup
  have hdisj' := (List.nodup_append.mp hksbs).2.2
  have hfcmem : fc ∈ ks := List.mem_of_head? hfc
  have hlastmem : last ∈ ks := List.mem_of_getLast? hlast
  have hfirst : st.previousSibling fc = none := by
    obtain ⟨ks', rfl⟩ := List.head?_eq_some_iff.mp hfc
    exact (@IsList.mid _ _ _ _ [] _ _ hk).1
  have hend : st.nextSibling last = none := by
    obtain ⟨ks', rfl⟩ := List.getLast?_eq_some_iff.mp hlast
    exact hk.mid.2
  refine hl.exchange hk hnodup (fun x hx => ?_) (fun x hx => ?_) (fun x hx => ?_) (fun x hx => ?_) (fun x hx => ?_)
    fun x hx => ?_
  · rw [linkCopies_nextSibling, hprev, List.head?_append, hfc,
      if_neg fun hand => hdisj x hx last (List.mem_append_left bs hlastmem) hand.2]
    rfl
  · rw [linkCopies_previousSibling, hnext,
      if_neg fun hhead => hdisj x hx x (List.mem_append_right ks (List.mem_of_head? hhead)) rfl,
      if_neg fun hand => hdisj x hx fc (List.mem_append_left bs hfcmem) hand.2]
  · have hprevx : as.getLast? ≠ some x :=
      fun heq => hdisj x (List.mem_of_getLast? heq) x (List.mem_append_left bs hx) rfl
    rw [linkCopies_nextSibling, hprev, hnext, hlast, if_neg hprevx]
    by_cases hxl : x = last
    · subst hxl
      rw [if_pos rfl]
      rcases bs with _ | ⟨b, bs⟩
      · exact (if_neg (by simp)).trans hend
      · exact if_pos ⟨by simp, rfl⟩
    · rw [if_neg fun hand => hxl hand.2, if_neg fun heq => hxl (Option.some.inj heq).symm]
  · rw [linkCopies_previousSibling, hprev, hnext, hfc,
      if_neg fun hhead => hdisj' x hx x (List.mem_of_head? hhead) rfl]
    by_cases hxf : x = fc
    · subst hxf
      rw [if_pos rfl]
      rcases List.eq_nil_or_concat' as with rfl | ⟨as', a, rfl⟩
      · exact (if_neg (by simp)).trans hfirst
      · exact if_pos ⟨by simp, rfl⟩
    · rw [if_neg fun hand => hxf hand.2, if_neg fun heq => hxf (Option.some.inj heq).symm]
  · rw [linkCopies_nextSibling, hprev, if_neg fun hand => hdisj' last hlastmem x hx hand.2.symm,
      if_neg fun heq => hdisj x (List.mem_of_getLast? heq) x (List.mem_append_right ks hx) rfl]
  · rw [linkCopies_previousSibling, hnext, List.getLast?_append, hlast]
    by_cases hhead : bs.head? = some x
    · rw [if_pos hhead, if_pos hhead]
      rfl
    · rw [if_neg hhead, if_neg hhead, if_neg fun hand => hdisj' fc hfcmem x hx hand.2.symm]

/-- What the splice leaves: the copies have overnames made of that of `n`. -/
structure Spliced (st st' : SymbolTable ℕ) (n : ℕ) (as ks bs : List ℕ) : Prop where
  list : IsList st'.nextSibling st'.previousSibling (as ++ (ks ++ bs)).head? (as ++ (ks ++ bs))
  overloaded : ∀ x ∈ as ++ (ks ++ bs), st'.overloaded x = (as ++ (ks ++ bs)).head?
  overname : ∀ x ∈ as ++ bs, st'.overname x = st.overname x
  copy : ∀ x ∈ ks, st'.overname x = some (copyOvername ((st.overname n).getD "") (ks.idxOf x))
  name : st'.name = st.name

theorem spliceIn_spec (hl : IsList st.nextSibling st.previousSibling (as ++ n :: bs).head? (as ++ n :: bs))
    (hfirst : (as ++ n :: bs).head? = some first) (hover : ∀ x ∈ as ++ n :: bs, st.overloaded x = some first)
    (hk : IsList st.nextSibling st.previousSibling ks.head? ks) (hdisj : ∀ x ∈ ks, x ∉ as ++ n :: bs)
    (hfc : ks.head? = some fc) :
    ∃ st', Returns (fun fuel => spliceIn fuel st n fc first) st' ∧ Spliced st st' n as ks bs := by
  obtain ⟨last, hlast⟩ : ∃ last, ks.getLast? = some last := by
    obtain ⟨ks', rfl⟩ := List.head?_eq_some_iff.mp hfc
    exact ⟨_, List.getLast?_eq_some_getLast (List.cons_ne_nil fc ks')⟩
  obtain ⟨qk, hkseg⟩ := hk.seg
  have hnas : n ∉ as ++ bs := (List.nodup_cons.mp (List.nodup_middle.mp hl.nodup)).1
  have hasbs : (as ++ bs).Nodup := (List.nodup_cons.mp (List.nodup_middle.mp hl.nodup)).2
  have hsub : as ++ bs ⊆ as ++ n :: bs := ((List.sublist_cons_self n bs).append_left as).subset
  have hnks : n ∉ ks := fun hmem => hdisj n hmem (List.mem_append_right as List.mem_cons_self)
  have hnodup : (as ++ (ks ++ bs)).Nodup := by
    obtain ⟨has, hbs, habs⟩ := List.nodup_append.mp hasbs
    refine List.nodup_append.mpr ⟨has, List.nodup_append.mpr ⟨hk.nodup, hbs, ?_⟩, ?_⟩
    · rintro x hx y hy rfl
      exact hdisj x hx (hsub (List.mem_append_right as hy))
    · rintro x hx y hy rfl
      rcases List.mem_append.mp hy with hy | hy
      · exact hdisj x hy (hsub (List.mem_append_left bs hx))
      · exact habs x hx x hy rfl
  -- the state before the links are set, with the first node of the new chain
  have hplace (st₁ : SymbolTable ℕ) (first' : ℕ) (hnext : st₁.nextSibling = st.nextSibling)
      (hprev : st₁.previousSibling = st.previousSibling) (hovername : st₁.overname = st.overname)
      (hname : st₁.name = st.name)
      (hhead : (as ++ (ks ++ bs)).head? = some first')
      (hover' : ∀ x ∈ as ++ bs, st₁.overloaded x = some first') :
      ∃ st', (∀ fuel, ks.length ≤ fuel →
          (placeCopies first' ((st₁.overname n).getD "") fuel st₁ fc 0).map (fun r => linkCopies r.1 n fc r.2) =
            some st') ∧ Spliced st st' n as ks bs := by
    obtain ⟨ks', hks'⟩ := List.head?_eq_some_iff.mp hfc
    have hseg : Seg st₁.nextSibling st₁.previousSibling none (some fc) ks qk none := by
      rw [hnext, hprev, ← hfc]
      exact hkseg
    have hrun (fuel : ℕ) (hfuel : ks.length ≤ fuel) : placeCopies first' ((st₁.overname n).getD "") fuel st₁ fc 0 =
        some (named (withFirst st₁ first' ks) ((st₁.overname n).getD "") ks 0, last) := by
      rw [hks'] at hseg hfuel hlast ⊢
      exact placeCopies_eq hseg (hks' ▸ hk.nodup) hlast (by rwa [List.length_cons] at hfuel)
    refine ⟨linkCopies (named (withFirst st₁ first' ks) ((st₁.overname n).getD "") ks 0) n fc last,
      fun fuel hfuel => by rw [hrun fuel hfuel, Option.map_some], ?_, fun x hx => ?_, fun x hx => ?_,
      fun x hx => ?_, (linkCopies_others _ n fc last).2.2.trans hname⟩
    · refine isList_linkCopies ?_ ?_ hnodup hfc hlast
      · show IsList st₁.nextSibling st₁.previousSibling _ _
        rwa [hnext, hprev]
      · show IsList st₁.nextSibling st₁.previousSibling _ _
        rwa [hnext, hprev]
    · rw [(linkCopies_others _ n fc last).1, hhead]
      show (if x ∈ ks then some first' else st₁.overloaded x) = some first'
      split
      · rfl
      · rename_i hxks
        refine hover' x ?_
        simp only [List.mem_append, hxks, false_or] at hx
        exact List.mem_append.mpr hx
    · rw [(linkCopies_others _ n fc last).2.1]
      refine (if_neg fun hxks => hdisj x hxks (hsub hx)).trans ?_
      exact congrFun hovername x
    · rw [(linkCopies_others _ n fc last).2.1]
      refine (if_pos hx).trans ?_
      rw [hovername, Nat.zero_add]
  rcases as with _ | ⟨f, as⟩
  · obtain rfl : n = first := Option.some.inj hfirst
    obtain ⟨q, -, -, hseg⟩ := hl.seg
    have hrun (fuel : ℕ) (hfuel : bs.length ≤ fuel) :
        setFirst fc fuel (st.setOverloaded n none) ((st.setOverloaded n none).nextSibling n) =
          some (withFirst (st.setOverloaded n none) fc bs) := setFirst_eq hseg hfuel
    obtain ⟨st', hplace, h⟩ := hplace (withFirst (st.setOverloaded n none) fc bs) fc rfl rfl rfl rfl
      (by rw [List.nil_append, List.head?_append, hfc]; rfl) fun x hx => if_pos hx
    refine ⟨st', ⟨bs.length + ks.length, fun fuel hfuel => ?_⟩, h⟩
    show spliceIn fuel st n fc n = some st'
    rw [spliceIn, if_pos rfl]
    dsimp only
    rw [hrun fuel (by omega), Option.map_some, Option.bind_some]
    exact hplace fuel (by omega)
  · obtain rfl : f = first := Option.some.inj hfirst
    have hfn : f ≠ n := ne_of_mem_of_not_mem List.mem_cons_self hnas
    obtain ⟨st', hplace, h⟩ := hplace st f rfl rfl rfl rfl rfl fun x hx => hover x (hsub hx)
    refine ⟨st', ⟨ks.length, fun fuel hfuel => ?_⟩, h⟩
    show spliceIn fuel st n fc f = some st'
    rw [spliceIn, if_neg hfn, Option.bind_some]
    exact hplace fuel hfuel

theorem Spliced.chain (h : Spliced st st' n as ks bs) (hover : (as ++ n :: bs).Pairwise (Apart Separate st))
    (hshared : Shared st (as ++ n :: bs)) : Chain Separate st' (as ++ (ks ++ bs)) := by
  obtain ⟨o, ho⟩ := Option.ne_none_iff_exists'.mp (hshared n (List.mem_append_right as List.mem_cons_self)).2
  obtain ⟨has, hnbs, hasn⟩ := List.pairwise_append.mp hover
  obtain ⟨hn, hbs⟩ := List.pairwise_cons.mp hnbs
  have hcopy (x : ℕ) (hx : x ∈ ks) : st'.overname x = some (copyOvername o (ks.idxOf x)) := by
    rw [h.copy x hx, ho, Option.getD_some]
  have hapart (x y : ℕ) (hx : x ∈ as ++ bs) (hy : y ∈ as ++ bs) (hxy : Apart Separate st x y) :
      Apart Separate st' x y := by
    obtain ⟨a, b, ha, hb, hab⟩ := hxy
    exact ⟨a, b, (h.overname x hx).trans ha, (h.overname y hy).trans hb, hab⟩
  refine ⟨h.list, List.pairwise_append.mpr ⟨?_, List.pairwise_append.mpr ⟨?_, ?_, fun x hx y hy => ?_⟩,
    fun x hx y hy => ?_⟩, .inl fun x hx => ⟨h.overloaded x hx, ?_⟩⟩
  · exact has.imp_of_mem fun hx hy => hapart _ _ (List.mem_append_left bs hx) (List.mem_append_left bs hy)
  · refine (List.nodup_append.mp (List.nodup_append.mp h.list.nodup).2.1).1.imp_of_mem fun {x y} hx hy hxy => ?_
    exact ⟨_, _, hcopy x hx, hcopy y hy, separate_copyOvername fun heq => hxy ((List.idxOf_inj hx).mp heq)⟩
  · exact hbs.imp_of_mem fun hx hy => hapart _ _ (List.mem_append_right as hx) (List.mem_append_right as hy)
  · obtain ⟨a, b, ha, hb, hab⟩ := hn y hy
    obtain rfl := Option.some.inj (ho.symm.trans ha)
    exact ⟨_, _, hcopy x hx, (h.overname y (List.mem_append_right as hy)).trans hb, hab.copyOvername _⟩
  · rcases List.mem_append.mp hy with hy | hy
    · obtain ⟨a, b, ha, hb, hab⟩ := hasn x hx n List.mem_cons_self
      obtain rfl := Option.some.inj (ho.symm.trans hb)
      exact ⟨_, _, (h.overname x (List.mem_append_left bs hx)).trans ha, hcopy y hy, (hab.symm.copyOvername _).symm⟩
    · refine hapart x y (List.mem_append_left bs hx) (List.mem_append_right as hy) ?_
      exact hasn x hx y (List.mem_cons_of_mem n hy)
  · by_cases hxks : x ∈ ks
    · rw [hcopy x hxks]
      exact Option.some_ne_none _
    · simp only [List.mem_append, hxks, false_or] at hx
      rw [h.overname x (List.mem_append.mpr hx)]
      refine (hshared x ?_).2
      exact ((List.sublist_cons_self n bs).append_left as).subset (List.mem_append.mpr hx)

namespace Tree

variable {m : DirectorMode} {t t₀ : Tree} {symname : SymName} {ms ns : List ℕ} {inclass : Bool}

/-- The new chain is wrong when the first of several nodes goes without a copy in its place. -/
def Beheaded (as ks bs : List ℕ) : Prop := as = [] ∧ ks = [] ∧ bs ≠ []

theorem replaceUsing_of_returns (hover : t.sym.overloaded n = some first)
    (hrun : Returns (fun fuel => leaveChain fuel t.sym n first (t.firstChild n)) st') :
    Returns (fun fuel => t.replaceUsing m fuel n) { t with sym := (unchain st' n).setOverloaded n none } := by
  obtain ⟨N, hN⟩ := hrun
  refine ⟨N, fun fuel hfuel => ?_⟩
  show t.replaceUsing m fuel n = _
  have hnone : (unchain st' n).overloaded n = none := Function.update_self ..
  rw [replaceUsing, hover]
  dsimp only at hN ⊢
  rw [hN fuel hfuel, Option.bind_some, clean_overloaded_alone hnone, Option.map_some]

/-- The attributes deleted are those of `n`. -/
theorem unchain_of_ne (st : SymbolTable ℕ) {x : ℕ} (hx : x ≠ n) :
    ((unchain st n).setOverloaded n none).nextSibling x = st.nextSibling x ∧
      ((unchain st n).setOverloaded n none).previousSibling x = st.previousSibling x ∧
      ((unchain st n).setOverloaded n none).overloaded x = st.overloaded x ∧
      ((unchain st n).setOverloaded n none).overname x = st.overname x :=
  ⟨Function.update_of_ne hx .., Function.update_of_ne hx ..,
    (Function.update_of_ne hx ..).trans (Function.update_of_ne hx ..), Function.update_of_ne hx ..⟩

theorem chain_unchain (h : Chain R st xs) (hn : n ∉ xs) : Chain R ((unchain st n).setOverloaded n none) xs := by
  have hne (x : ℕ) (hx : x ∈ xs) : x ≠ n := ne_of_mem_of_not_mem hx hn
  exact h.congr (fun x hx => (unchain_of_ne st (hne x hx)).1) (fun x hx => (unchain_of_ne st (hne x hx)).2.1)
    (fun x hx => (unchain_of_ne st (hne x hx)).2.2.1) fun x hx => (unchain_of_ne st (hne x hx)).2.2.2

theorem replaceUsing_spec (hl : IsList t.sym.nextSibling t.sym.previousSibling (as ++ n :: bs).head? (as ++ n :: bs))
    (hover : (as ++ n :: bs).Pairwise (Apart Separate t.sym)) (hshared : Shared t.sym (as ++ n :: bs))
    (hk : IsList t.sym.nextSibling t.sym.previousSibling ks.head? ks) (hdisj : ∀ x ∈ ks, x ∉ as ++ n :: bs)
    (hchild : t.firstChild n = ks.head?) :
    ∃ t', Returns (fun fuel => t.replaceUsing m fuel n) t' ∧ t'.node = t.node ∧ t'.sym.name = t.sym.name ∧
      (Beheaded as ks bs → ¬Chain (· ≠ ·) t'.sym (as ++ (ks ++ bs))) ∧
      (¬Beheaded as ks bs → Chain Separate t'.sym (as ++ (ks ++ bs))) := by
  obtain ⟨hnas, -⟩ := List.nodup_cons.mp (List.nodup_middle.mp hl.nodup)
  have hsub : as ++ bs ⊆ as ++ n :: bs := ((List.sublist_cons_self n bs).append_left as).subset
  have hn := hshared n (List.mem_append_right as List.mem_cons_self)
  obtain ⟨first, hfirst⟩ : ∃ first, (as ++ n :: bs).head? = some first := by cases as <;> exact ⟨_, rfl⟩
  have hovern : t.sym.overloaded n = some first := hn.1.trans hfirst
  rcases ks with _ | ⟨fc, ks⟩
  · -- there are no copies
    have hcut : Returns (fun fuel => leaveChain fuel t.sym n first (t.firstChild n)) (cutOut t.sym n) := by
      rw [hchild]
      exact .const _
    obtain ⟨hovercut, hnamecut, hsymcut⟩ := cutOut_others t.sym n
    refine ⟨_, replaceUsing_of_returns hovern hcut, rfl, hsymcut, fun hbad hchain => ?_, fun hgood => ?_⟩
    · -- the others still know `n`
      obtain ⟨rfl, -, hbs⟩ := hbad
      obtain ⟨b, bs, rfl⟩ := List.exists_cons_of_ne_nil hbs
      have hbn : b ≠ n := ne_of_mem_of_not_mem (List.mem_append_right [] List.mem_cons_self) hnas
      refine not_chain_of_overloaded (x := b) (by simp) hnas ?_ hchain
      rw [(unchain_of_ne _ hbn).2.2.1, hovercut]
      exact (hshared b (by simp)).1
    · refine chain_unchain ?_ hnas
      refine ⟨isList_cutOut hl, ?_, ?_⟩
      · rw [apart_congr hnamecut]
        exact hover.sublist ((List.sublist_cons_self n bs).append_left as)
      · rcases as with _ | ⟨a, as⟩
        · obtain rfl : bs = [] := by
            by_contra hbs
            exact hgood ⟨rfl, rfl, hbs⟩
          exact .inr ⟨by simp, by simp⟩
        · refine .inl fun x hx => ?_
          rw [hovercut, hnamecut]
          exact hshared x (hsub hx)
  · obtain ⟨st', hrun, h⟩ := spliceIn_spec hl hfirst (fun x hx => (hshared x hx).1.trans hfirst) hk hdisj rfl
    have hsplice : Returns (fun fuel => leaveChain fuel t.sym n first (t.firstChild n)) st' := by
      rw [hchild]
      exact hrun
    refine ⟨_, replaceUsing_of_returns hovern hsplice, rfl, h.name, fun hbad => ?_, fun _ => ?_⟩
    · cases hbad.2.1
    · refine chain_unchain (h.chain hover hshared) fun hmem => ?_
      rcases List.mem_append.mp hmem with hmem | hmem
      · exact hnas (List.mem_append_left bs hmem)
      · rcases List.mem_append.mp hmem with hmem | hmem
        · exact hdisj n hmem (List.mem_append_right as List.mem_cons_self)
        · exact hnas (List.mem_append_right as hmem)

/-- The name of a declaration that is replaced: one of methods, in a class. -/
def handled (t : Tree) (inclass : Bool) (n : ℕ) : List ℕ → Option SymName
  | [] => none
  | c :: _ =>
      if (t.node c).nodeType = "cdecl" ∧ (t.node c).storage ≠ some "typedef" ∧
          (inclass && !flag (t.node n).ignore) = true then t.sym.name n
      else none

theorem usingDeclaration_of_none (h : t.handled inclass n ns = none) (fuel : ℕ) :
    t.usingDeclaration m inclass fuel n ns = some t := by
  rcases ns with _ | ⟨c, cs⟩
  · rfl
  · rw [handled] at h
    rw [usingDeclaration]
    dsimp only
    split
    · rename_i hcdecl
      split
      · rfl
      · rename_i htypedef
        cases hname : t.sym.name n with
        | none => rfl
        | some symname =>
            dsimp only
            rw [hname] at h
            by_cases hclass : (inclass && !flag (t.node n).ignore) = true
            · rw [if_pos ⟨hcdecl, htypedef, hclass⟩] at h
              cases h
            · rw [if_neg hclass]
    · rfl

theorem name_of_handled (h : t.handled inclass n ns = some symname) : t.sym.name n = some symname := by
  rcases ns with _ | ⟨c, cs⟩
  · cases h
  · rw [handled] at h
    split at h
    · exact h
    · cases h

theorem usingDeclaration_of_some (h : t.handled inclass n ns = some symname) (fuel : ℕ) :
    t.usingDeclaration m inclass fuel n ns =
      (addMethods n symname fuel ns t none 0).bind fun (t, unodes, ccount) =>
        (t.adopt n unodes ccount).replaceUsing m fuel n := by
  rcases ns with _ | ⟨c, cs⟩
  · cases h
  · rw [handled] at h
    split at h
    · rename_i hand
      obtain ⟨hcdecl, htypedef, hclass⟩ := hand
      rw [usingDeclaration]
      dsimp only
      rw [if_pos hcdecl, if_neg htypedef, h]
      exact if_pos hclass
    · cases h

/-- The methods that the declaration `n` of the chain `xs` brings in. -/
def methods (t : Tree) (inclass : Bool) (n : ℕ) (xs ns : List ℕ) : List ℕ :=
  match t.handled inclass n ns with
  | none => []
  | some symname => ns.filter (t.taken symname (if t.sym.overloaded n = none then [] else xs))

/-- What has to be the case for the copies to take the place of the declaration. -/
def Replaces (t : Tree) (inclass : Bool) (n : ℕ) (as bs ns : List ℕ) : Prop :=
  if t.handled inclass n ns = none then as = [] ∧ bs = [] else ¬Beheaded as (t.methods inclass n (as ++ n :: bs) ns) bs

/-- Before the chain is changed. -/
structure Adopted (t₀ : Tree) (n : ℕ) (symname : SymName) (ms xs : List ℕ) (t : Tree) : Prop where
  copy : ∀ i c, ms[i]? = some c → t.node (t₀.fresh + i) = t₀.methodNode n c ∧
    t.sym.name (t₀.fresh + i) = some ((t₀.sym.name c).getD symname)
  list : IsList t.sym.nextSibling t.sym.previousSibling xs.head? xs
  overname : xs.Pairwise (Apart Separate t.sym)
  copies : IsList t.sym.nextSibling t.sym.previousSibling (t₀.copies ms.length).head? (t₀.copies ms.length)
  firstChild : t.firstChild n = (t₀.copies ms.length).head?
  shared : Shared t.sym xs ∨ xs = [n] ∧ t.sym.overloaded n = none ∧ Chain Separate t.sym (t₀.copies ms.length)

theorem head?_copies (t₀ : Tree) (k : ℕ) : (t₀.copies k).head? = (t₀.ends k).map Prod.fst := by
  cases k <;> rfl

/-- A declaration that is alone in its chain and has got several copies is its first node. -/
theorem Copied.adopted (h : Copied t₀ n symname ms t) (hchain : Chain Separate t₀.sym xs) (hn : n ∈ xs)
    (hlt : ∀ x ∈ xs, x < t₀.fresh) (hchild : t₀.firstChild n = none) :
    Adopted t₀ n symname ms xs (t.adopt n (t₀.ends ms.length) ms.length) := by
  have hsym (x : ℕ) (hx : x ∈ xs) := h.sym x (hlt x hx)
  have hchain' : Chain Separate t.sym xs := hchain.congr (fun x hx => (hsym x hx).1) (fun x hx => (hsym x hx).2.1)
    (fun x hx => (hsym x hx).2.2.1) fun x hx => (hsym x hx).2.2.2
  have hnone : t.firstChild n = none := (h.node n (hlt n hn)).2.2.trans hchild
  have hsingle (halone : xs.length ≤ 1) : xs = [n] := by
    obtain ⟨x, rfl⟩ := List.length_eq_one_iff.mp (Nat.le_antisymm halone (List.length_pos_of_mem hn))
    rw [List.mem_singleton.mp hn]
  have hlist := h.list
  have hcopies (hle : ms.length ≤ 1) : Chain Separate t.sym (t₀.copies ms.length) := by
    refine ⟨h.list, ?_, .inr ⟨by rwa [copies, List.length_range'], h.alone hle⟩⟩
    rw [copies]
    rcases Nat.le_one_iff_eq_zero_or_eq_one.mp hle with hk | hk <;> rw [hk]
    · exact .nil
    · exact List.pairwise_singleton _ _
  rcases hk : ms.length with _ | k
  · rw [hk] at hlist hcopies
    refine ⟨h.copy, hchain'.list, hchain'.overname, by rwa [hk], by rw [hk]; exact hnone, ?_⟩
    refine hchain'.overloaded.imp_right fun halone => ⟨hsingle halone.1, halone.2 n hn, ?_⟩
    rw [hk]
    exact hcopies (Nat.zero_le 1)
  · have hhead : (t₀.copies ms.length).head? = some t₀.fresh := by rw [head?_copies, hk]; rfl
    rw [ends, adopt]
    dsimp only
    by_cases hcond : 1 < k + 1 ∧ t.sym.overloaded n = none
    · obtain rfl : xs = [n] := by
        rcases hchain'.overloaded with hshared | halone
        · rw [(hshared n hn).1, List.head?_eq_none_iff] at hcond
          rw [hcond.2] at hn
          cases hn
        · exact hsingle halone.1
      rw [if_pos hcond]
      refine ⟨h.copy, hchain'.list, List.pairwise_singleton _ n, hlist, ?_, .inl fun x hx => ?_⟩
      · rw [hhead]
        exact Function.update_self ..
      · obtain rfl := List.mem_singleton.mp hx
        refine ⟨Function.update_self .., ?_⟩
        have hover : (Function.update t.sym.overname x (some "_SWIG_0")) x = some "_SWIG_0" := Function.update_self ..
        exact fun heq => Option.some_ne_none _ (hover.symm.trans heq)
    · rw [if_neg hcond]
      refine ⟨h.copy, hchain'.list, hchain'.overname, hlist, ?_, ?_⟩
      · rw [hhead]
        exact Function.update_self ..
      · refine hchain'.overloaded.imp_right fun halone => ⟨hsingle halone.1, halone.2 n hn, hcopies ?_⟩
        by_contra hlt
        exact hcond ⟨by omega, halone.2 n hn⟩

variable (m inclass) in
/-- After `usingDeclaration` of a declaration in a chain. -/
theorem usingDeclaration_spec (hchain : Chain Separate t.sym (as ++ n :: bs)) (hlt : ∀ x ∈ as ++ n :: bs, x < t.fresh)
    (hns : ∀ c ∈ ns, c < t.fresh) (hchild : t.firstChild n = none) :
    ∃ t', Returns (fun fuel => t.usingDeclaration m inclass fuel n ns) t' ∧
      (∀ i c, (t.methods inclass n (as ++ n :: bs) ns)[i]? = some c → t'.node (t.fresh + i) = t.methodNode n c ∧
        t'.sym.name (t.fresh + i) = (t.sym.name c).or (t.sym.name n)) ∧
      (¬t.Replaces inclass n as bs ns →
        ¬Chain (· ≠ ·) t'.sym (as ++ (t.copies (t.methods inclass n (as ++ n :: bs) ns).length ++ bs))) ∧
      (t.Replaces inclass n as bs ns →
        Chain Separate t'.sym (as ++ (t.copies (t.methods inclass n (as ++ n :: bs) ns).length ++ bs))) := by
  have hnmem : n ∈ as ++ n :: bs := List.mem_append_right as List.mem_cons_self
  rw [Replaces, methods]
  cases hhandled : t.handled inclass n ns with
  | none =>
      rw [if_pos rfl]
      refine ⟨t, ⟨0, fun fuel _ => usingDeclaration_of_none hhandled fuel⟩, by simp, hchain.not_without, ?_⟩
      rintro ⟨rfl, rfl⟩
      exact chain_nil
  | some symname =>
      rw [if_neg (Option.some_ne_none symname)]
      dsimp only
      have hvs : IsList t.sym.nextSibling t.sym.previousSibling (t.sym.overloaded n)
          (if t.sym.overloaded n = none then [] else as ++ n :: bs) := by
        split
        · rename_i hnone
          rw [hnone]
          exact .nil
        · rename_i hsome
          rcases hchain.overloaded with hshared | halone
          · rw [(hshared n hnmem).1]
            exact hchain.list
          · exact absurd (halone.2 n hnmem) hsome
      have hvslt (x : ℕ) (hx : x ∈ if t.sym.overloaded n = none then [] else as ++ n :: bs) : x < t.fresh := by
        split at hx
        · cases hx
        · exact hlt x hx
      obtain ⟨t₁, hadd, h₁⟩ := addMethods_spec (.refl t n symname) (hlt n hnmem) hns hvslt hvs
      rw [List.nil_append] at hadd h₁
      generalize ns.filter _ = ms at hadd h₁ ⊢
      have h₂ := h₁.adopted hchain hnmem hlt hchild
      have hname (c : ℕ) : some ((t.sym.name c).getD symname) = (t.sym.name c).or (t.sym.name n) := by
        rw [name_of_handled hhandled]
        cases t.sym.name c <;> rfl
      have hrun {t' : Tree}
          (h : Returns (fun fuel => (t₁.adopt n (t.ends ms.length) ms.length).replaceUsing m fuel n) t') :
          Returns (fun fuel => t.usingDeclaration m inclass fuel n ns) t' := by
        refine Returns.congr (Returns.bind (g := fun r fuel => (r.1.adopt n r.2.1 r.2.2).replaceUsing m fuel n)
          ⟨_, hadd⟩ h) fun fuel => ?_
        exact usingDeclaration_of_some hhandled fuel
      have hcopies : t.copies ms.length = [] ↔ ms = [] := by
        rw [copies, List.range'_eq_nil_iff, List.length_eq_zero_iff]
      have hbeheaded : Beheaded as (t.copies ms.length) bs ↔ Beheaded as ms bs := by
        rw [Beheaded, Beheaded, hcopies]
      rcases h₂.shared with hshared | ⟨hsingle, hnone, hchain'⟩
      · have hdisj (x : ℕ) (hx : x ∈ t.copies ms.length) : x ∉ as ++ n :: bs := by
          intro hmem
          have := hlt x hmem
          rw [mem_copies] at hx
          omega
        obtain ⟨t', ht', hnode, hsymname, hbad, hgood⟩ :=
          replaceUsing_spec (m := m) h₂.list h₂.overname hshared h₂.copies hdisj h₂.firstChild
        rw [hbeheaded] at hbad hgood
        refine ⟨t', hrun ht', fun i c hi => ?_, fun h => hbad (not_not.mp h), hgood⟩
        rw [hnode, hsymname, ← hname]
        exact h₂.copy i c hi
      · obtain ⟨rfl, rfl⟩ : as = [] ∧ bs = [] := by
          have hlen := congrArg List.length hsingle
          simp only [List.length_append, List.length_cons, List.length_nil] at hlen
          exact ⟨List.length_eq_zero_iff.mp (by omega), List.length_eq_zero_iff.mp (by omega)⟩
        refine ⟨_, hrun (.congr (.const _) fun fuel => by rw [replaceUsing, hnone]), fun i c hi => ?_,
          fun h => absurd (fun hand : Beheaded [] ms [] => hand.2.2 rfl) h, fun _ => ?_⟩
        · rw [← hname]
          exact h₂.copy i c hi
        · rwa [List.nil_append, List.append_nil]

/-- The declaration `n` between the nodes `as` and `bs` of a chain, and the symbols it names. -/
structure InChain (t : Tree) (n : ℕ) (as bs ns : List ℕ) : Prop where
  chain : Chain Separate t.sym (as ++ n :: bs)
  lt : ∀ x ∈ as ++ n :: bs, x < t.fresh
  symbols : ∀ c ∈ ns, c < t.fresh
  firstChild : t.firstChild n = none
  parentNode : is_protected (t.node n) = true → t.parentNode n ≠ none

theorem removes_ne_none {N : Type} {a : Nodes N} {n : N} (h : is_protected (a.node n) = true → a.parentNode n ≠ none)
    (x : N) : removes m a n x ≠ none := by
  have haccess : is_non_virtual_protected_access m a n ≠ none := by
    rw [is_non_virtual_protected_access]
    split
    · rename_i hand
      simp only [Bool.and_eq_true] at hand
      obtain ⟨p, hp⟩ := Option.ne_none_iff_exists'.mp (h hand.1.2)
      rw [hp]
      exact Option.some_ne_none _
    · exact Option.some_ne_none _
  obtain ⟨access, haccess⟩ := Option.ne_none_iff_exists'.mp haccess
  rw [removes, haccess]
  split
  · exact Option.some_ne_none _
  split
  · exact Option.some_ne_none _
  · exact Option.some_ne_none _

/-- What is left of a chain by the two functions, and when it is the chain it should be. -/
theorem overloads_iff (m : DirectorMode) (inclass : Bool) {t : Tree} {n : ℕ} {as bs ns : List ℕ}
    (h : t.InChain n as bs ns) :
    (∃ t', Returns (fun fuel => t.usingDeclaration m inclass fuel n ns) t' ∧
      (∀ i c, (t.methods inclass n (as ++ n :: bs) ns)[i]? = some c → t'.node (t.fresh + i) = t.methodNode n c ∧
        t'.sym.name (t.fresh + i) = (t.sym.name c).or (t.sym.name n)) ∧
      (Chain (· ≠ ·) t'.sym (as ++ (t.copies (t.methods inclass n (as ++ n :: bs) ns).length ++ bs)) ↔
        t.Replaces inclass n as bs ns) ∧
      (t.Replaces inclass n as bs ns →
        Chain Separate t'.sym (as ++ (t.copies (t.methods inclass n (as ++ n :: bs) ns).length ++ bs)))) ∧
    ∃ st', Returns (fun fuel => clean_overloaded m t.toNodes fuel t.sym n) st' ∧
      (CleanChain (· ≠ ·) m t.toNodes st' (as ++ n :: bs) ↔ CleansWell m t.toNodes n (as ++ n :: bs)) := by
  have hne (a b : String) (hab : Separate a b) : a ≠ b := hab.ne
  constructor
  · obtain ⟨t', hrun, hcopy, hbad, hgood⟩ := usingDeclaration_spec m inclass h.chain h.lt h.symbols h.firstChild
    refine ⟨t', hrun, hcopy, ⟨fun hchain => ?_, fun hreplaces => (hgood hreplaces).mono hne⟩, hgood⟩
    by_contra hreplaces
    exact hbad hreplaces hchain
  · exact cleanChain_iff (h.chain.mono hne) (List.mem_append_right as List.mem_cons_self)
      fun x _ => removes_ne_none h.parentNode x

/-- A method with a declarator. -/
def methodOf (decl : List Byte) : Node where
  nodeType := "cdecl"
  storage := none
  access := none
  decl := some decl
  code := false
  error := false
  ignore := none
  extend := none
  director := none
  nodirector := none

/-- `struct Derived : Base { using Base::m; void m(bool); void m(int); };` where the base class
has `void m(bool)`, the node 3. -/
def overridden : Tree where
  node x :=
    if x = 0 then { methodOf [] with nodeType := "using", decl := none }
    else if x = 2 then methodOf (lit "f(int).")
    else methodOf (lit "f(bool).")
  parentNode _ := none
  sym :=
    { table := fun _ => some 0
      symtab := fun _ => true
      name := fun _ => some (lit "m")
      overname := fun x => some (SymbolTable.overnameOf x)
      nextSibling := fun x => if x < 2 then some (x + 1) else none
      previousSibling := fun x => if x = 0 then none else some (x - 1)
      overloaded := fun _ => some 0 }
  firstChild _ := none
  fresh := 4

theorem inChain_overridden : overridden.InChain 0 [] [1, 2] [3] where
  chain :=
    { list := ⟨⟨some 2, rfl, rfl, rfl, rfl, rfl, rfl, rfl, rfl⟩, by decide⟩
      overname := by
        have hne : [0, 1, 2].Pairwise (· ≠ ·) := by decide
        exact hne.imp fun hij => ⟨_, _, rfl, rfl, separate_overnameOf hij⟩
      overloaded := .inl fun _ _ => ⟨rfl, Option.some_ne_none _⟩ }
  lt := by decide
  symbols := by decide
  firstChild := rfl
  parentNode h := absurd h (by decide)

def noDirectors : DirectorMode := ⟨false, false, false⟩

/-- The declaration goes, the methods behind it are not told; nothing is wrong with a clean chain. -/
theorem overloads_iff_overridden :
    (∃ t', Returns (fun fuel => overridden.usingDeclaration noDirectors true fuel 0 [3]) t' ∧
      (Chain (· ≠ ·) t'.sym [1, 2] ↔ overridden.Replaces true 0 [] [1, 2] [3])) ∧
    ∃ st', Returns (fun fuel => clean_overloaded noDirectors overridden.toNodes fuel overridden.sym 0) st' ∧
      CleanChain (· ≠ ·) noDirectors overridden.toNodes st' [0, 1, 2] := by
  obtain ⟨⟨t', hrun, -, hiff, -⟩, st', hclean, hwell⟩ := overloads_iff noDirectors true inChain_overridden
  have hmethods : overridden.methods true 0 [0, 1, 2] [3] = [] := by decide
  refine ⟨⟨t', hrun, ?_⟩, st', hclean, hwell.mpr (.inl (by decide))⟩
  rw [← hiff]
  have hchain (ms : List ℕ) (hms : ms = []) : Chain (· ≠ ·) t'.sym [1, 2] ↔
      Chain (· ≠ ·) t'.sym (overridden.copies ms.length ++ [1, 2]) := by
    rw [hms]
    rfl
  exact hchain _ hmethods

/-- All but one of the methods are ignored. -/
def ignoring : Nodes ℕ :=
  { overridden.toNodes with
    node := fun x => if x = 1 then overridden.node x else { overridden.node x with ignore := some "1" } }

/-- The first declaration of a chain brings no method in; a call for a node that is ignored. -/
theorem overridden_beheads :
    (overridden.InChain 0 [] [1, 2] [3] ∧
      ¬∃ t', Returns (fun fuel => overridden.usingDeclaration noDirectors true fuel 0 [3]) t' ∧
        Chain (· ≠ ·) t'.sym [1, 2]) ∧
    ¬∃ st', Returns (fun fuel => clean_overloaded noDirectors ignoring fuel overridden.sym 0) st' ∧
      CleanChain (· ≠ ·) noDirectors ignoring st' [0, 1, 2] := by
  refine ⟨⟨inChain_overridden, ?_⟩, ?_⟩
  · rintro ⟨t', hrun, hchain⟩
    have h := inChain_overridden
    obtain ⟨t'', hrun', -, hbad, -⟩ := usingDeclaration_spec noDirectors true h.chain h.lt h.symbols h.firstChild
    obtain rfl := hrun.unique hrun'
    have hmethods : overridden.methods true 0 ([] ++ 0 :: [1, 2]) [3] = [] := by decide
    rw [hmethods] at hbad
    refine hbad ?_ hchain
    have hhandled : overridden.handled true 0 [3] = some (lit "m") := rfl
    rw [Replaces, hhandled, hmethods, if_neg (Option.some_ne_none _)]
    exact fun hgood => hgood ⟨rfl, rfl, List.cons_ne_nil 1 [2]⟩
  · rintro ⟨st', hrun, hclean⟩
    have hne (a b : String) (hab : Separate a b) : a ≠ b := hab.ne
    obtain ⟨st'', hrun', hiff⟩ := cleanChain_iff (m := noDirectors) (a := ignoring) (inChain_overridden.chain.mono hne)
      List.mem_cons_self fun x _ => removes_ne_none (fun h => absurd h (by decide)) x
    obtain rfl := hrun.unique hrun'
    have hwell := hiff.mp hclean
    rw [CleansWell] at hwell
    exact absurd hwell (by decide)

end Tree

end Swig.TypePass
