import Swig.Lib.DoublyLinked
import Swig.Lib.Fuel
import Swig.Symbol.SymbolTable
import Mathlib.Data.List.Perm.Subperm

/-!
`clean_overloaded` (`utils.cxx`): a chain of overloaded methods without the ones that get
no wrapper.
-/

namespace Swig.TypePass

open DoublyLinked Fuel

/-- The attributes of a node that are read here; of `code` whether it is set. -/
structure Node where
  nodeType : String
  storage : Option String
  access : Option String
  decl : Option (List Byte)
  code : Bool
  error : Bool
  ignore : Option String
  extend : Option String
  director : Option String
  nodirector : Option String
  deriving DecidableEq

/-- `GetFlag`, given the attribute. -/
def flag (val : Option String) : Bool := val.any (· ≠ "0")

structure Nodes (N : Type) where
  node : N → Node
  parentNode : N → Option N

structure DirectorMode where
  director_mode : Bool
  director_protected_mode : Bool
  all_protected_mode : Bool
  deriving DecidableEq

def is_protected (n : Node) : Bool := n.access = some "protected"

section Functions

variable {N : Type} [DecidableEq N] (m : DirectorMode) (a : Nodes N)

def is_member_director_helper (parentnode member : Node) : Bool :=
  if flag parentnode.nodirector then false
  else
    let parent_director := m.director_mode && flag parentnode.director
    let cdecl_director := parent_director || flag member.director
    cdecl_director && !flag member.nodirector && !flag member.extend

def is_member_director (member : N) : Bool :=
  match a.parentNode member with
  | none => false
  | some parentnode =>
      (a.node member).storage = some "virtual" && is_member_director_helper m (a.node parentnode) (a.node member)

/-- No result without a parent node to ask. -/
def is_non_virtual_protected_access (n : N) : Option Bool :=
  if m.director_mode && m.director_protected_mode && m.all_protected_mode && is_protected (a.node n) &&
      (a.node n).storage ≠ some "virtual" then
    (a.parentNode n).map fun parentnode => is_member_director_helper m (a.node parentnode) (a.node n)
  else some false

/-- Whether `nn` is taken out of the chain of `n`. -/
def removes (n nn : N) : Option Bool :=
  if flag (a.node nn).ignore || (a.node nn).error || (a.node nn).nodeType = "template" then some true
  else if (a.node nn).nodeType = "cdecl" && is_protected (a.node nn) && !is_member_director m a nn then
    -- the node asked about is `n`, not `nn`
    (is_non_virtual_protected_access m a n).map (!·)
  else some false

/-- The siblings of a node are linked with each other. -/
def cutOut (st : SymbolTable N) (nn : N) : SymbolTable N :=
  let ps := st.previousSibling nn
  let ns := st.nextSibling nn
  let st := match ps with
    | some ps => st.setNextSibling ps ns
    | none => st
  match ns with
  | some ns => st.setPreviousSibling ns ps
  | none => st

def removeOverloaded (st : SymbolTable N) (nn : N) : SymbolTable N :=
  (((cutOut st nn).setPreviousSibling nn none).setNextSibling nn none).setOverloaded nn none

/-- The walk from `nn` on, with the first node that stays. -/
def cleanLoop (n : N) : ℕ → SymbolTable N → Option N → Option N → Option (SymbolTable N × Option N)
  | _, st, first, none => some (st, first)
  | 0, _, _, some _ => none
  | fuel + 1, st, first, some nn =>
      (removes m a n nn).bind fun removed =>
        if removed then cleanLoop n fuel (removeOverloaded st nn) first (st.nextSibling nn)
        else
          let first := first.getD nn
          let st := st.setOverloaded nn (some first)
          cleanLoop n fuel st (some first) (st.nextSibling nn)

def clean_overloaded (fuel : ℕ) (st : SymbolTable N) (n : N) : Option (SymbolTable N) :=
  (cleanLoop m a n fuel st none (st.overloaded n)).map fun (st, first) =>
    if first.bind st.nextSibling = none then st.setOverloaded n none else st

end Functions

/-! ### Chains -/

variable {N : Type} {R : String → String → Prop} {st st' : SymbolTable N} {n : N} {xs as bs ks : List N}

/-- Two nodes with overnames that go together. -/
def Apart (R : String → String → Prop) (st : SymbolTable N) (x y : N) : Prop :=
  ∃ a b, st.overname x = some a ∧ st.overname y = some b ∧ R a b

theorem apart_congr (h : st'.overname = st.overname) : Apart R st' = Apart R st := by
  funext x y
  rw [Apart, Apart, h]

/-- Every node knows the first, and has an overname. -/
def Shared (st : SymbolTable N) (xs : List N) : Prop :=
  ∀ x ∈ xs, st.overloaded x = xs.head? ∧ st.overname x ≠ none

/-- The overloaded methods `xs`, in order; a method that is alone does not have to know itself. -/
structure Chain (R : String → String → Prop) (st : SymbolTable N) (xs : List N) : Prop where
  list : IsList st.nextSibling st.previousSibling xs.head? xs
  overname : xs.Pairwise (Apart R st)
  overloaded : Shared st xs ∨ xs.length ≤ 1 ∧ ∀ x ∈ xs, st.overloaded x = none

theorem Chain.mono {R' : String → String → Prop} (hR : ∀ a b, R a b → R' a b) (h : Chain R st xs) :
    Chain R' st xs := by
  refine ⟨h.list, h.overname.imp ?_, h.overloaded⟩
  rintro x y ⟨a, b, ha, hb, hab⟩
  exact ⟨a, b, ha, hb, hR a b hab⟩

theorem Chain.shared (h : Chain R st xs) (hlen : 2 ≤ xs.length) : Shared st xs :=
  h.overloaded.resolve_right fun halone => absurd halone.1 (by omega)

/-- What a chain of one node is. -/
theorem chain_singleton {x : N} (hnext : st.nextSibling x = none) (hprev : st.previousSibling x = none)
    (hoverloaded : st.overloaded x = none) : Chain R st [x] where
  list := ⟨⟨some x, rfl, hprev, rfl, hnext⟩, List.nodup_singleton x⟩
  overname := List.pairwise_singleton _ x
  overloaded := .inr ⟨Nat.le_refl 1, by simpa using hoverloaded⟩

theorem chain_nil : Chain R st [] where
  list := .nil
  overname := .nil
  overloaded := .inr ⟨by simp, by simp⟩

/-! ### A node less -/

variable [DecidableEq N]

theorem cutOut_nextSibling (st : SymbolTable N) (n y : N) : (cutOut st n).nextSibling y =
    if st.previousSibling n = some y then st.nextSibling n else st.nextSibling y := by
  rw [cutOut]
  cases hprev : st.previousSibling n with
  | none => cases st.nextSibling n <;> rfl
  | some p =>
      by_cases hp : p = y
      · subst hp
        rw [if_pos rfl]
        cases st.nextSibling n <;> exact Function.update_self ..
      · rw [if_neg fun heq => hp (Option.some.inj heq)]
        cases st.nextSibling n <;> exact Function.update_of_ne (Ne.symm hp) ..

theorem cutOut_previousSibling (st : SymbolTable N) (n y : N) : (cutOut st n).previousSibling y =
    if st.nextSibling n = some y then st.previousSibling n else st.previousSibling y := by
  rw [cutOut]
  cases hnext : st.nextSibling n with
  | none => cases st.previousSibling n <;> rfl
  | some x =>
      by_cases hx : x = y
      · subst hx
        rw [if_pos rfl]
        exact Function.update_self ..
      · rw [if_neg fun heq => hx (Option.some.inj heq)]
        cases st.previousSibling n <;> exact Function.update_of_ne (Ne.symm hx) ..

theorem cutOut_others (st : SymbolTable N) (n : N) :
    (cutOut st n).overloaded = st.overloaded ∧ (cutOut st n).overname = st.overname ∧
      (cutOut st n).name = st.name := by
  rw [cutOut]
  cases st.previousSibling n <;> cases st.nextSibling n <;> exact ⟨rfl, rfl, rfl⟩

theorem isList_cutOut (hl : IsList st.nextSibling st.previousSibling (as ++ n :: bs).head? (as ++ n :: bs)) :
    IsList (cutOut st n).nextSibling (cutOut st n).previousSibling (as ++ bs).head? (as ++ bs) := by
  obtain ⟨hprev, hnext⟩ := hl.mid
  have hnodup : (as ++ bs).Nodup := hl.nodup.sublist ((List.sublist_cons_self n bs).append_left as)
  have hdisj := (List.nodup_append.mp hnodup).2.2
  refine hl.exchange .nil hnodup (fun x hx => ?_) (fun x hx => ?_) (by simp) (by simp)
    (fun x hx => ?_) fun x hx => ?_
  · rw [cutOut_nextSibling, hprev, hnext, List.nil_append]
  · rw [cutOut_previousSibling, hnext, if_neg fun hhead => hdisj x hx x (List.mem_of_head? hhead) rfl]
  · rw [cutOut_nextSibling, hprev, if_neg fun hlast => hdisj x (List.mem_of_getLast? hlast) x hx rfl]
  · rw [cutOut_previousSibling, hprev, hnext, List.append_nil]

theorem removeOverloaded_self (st : SymbolTable N) (n : N) : (removeOverloaded st n).nextSibling n = none ∧
    (removeOverloaded st n).previousSibling n = none ∧ (removeOverloaded st n).overloaded n = none :=
  ⟨Function.update_self .., Function.update_self .., Function.update_self ..⟩

theorem removeOverloaded_of_ne (st : SymbolTable N) {n y : N} (hy : y ≠ n) :
    (removeOverloaded st n).nextSibling y = (cutOut st n).nextSibling y ∧
      (removeOverloaded st n).previousSibling y = (cutOut st n).previousSibling y ∧
      (removeOverloaded st n).overloaded y = st.overloaded y := by
  refine ⟨Function.update_of_ne hy .., Function.update_of_ne hy .., ?_⟩
  rw [← (cutOut_others st n).1]
  exact Function.update_of_ne hy ..

theorem isList_removeOverloaded
    (hl : IsList st.nextSibling st.previousSibling (as ++ n :: bs).head? (as ++ n :: bs)) :
    IsList (removeOverloaded st n).nextSibling (removeOverloaded st n).previousSibling (as ++ bs).head? (as ++ bs) := by
  have hn := (List.nodup_cons.mp (List.nodup_middle.mp hl.nodup)).1
  have hne (x : N) (hx : x ∈ as ++ bs) : x ≠ n := ne_of_mem_of_not_mem hx hn
  exact (isList_cutOut hl).congr (fun x hx => (removeOverloaded_of_ne st (hne x hx)).1)
    fun x hx => (removeOverloaded_of_ne st (hne x hx)).2.1

/-- Only the neighbours of the node notice. -/
theorem removeOverloaded_frame (hl : IsList st.nextSibling st.previousSibling (as ++ n :: bs).head? (as ++ n :: bs))
    {y : N} (hy : y ∉ as ++ n :: bs) : (removeOverloaded st n).nextSibling y = st.nextSibling y ∧
      (removeOverloaded st n).previousSibling y = st.previousSibling y ∧
      (removeOverloaded st n).overloaded y = st.overloaded y := by
  obtain ⟨hprev, hnext⟩ := hl.mid
  simp only [List.mem_append, List.mem_cons, not_or] at hy
  obtain ⟨hyas, hyn, hybs⟩ := hy
  obtain ⟨h₁, h₂, h₃⟩ := removeOverloaded_of_ne st hyn
  refine ⟨?_, ?_, h₃⟩
  · rw [h₁, cutOut_nextSibling, hprev, if_neg fun hlast => hyas (List.mem_of_getLast? hlast)]
  · rw [h₂, cutOut_previousSibling, hnext, if_neg fun hhead => hybs (List.mem_of_head? hhead)]

/-! ### The walk -/

variable {m : DirectorMode} {a : Nodes N}

variable (m a) in
/-- The nodes that a call for `n` leaves. -/
def remaining (n : N) (xs : List N) : List N := xs.filter fun x => removes m a n x = some false

/-- What the walk makes of the nodes `rest` behind the nodes `kept`. -/
structure Walked (st st' : SymbolTable N) (kept rest zs : List N) : Prop where
  list : IsList st'.nextSibling st'.previousSibling zs.head? zs
  overloaded : ∀ x ∈ zs, st'.overloaded x = zs.head?
  removed : ∀ x ∈ rest, x ∉ zs → st'.nextSibling x = none ∧ st'.previousSibling x = none ∧ st'.overloaded x = none
  overname : st'.overname = st.overname
  frame : ∀ x, x ∉ kept ++ rest → st'.nextSibling x = st.nextSibling x ∧
    st'.previousSibling x = st.previousSibling x ∧ st'.overloaded x = st.overloaded x

theorem cleanLoop_spec {kept rest : List N}
    (hl : IsList st.nextSibling st.previousSibling (kept ++ rest).head? (kept ++ rest))
    (hkept : ∀ x ∈ kept, st.overloaded x = kept.head?) (hremoves : ∀ x ∈ rest, removes m a n x ≠ none) :
    ∃ st', (∀ fuel, rest.length ≤ fuel → cleanLoop m a n fuel st kept.head? rest.head? =
        some (st', (kept ++ remaining m a n rest).head?)) ∧
      Walked st st' kept rest (kept ++ remaining m a n rest) := by
  induction rest generalizing st kept with
  | nil =>
      refine ⟨st, fun fuel _ => ?_, ?_⟩
      · rw [remaining, List.filter_nil, List.append_nil]
        cases fuel <;> rfl
      · rw [remaining, List.filter_nil]
        refine ⟨hl, fun x hx => ?_, by simp, rfl, fun x _ => ⟨rfl, rfl, rfl⟩⟩
        rw [List.append_nil] at hx ⊢
        exact hkept x hx
  | cons r rest ih =>
      obtain ⟨hr, hnodup⟩ := List.nodup_cons.mp (List.nodup_middle.mp hl.nodup)
      obtain ⟨removed, hremoved⟩ := Option.ne_none_iff_exists'.mp (hremoves r List.mem_cons_self)
      have hnext : st.nextSibling r = rest.head? := hl.mid.2
      have hrest := fun x hx => hremoves x (List.mem_cons_of_mem r hx)
      cases removed with
      | true =>
          have hzs : remaining m a n (r :: rest) = remaining m a n rest := by
            rw [remaining, List.filter_cons_of_neg (by simp [hremoved]), remaining]
          have hkept' (x : N) (hx : x ∈ kept) : (removeOverloaded st r).overloaded x = kept.head? := by
            rw [(removeOverloaded_of_ne st (ne_of_mem_of_not_mem (List.mem_append_left rest hx) hr)).2.2, hkept x hx]
          obtain ⟨st', hrun, h⟩ := ih (isList_removeOverloaded hl) hkept' hrest
          rw [hzs]
          refine ⟨st', fun fuel hfuel => ?_, h.list, h.overloaded, fun x hx hxs => ?_, ?_, fun x hx => ?_⟩
          · obtain ⟨fuel, rfl⟩ := Nat.exists_eq_add_of_le' (Nat.one_le_of_lt hfuel)
            rw [List.head?_cons, cleanLoop, hremoved, Option.bind_some, if_pos rfl, hnext]
            exact hrun fuel (by simpa using hfuel)
          · rcases List.mem_cons.mp hx with rfl | hx
            · obtain ⟨h₁, h₂, h₃⟩ := h.frame x hr
              obtain ⟨hn₁, hn₂, hn₃⟩ := removeOverloaded_self st x
              exact ⟨h₁.trans hn₁, h₂.trans hn₂, h₃.trans hn₃⟩
            · exact h.removed x hx hxs
          · rw [h.overname]
            exact (cutOut_others st r).2.1
          · have hx' : x ∉ kept ++ rest :=
              fun hmem => hx (((List.sublist_cons_self r rest).append_left kept).subset hmem)
            obtain ⟨h₁, h₂, h₃⟩ := h.frame x hx'
            obtain ⟨hn₁, hn₂, hn₃⟩ := removeOverloaded_frame hl hx
            exact ⟨h₁.trans hn₁, h₂.trans hn₂, h₃.trans hn₃⟩
      | false =>
          have hzs : kept ++ remaining m a n (r :: rest) = (kept ++ [r]) ++ remaining m a n rest := by
            rw [remaining, List.filter_cons_of_pos (by simp [hremoved]), remaining, List.append_assoc]
            rfl
          have hhead : (kept ++ [r]).head? = some (kept.head?.getD r) := by cases kept <;> rfl
          have hl' : IsList (st.setOverloaded r (some (kept.head?.getD r))).nextSibling
              (st.setOverloaded r (some (kept.head?.getD r))).previousSibling ((kept ++ [r]) ++ rest).head?
              ((kept ++ [r]) ++ rest) := by
            rw [List.append_assoc]
            exact hl
          have hkept' (x : N) (hx : x ∈ kept ++ [r]) :
              (st.setOverloaded r (some (kept.head?.getD r))).overloaded x = (kept ++ [r]).head? := by
            rw [hhead]
            rcases List.mem_append.mp hx with hx | hx
            · have hxr : x ≠ r := ne_of_mem_of_not_mem (List.mem_append_left rest hx) hr
              obtain ⟨y, ys, rfl⟩ := List.exists_cons_of_ne_nil (List.ne_nil_of_mem hx)
              exact (Function.update_of_ne hxr ..).trans (hkept x hx)
            · rw [List.mem_singleton.mp hx]
              exact Function.update_self ..
          obtain ⟨st', hrun, h⟩ := ih hl' hkept' hrest
          rw [hzs]
          refine ⟨st', fun fuel hfuel => ?_, h.list, h.overloaded, fun x hx hxs => ?_, h.overname, fun x hx => ?_⟩
          · obtain ⟨fuel, rfl⟩ := Nat.exists_eq_add_of_le' (Nat.one_le_of_lt hfuel)
            rw [List.head?_cons, cleanLoop, hremoved, Option.bind_some, if_neg Bool.false_ne_true]
            have hrun := hrun fuel (by simpa using hfuel)
            rw [hhead, ← hnext] at hrun
            exact hrun
          · rcases List.mem_cons.mp hx with rfl | hx
            · exact absurd (List.mem_append_left _ (List.mem_append_right kept List.mem_cons_self)) hxs
            · exact h.removed x hx hxs
          · have hx' : x ∉ (kept ++ [r]) ++ rest := by rwa [List.append_assoc]
            have hxr : x ≠ r := by
              rintro rfl
              exact hx (List.mem_append_right kept List.mem_cons_self)
            obtain ⟨h₁, h₂, h₃⟩ := h.frame x hx'
            exact ⟨h₁, h₂, h₃.trans (Function.update_of_ne hxr ..)⟩

/-- After a call for `n` on a chain that knows its first node. -/
structure Cleaned (st' : SymbolTable N) (n : N) (xs zs : List N) : Prop where
  list : IsList st'.nextSibling st'.previousSibling zs.head? zs
  overloaded : ∀ x ∈ zs, st'.overloaded x = if zs.length ≤ 1 ∧ x = n then none else zs.head?
  removed : ∀ x ∈ xs, x ∉ zs → st'.nextSibling x = none ∧ st'.previousSibling x = none ∧ st'.overloaded x = none

theorem clean_overloaded_spec (hl : IsList st.nextSibling st.previousSibling xs.head? xs) (hshared : Shared st xs)
    (hn : n ∈ xs) (hremoves : ∀ x ∈ xs, removes m a n x ≠ none) :
    ∃ st', Returns (fun fuel => clean_overloaded m a fuel st n) st' ∧ Cleaned st' n xs (remaining m a n xs) ∧
      st'.overname = st.overname := by
  obtain ⟨st', hrun, h⟩ := cleanLoop_spec (show IsList _ _ ([] ++ xs).head? ([] ++ xs) from hl) (by simp) hremoves
  generalize remaining m a n xs = zs at hrun h
  rw [List.nil_append] at hrun h
  have hfirst := h.list.next_head_eq_none_iff
  have hclean (fuel : ℕ) (hfuel : xs.length ≤ fuel) : clean_overloaded m a fuel st n =
      some (if zs.length ≤ 1 then st'.setOverloaded n none else st') := by
    have hloop : cleanLoop m a n fuel st none xs.head? = some (st', zs.head?) := hrun fuel hfuel
    rw [clean_overloaded, (hshared n hn).1, hloop, Option.map_some]
    exact congrArg some (if_congr hfirst rfl rfl)
  refine ⟨_, ⟨xs.length, hclean⟩, ?_⟩
  by_cases hlen : zs.length ≤ 1
  · rw [if_pos hlen]
    refine ⟨⟨h.list, fun x hx => ?_, fun x hx hxs => ?_⟩, h.overname⟩
    · rw [← h.overloaded x hx]
      by_cases hxn : x = n
      · rw [if_pos ⟨hlen, hxn⟩, hxn]
        exact Function.update_self ..
      · rw [if_neg fun hand => hxn hand.2]
        exact Function.update_of_ne hxn ..
    · obtain ⟨h₁, h₂, h₃⟩ := h.removed x hx hxs
      refine ⟨h₁, h₂, ?_⟩
      by_cases hxn : x = n
      · rw [hxn]
        exact Function.update_self ..
      · exact (Function.update_of_ne hxn ..).trans h₃
  · rw [if_neg hlen]
    refine ⟨⟨h.list, fun x hx => ?_, h.removed⟩, h.overname⟩
    rw [if_neg fun hand => hlen hand.1]
    exact h.overloaded x hx

/-- A method that is alone and does not know itself. -/
theorem clean_overloaded_alone (hoverloaded : st.overloaded n = none) (fuel : ℕ) :
    clean_overloaded m a fuel st n = some (st.setOverloaded n none) := by
  rw [clean_overloaded, hoverloaded]
  cases fuel <;> rfl

variable (m a) in
/-- The nodes that are not ignored, erroneous, templates or inaccessible: each of them is asked about. -/
def sound (xs : List N) : List N := xs.filter fun x => removes m a x x = some false

/-- The chain is that of the sound nodes, and a single one of them is not overloaded. -/
def CleanChain (R : String → String → Prop) (m : DirectorMode) (a : Nodes N) (st' : SymbolTable N) (xs : List N) :
    Prop :=
  Chain R st' (sound m a xs) ∧ ((sound m a xs).length ≤ 1 → ∀ x ∈ xs, st'.overloaded x = none)

variable (m a) in
/-- The right nodes stay, and of a single one the call is for it. -/
def CleansWell (n : N) (xs : List N) : Prop :=
  2 ≤ (sound m a xs).length ∧ remaining m a n xs = sound m a xs ∨
    (sound m a xs).length ≤ 1 ∧ (remaining m a n xs = [] ∨ remaining m a n xs = [n])

/-- When two nodes or more are sound. -/
theorem Cleaned.chain_iff (h : Cleaned st' n xs (remaining m a n xs)) (hnodup : xs.Nodup)
    (hover : xs.Pairwise (Apart R st')) (hname : ∀ x ∈ xs, st'.overname x ≠ none)
    (hlen : 2 ≤ (sound m a xs).length) : Chain R st' (sound m a xs) ↔ remaining m a n xs = sound m a xs := by
  constructor
  · intro hc
    have hshared := hc.shared hlen
    have hsub : sound m a xs ⊆ remaining m a n xs := by
      intro y hy
      by_contra hyz
      have hnone := (h.removed y (List.mem_of_mem_filter hy) hyz).2.2
      rw [(hshared y hy).1] at hnone
      rw [List.head?_eq_none_iff.mp hnone] at hy
      cases hy
    have hlen' : 2 ≤ (remaining m a n xs).length := by
      have hnodup' : (sound m a xs).Nodup := hnodup.filter _
      exact Nat.le_trans hlen (hnodup'.subperm hsub).length_le
    obtain ⟨y, hy⟩ := List.exists_mem_of_length_pos (Nat.lt_of_lt_of_le Nat.zero_lt_two hlen)
    have hhead : (remaining m a n xs).head? = (sound m a xs).head? := by
      have hover := h.overloaded y (hsub hy)
      rw [if_neg fun hand => absurd hand.1 (by omega)] at hover
      rw [← hover, (hshared y hy).1]
    have hlist := h.list
    rw [hhead] at hlist
    exact hlist.unique hc.list
  · intro heq
    rw [heq] at h
    refine ⟨h.list, hover.filter _, .inl fun x hx => ⟨?_, hname x (List.mem_of_mem_filter hx)⟩⟩
    rw [h.overloaded x hx, if_neg fun hand => absurd hand.1 (by omega)]

/-- When one at most is sound. -/
theorem Cleaned.alone_iff (h : Cleaned st' n xs (remaining m a n xs)) (hlen : (sound m a xs).length ≤ 1) :
    (Chain R st' (sound m a xs) ∧ ∀ x ∈ xs, st'.overloaded x = none) ↔
      remaining m a n xs = [] ∨ remaining m a n xs = [n] := by
  have hmem {x : N} (hx : x ∈ remaining m a n xs) : x ∈ xs := List.mem_of_mem_filter hx
  constructor
  · rintro ⟨-, hnone⟩
    rcases hzs : remaining m a n xs with _ | ⟨z, zs⟩
    · exact .inl rfl
    · right
      have hz : z ∈ remaining m a n xs := by simp [hzs]
      have hover := h.overloaded z hz
      rw [hnone z (hmem hz), hzs] at hover
      by_cases hand : (z :: zs).length ≤ 1 ∧ z = n
      · obtain ⟨hone, rfl⟩ := hand
        rw [List.length_eq_zero_iff.mp (Nat.le_zero.mp (Nat.le_of_succ_le_succ hone))]
      · rw [if_neg hand] at hover
        cases hover
  · intro hzs
    have hnone (x : N) (hx : x ∈ xs) : st'.overloaded x = none := by
      by_cases hxz : x ∈ remaining m a n xs
      · rw [h.overloaded x hxz]
        rcases hzs with hzs | hzs <;> rw [hzs] at hxz
        · cases hxz
        · rw [hzs, if_pos ⟨by simp, List.mem_singleton.mp hxz⟩]
      · exact (h.removed x hx hxz).2.2
    refine ⟨?_, hnone⟩
    rcases hys : sound m a xs with _ | ⟨y, _ | ⟨y', ys⟩⟩
    · exact chain_nil
    · have hy : y ∈ xs := List.mem_of_mem_filter (show y ∈ sound m a xs by simp [hys])
      have hpointers : st'.nextSibling y = none ∧ st'.previousSibling y = none := by
        by_cases hyz : y ∈ remaining m a n xs
        · have hlist := h.list
          rcases hzs with hzs | hzs <;> rw [hzs] at hyz hlist
          · cases hyz
          · obtain rfl := List.mem_singleton.mp hyz
            obtain ⟨hprev, hnext⟩ := @IsList.mid _ _ _ _ [] [] _ hlist
            exact ⟨hnext, hprev⟩
        · obtain ⟨h₁, h₂, -⟩ := h.removed y hy hyz
          exact ⟨h₁, h₂⟩
      exact chain_singleton hpointers.1 hpointers.2 (hnone y hy)
    · rw [hys] at hlen
      simp at hlen

theorem cleanChain_iff (hchain : Chain R st xs) (hn : n ∈ xs) (hremoves : ∀ x ∈ xs, removes m a n x ≠ none) :
    ∃ st', Returns (fun fuel => clean_overloaded m a fuel st n) st' ∧
      (CleanChain R m a st' xs ↔ CleansWell m a n xs) := by
  rcases hchain.overloaded with hshared | ⟨hlen, halone⟩
  · obtain ⟨st', hrun, h, hover⟩ := clean_overloaded_spec hchain.list hshared hn hremoves
    refine ⟨st', hrun, ?_⟩
    rw [CleanChain, CleansWell]
    by_cases hlen : 2 ≤ (sound m a xs).length
    · have hpair : xs.Pairwise (Apart R st') := by
        rw [apart_congr hover]
        exact hchain.overname
      have hname (x : N) (hx : x ∈ xs) : st'.overname x ≠ none := hover ▸ (hshared x hx).2
      rw [h.chain_iff hchain.list.nodup hpair hname hlen]
      simp only [hlen, show ¬(sound m a xs).length ≤ 1 by omega, false_implies, and_true, true_and, false_and, or_false]
    · have hlen : (sound m a xs).length ≤ 1 := by omega
      simp only [hlen, show ¬2 ≤ (sound m a xs).length by omega, forall_true_left, false_and, true_and, false_or]
      exact h.alone_iff hlen
  · -- the only node does not know itself
    obtain rfl : xs = [n] := by
      obtain ⟨x, rfl⟩ := List.length_eq_one_iff.mp (Nat.le_antisymm hlen (List.length_pos_of_mem hn))
      rw [List.mem_singleton.mp hn]
    have hself : remaining m a n [n] = [] ∨ remaining m a n [n] = [n] := by
      rw [remaining, List.filter_singleton]
      cases decide (removes m a n n = some false) <;> simp
    have hsound : sound m a [n] = remaining m a n [n] := rfl
    obtain ⟨hprev, hnext⟩ := @IsList.mid _ _ _ _ [] [] _ hchain.list
    have hnone : (st.setOverloaded n none).overloaded n = none := Function.update_self ..
    refine ⟨st.setOverloaded n none, ⟨0, fun fuel _ => clean_overloaded_alone (halone n hn) fuel⟩, ?_⟩
    rw [CleanChain, CleansWell, hsound]
    refine iff_of_true ⟨?_, fun _ x hx => List.mem_singleton.mp hx ▸ hnone⟩ (.inr ⟨?_, hself⟩)
    · rcases hself with hself | hself <;> rw [hself]
      · exact chain_nil
      · exact chain_singleton hnext hprev hnone
    · rcases hself with hself | hself <;> simp [hself]

end Swig.TypePass
