import Swig.Symbol.SymbolTable
import Swig.Lib.DoublyLinked
import Swig.Lib.Fuel
import Mathlib.Data.List.Induction

/-!
Chains of overloaded functions, and what an addition makes of them.
-/

namespace Swig.SymbolTable

open DoublyLinked Fuel

variable {N : Type} [DecidableEq N] {at_ : N → Decl} {st : SymbolTable N} {f : SymName → List N}

/-- The declaration of a function, a template of one included. -/
structure IsFunction (d : Decl) : Prop where
  isfunction : d.isfunction = true
  allows_typedef : d.allows_typedef = false
  weak : d.weak = false
  kind : d.kind ≠ some "using"
  nodeType : d.nodeType ≠ "namespace"

/-- The nodes of every name, in order: a doubly linked list from the entry of the table
on, with numbered overnames, where every node of an overloaded name knows the first. -/
structure Chained (st : SymbolTable N) (f : SymName → List N) : Prop where
  list : ∀ s, IsList st.nextSibling st.previousSibling (st.table s) (f s)
  overname : ∀ s i n, (f s)[i]? = some n → st.overname n = some (overnameOf i)
  overloaded : ∀ s, 2 ≤ (f s).length → ∀ n ∈ f s, st.overloaded n = (f s).head?

/-- Beside the chains: what is set on the nodes in them, and not set on the others. -/
structure Linked (at_ : N → Decl) (st : SymbolTable N) (f : SymName → List N) : Prop extends Chained st f where
  disjoint : ∀ s s' n, n ∈ f s → n ∈ f s' → s = s'
  named : ∀ s, ∀ n ∈ f s, st.symtab n = true ∧ st.name n = some s ∧ IsFunction (at_ n)
  fresh : ∀ n, (∀ s, n ∉ f s) → st.overname n = none ∧ st.nextSibling n = none ∧ st.previousSibling n = none

/-! ### The walks -/

omit [DecidableEq N] in
theorem walkSiblings_eq {n x l : N} {p q : Option N} {xs : List N} {fuel pn : ℕ}
    (h : Seg st.nextSibling st.previousSibling p (some x) (x :: xs) q none) (hl : (x :: xs).getLast? = some l)
    (hfuel : xs.length < fuel) :
    walkSiblings at_ st false n fuel x pn = some
      (match (x :: xs).find? (conflicts at_ n) with
        | some cn => .inl cn
        | none => .inr (l, pn + (xs.length + 1))) := by
  induction xs generalizing x p fuel pn with
  | nil =>
      obtain ⟨fuel, rfl⟩ := Nat.exists_eq_add_of_le' (Nat.one_le_of_lt hfuel)
      obtain rfl : x = l := by simpa using hl
      rw [walkSiblings, Bool.not_false, Bool.true_and, List.find?_cons]
      cases conflicts at_ n x with
      | true => rfl
      | false => rw [if_neg Bool.false_ne_true, show st.nextSibling x = none from h.2.2.2]; rfl
  | cons y ys ih =>
      obtain ⟨fuel, rfl⟩ := Nat.exists_eq_add_of_le' (Nat.one_le_of_lt hfuel)
      obtain ⟨-, -, hy⟩ := h
      have hnext : st.nextSibling x = some y := hy.1
      rw [hnext] at hy
      rw [walkSiblings, Bool.not_false, Bool.true_and, List.find?_cons]
      cases conflicts at_ n x with
      | true => rfl
      | false =>
          rw [if_neg Bool.false_ne_true, hnext]
          dsimp only
          rw [ih hy (by rwa [List.getLast?_cons_cons] at hl) (by simpa using hfuel), List.length_cons,
            show pn + 1 + (ys.length + 1) = pn + (ys.length + 1 + 1) by omega]

omit [DecidableEq N] in
theorem findHead_eq {h q e : Option N} {x : N} {as : List N} {fuel : ℕ}
    (hs : Seg st.nextSibling st.previousSibling none h (as ++ [x]) q e) (hfuel : as.length < fuel) :
    st.findHead fuel x = (as ++ [x]).head? := by
  induction as using List.reverseRecOn generalizing x q e fuel with
  | nil =>
      obtain ⟨fuel, rfl⟩ := Nat.exists_eq_add_of_le' (Nat.one_le_of_lt hfuel)
      rw [findHead, show st.previousSibling x = none from hs.2.1]
      rfl
  | append_singleton as y ih =>
      obtain ⟨fuel, rfl⟩ := Nat.exists_eq_add_of_le' (Nat.one_le_of_lt hfuel)
      obtain ⟨q', e', hy, -, hprev, -⟩ := hs.of_append
      have hlast : st.previousSibling x = some y := by
        rw [hprev, hy.last_eq, List.getLast?_concat]
        rfl
      rw [findHead, hlast]
      dsimp only
      rw [ih hy (by simp only [List.length_append, List.length_singleton] at hfuel; omega)]
      cases as <;> rfl

/-- The nodes numbered from `pn` on. -/
def numbered (st : SymbolTable N) (xs : List N) (pn : ℕ) : SymbolTable N :=
  { st with overname := fun y => if y ∈ xs then some (overnameOf (pn + xs.idxOf y)) else st.overname y }

theorem numbered_cons (st : SymbolTable N) {x : N} {xs : List N} (pn : ℕ) (hx : x ∉ xs) :
    (st.setOvername x (some (overnameOf pn))).numbered xs (pn + 1) = st.numbered (x :: xs) pn := by
  rw [numbered, numbered]
  congr 1
  funext y
  by_cases hy : y = x
  · subst hy
    rw [if_neg hx, if_pos List.mem_cons_self, List.idxOf_cons_self]
    exact Function.update_self ..
  · have hold : (st.setOvername x (some (overnameOf pn))).overname y = st.overname y := Function.update_of_ne hy ..
    rw [hold, List.idxOf_cons_ne _ (Ne.symm hy)]
    simp only [List.mem_cons, hy, false_or]
    rw [show pn + (xs.idxOf y).succ = pn + 1 + xs.idxOf y by omega]

theorem fixOvernames_eq {st : SymbolTable N} {x : N} {p q : Option N} {xs : List N} {fuel pn : ℕ}
    (h : Seg st.nextSibling st.previousSibling p (some x) (x :: xs) q none) (hnodup : (x :: xs).Nodup)
    (hset : ∀ y ∈ x :: xs, st.overname y ≠ none) (hfuel : xs.length < fuel) :
    fixOvernames fuel st x pn = some (st.numbered (x :: xs) pn) := by
  induction xs generalizing st x p fuel pn with
  | nil =>
      obtain ⟨fuel, rfl⟩ := Nat.exists_eq_add_of_le' (Nat.one_le_of_lt hfuel)
      obtain ⟨v, hv⟩ := Option.ne_none_iff_exists'.mp (hset x List.mem_cons_self)
      have hnext : (st.setOvername x (some (overnameOf pn))).nextSibling x = none := h.2.2.2
      rw [fixOvernames, hv]
      dsimp only
      rw [hnext, ← numbered_cons st pn List.not_mem_nil]
      dsimp only
      rw [numbered]
      simp
  | cons y ys ih =>
      obtain ⟨fuel, rfl⟩ := Nat.exists_eq_add_of_le' (Nat.one_le_of_lt hfuel)
      obtain ⟨v, hv⟩ := Option.ne_none_iff_exists'.mp (hset x List.mem_cons_self)
      obtain ⟨hx, hnodup⟩ := List.nodup_cons.mp hnodup
      obtain ⟨-, -, hy⟩ := h
      have hnext : (st.setOvername x (some (overnameOf pn))).nextSibling x = some y := hy.1
      have hsety (z : N) (hz : z ∈ y :: ys) : (st.setOvername x (some (overnameOf pn))).overname z ≠ none := by
        show Function.update st.overname x _ z ≠ none
        rw [Function.update_of_ne (ne_of_mem_of_not_mem hz hx)]
        exact hset z (List.mem_cons_of_mem x hz)
      rw [fixOvernames, hv]
      dsimp only
      rw [hnext]
      dsimp only
      rw [← numbered_cons st pn hx]
      refine ih (p := some x) ?_ hnodup hsety (by simpa using hfuel)
      rw [hy.1] at hy
      exact hy

/-! ### Adding -/

/-- The first node of a name. -/
def addFirst (st : SymbolTable N) (symname : SymName) (n : N) : SymbolTable N :=
  ((st.setName n symname).setOvername n (some (overnameOf 0))).setTable symname (some n)

/-- A node behind the node `cl`, the last of `pn` nodes from `c` on. -/
def addBehind (st : SymbolTable N) (symname : SymName) (n c cl : N) (pn : ℕ) : SymbolTable N :=
  let st := (st.setName n symname).setOvername n (some (overnameOf pn))
  let st := (st.setNextSibling cl (some n)).setPreviousSibling n (some cl)
  (st.setOverloaded cl (some c)).setOverloaded n (some c)

/-- What an addition can do: nothing, or the node is the first of its name or the last. -/
theorem symbolAdd_cases (h : Linked at_ st f) {s : SymName} {n : N} (hn : IsFunction (at_ n)) (hnew : ∀ s, n ∉ f s)
    {fuel : ℕ} (hfuel : (f s).length < fuel) :
    ∃ st' r, symbolAdd at_ st fuel s n = some (st', r) ∧
      ((r ≠ n ∨ (at_ n).ignore = true) ∧ st' = st ∨
        r = n ∧ (at_ n).ignore = false ∧
          (f s = [] ∧ st' = st.addFirst s n ∨
            ∃ c cl, (f s).head? = some c ∧ (f s).getLast? = some cl ∧ st' = st.addBehind s n c cl (f s).length)) := by
  cases hignore : (at_ n).ignore with
  | true =>
      refine ⟨st, n, ?_, .inl ⟨.inr rfl, rfl⟩⟩
      rw [symbolAdd, if_pos hignore]
  | false =>
      rw [symbolAdd, if_neg (by simp [hignore]), (h.list s).head_eq]
      cases hchain : f s with
      | nil => exact ⟨_, n, rfl, .inr ⟨rfl, rfl, .inl ⟨rfl, rfl⟩⟩⟩
      | cons c cs =>
          have hmem : c ∈ f s := hchain ▸ List.mem_cons_self
          have hc := (h.named s c hmem).2.2
          have hcn : c ≠ n := fun heq => hnew s (heq ▸ hmem)
          have hweak : ((c :: cs).head?).filter (fun c => !(at_ c).weak) = some c := by simp [hc.weak]
          have husing : (decide ((at_ n).kind = some "using") || decide ((at_ c).kind = some "using")) = false := by
            simp [hn.kind, hc.kind]
          rw [hweak]
          dsimp only
          rw [if_neg fun hns => hn.nodeType hns.2, if_neg (by simp [hn.allows_typedef, hc.allows_typedef]), husing]
          -- the node `c` is returned when the first nodes do not go together
          have hconflict : ∃ st' r, some (st, c) = some (st', r) ∧
              ((r ≠ n ∨ false = true) ∧ st' = st ∨ r = n ∧ false = false ∧
                (c :: cs = [] ∧ st' = st.addFirst s n ∨ ∃ c' cl, (c :: cs).head? = some c' ∧
                  (c :: cs).getLast? = some cl ∧ st' = st.addBehind s n c' cl (c :: cs).length)) :=
            ⟨st, c, rfl, .inl ⟨.inl hcn, rfl⟩⟩
          split
          · exact hconflict
          split
          · exact hconflict
          split
          · exact hconflict
          split
          · exact hconflict
          obtain ⟨q, hseg⟩ := (h.list s).seg
          rw [hchain] at hseg hfuel
          have hhead : st.table s = some c := hseg.1
          rw [hhead] at hseg
          obtain ⟨l, hl⟩ : ∃ l, (c :: cs).getLast? = some l := ⟨_, List.getLast?_eq_some_getLast (List.cons_ne_nil c cs)⟩
          rw [walkSiblings_eq hseg hl (by simp only [List.length_cons] at hfuel; omega), Option.bind_eq_bind, Option.bind_some]
          cases hfind : (c :: cs).find? (conflicts at_ n) with
          | some cn =>
              have hcn' : cn ∈ f s := hchain ▸ List.mem_of_find?_eq_some hfind
              exact ⟨st, cn, rfl, .inl ⟨.inl fun heq => hnew s (heq ▸ hcn'), rfl⟩⟩
          | none =>
              have hover : (st.setName n s).overname n = none := (h.fresh n hnew).1
              dsimp only
              rw [dropInPlace, hover, Nat.zero_add]
              exact ⟨_, n, rfl, .inr ⟨rfl, rfl, .inr ⟨c, l, rfl, hl, rfl⟩⟩⟩

/-- A node added to the chain of a name: what has to hold of that chain, when nothing
changes on the nodes of the other chains. -/
theorem Linked.add (h : Linked at_ st f) {s : SymName} {n : N} (hn : IsFunction (at_ n)) (hnew : ∀ s, n ∉ f s)
    {st' : SymbolTable N} (hlist : IsList st'.nextSibling st'.previousSibling (st'.table s) (f s ++ [n]))
    (hoverloaded : 2 ≤ (f s ++ [n]).length → ∀ x ∈ f s ++ [n], st'.overloaded x = (f s ++ [n]).head?)
    (htable : ∀ s', s' ≠ s → st'.table s' = st.table s')
    (hname : st'.symtab = Function.update st.symtab n true ∧ st'.name = Function.update st.name n (some s) ∧
      st'.overname = Function.update st.overname n (some (overnameOf (f s).length)))
    (hframe : ∀ x, x ∉ f s → x ≠ n → st'.nextSibling x = st.nextSibling x ∧
      st'.previousSibling x = st.previousSibling x ∧ st'.overloaded x = st.overloaded x) :
    Linked at_ st' (Function.update f s (f s ++ [n])) := by
  obtain ⟨hsymtab, hsymname, hover⟩ := hname
  have hother {s' : SymName} (hs' : s' ≠ s) {x : N} (hx : x ∈ f s') : x ∉ f s ∧ x ≠ n :=
    ⟨fun hmem => hs' (h.disjoint s' s x hx hmem), fun heq => hnew s' (heq ▸ hx)⟩
  have hmem (s' : SymName) (x : N) (hx : x ∈ Function.update f s (f s ++ [n]) s') : x ∈ f s' ∨ s' = s ∧ x = n := by
    by_cases hs' : s' = s
    · subst hs'
      rw [Function.update_self, List.mem_append, List.mem_singleton] at hx
      exact hx.imp_right fun hx => ⟨rfl, hx⟩
    · rw [Function.update_of_ne hs'] at hx
      exact .inl hx
  refine ⟨⟨fun s' => ?_, fun s' i x hx => ?_, fun s' hlen x hx => ?_⟩, fun s₁ s₂ x h₁ h₂ => ?_, fun s' x hx => ?_,
    fun x hx => ?_⟩
  · by_cases hs' : s' = s
    · subst hs'
      rwa [Function.update_self]
    · rw [Function.update_of_ne hs', htable s' hs']
      exact (h.list s').congr (fun x hx => (hframe x (hother hs' hx).1 (hother hs' hx).2).1)
        fun x hx => (hframe x (hother hs' hx).1 (hother hs' hx).2).2.1
  · rw [hover]
    by_cases hs' : s' = s
    · subst hs'
      rw [Function.update_self] at hx
      rcases Nat.lt_or_ge i (f s').length with hi | hi
      · rw [List.getElem?_append_left hi] at hx
        rw [Function.update_of_ne (ne_of_mem_of_not_mem (List.mem_of_getElem? hx) (hnew s'))]
        exact h.overname s' i x hx
      · rw [List.getElem?_append_right hi, List.getElem?_singleton] at hx
        split at hx
        · obtain rfl := Option.some.inj hx
          rw [Function.update_self, show i = (f s').length by omega]
        · cases hx
    · rw [Function.update_of_ne hs'] at hx
      rw [Function.update_of_ne (hother hs' (List.mem_of_getElem? hx)).2]
      exact h.overname s' i x hx
  · by_cases hs' : s' = s
    · subst hs'
      rw [Function.update_self] at hlen hx ⊢
      exact hoverloaded hlen x hx
    · rw [Function.update_of_ne hs'] at hlen hx ⊢
      rw [(hframe x (hother hs' hx).1 (hother hs' hx).2).2.2]
      exact h.overloaded s' hlen x hx
  · rcases hmem s₁ x h₁ with hx₁ | ⟨hs₁, hx₁⟩ <;> rcases hmem s₂ x h₂ with hx₂ | ⟨hs₂, hx₂⟩
    · exact h.disjoint s₁ s₂ x hx₁ hx₂
    · exact absurd (hx₂ ▸ hx₁) (hnew s₁)
    · exact absurd (hx₁ ▸ hx₂) (hnew s₂)
    · exact hs₁.trans hs₂.symm
  · rw [hsymtab, hsymname]
    rcases hmem s' x hx with hx | ⟨rfl, rfl⟩
    · have hne : x ≠ n := fun heq => hnew s' (heq ▸ hx)
      rw [Function.update_of_ne hne, Function.update_of_ne hne]
      exact h.named s' x hx
    · rw [Function.update_self, Function.update_self]
      exact ⟨rfl, rfl, hn⟩
  · have hxs : x ∉ f s ++ [n] := by
      have := hx s
      rwa [Function.update_self] at this
    rw [List.mem_append, List.mem_singleton, not_or] at hxs
    have hold (s' : SymName) : x ∉ f s' := by
      by_cases hs' : s' = s
      · exact hs' ▸ hxs.1
      · have := hx s'
        rwa [Function.update_of_ne hs'] at this
    rw [hover, Function.update_of_ne hxs.2, (hframe x hxs.1 hxs.2).1, (hframe x hxs.1 hxs.2).2.1]
    exact h.fresh x hold

theorem Linked.addFirst (h : Linked at_ st f) {s : SymName} {n : N} (hn : IsFunction (at_ n)) (hnew : ∀ s, n ∉ f s)
    (hempty : f s = []) : Linked at_ (st.addFirst s n) (Function.update f s (f s ++ [n])) := by
  obtain ⟨-, hnext, hprev⟩ := h.fresh n hnew
  apply h.add hn hnew
  · rw [hempty, List.nil_append]
    have htable : (st.addFirst s n).table s = some n := Function.update_self ..
    rw [htable]
    exact ⟨⟨some n, rfl, hprev, rfl, hnext⟩, by simp⟩
  · rw [hempty]
    exact fun hlen => absurd hlen (by simp)
  · exact fun s' hs' => Function.update_of_ne hs' ..
  · rw [hempty]
    exact ⟨rfl, rfl, rfl⟩
  · exact fun x _ _ => ⟨rfl, rfl, rfl⟩

theorem Linked.addBehind (h : Linked at_ st f) {s : SymName} {n c cl : N} (hn : IsFunction (at_ n))
    (hnew : ∀ s, n ∉ f s) (hc : (f s).head? = some c) (hcl : (f s).getLast? = some cl) :
    Linked at_ (st.addBehind s n c cl (f s).length) (Function.update f s (f s ++ [n])) := by
  obtain ⟨-, hnext, hprev⟩ := h.fresh n hnew
  obtain ⟨as, has⟩ : ∃ as, f s = as ++ [cl] := List.getLast?_eq_some_iff.mp hcl
  have hclmem : cl ∈ f s := List.mem_of_getLast? hcl
  have hcln : n ≠ cl := fun heq => hnew s (heq ▸ hclmem)
  have hnodup : (f s ++ [n]).Nodup := List.nodup_append.mpr ⟨(h.list s).nodup, by simp, by
    rintro a ha b hb rfl
    exact hnew s (List.mem_singleton.mp hb ▸ ha)⟩
  have hhead : (f s ++ [n]).head? = some c := by
    rw [List.head?_append, hc]
    rfl
  apply h.add hn hnew
  · obtain ⟨q, hseg⟩ := (h.list s).seg
    rw [has] at hseg hnodup ⊢
    rw [List.append_assoc] at hnodup ⊢
    have hjoin : Seg (Function.update st.nextSibling cl (some n)) (Function.update st.previousSibling n (some cl)) none
        (st.table s) (as ++ cl :: [n]) (some n) none :=
      hseg.join ⟨rfl, hprev, rfl, hnext⟩ hnodup (Function.update_self ..) (Function.update_self ..)
        (fun x hx => Function.update_of_ne hx ..) fun x hx => Function.update_of_ne hx ..
    exact ⟨⟨some n, hjoin⟩, hnodup⟩
  · intro _ x hx
    rw [hhead]
    show Function.update (Function.update st.overloaded cl (some c)) n (some c) x = some c
    by_cases hxn : x = n
    · rw [hxn, Function.update_self]
    · rw [Function.update_of_ne hxn]
      by_cases hxcl : x = cl
      · rw [hxcl, Function.update_self]
      · rw [Function.update_of_ne hxcl, ← hc]
        have hx : x ∈ f s := (List.mem_append.mp hx).resolve_right fun hmem => hxn (List.mem_singleton.mp hmem)
        refine h.overloaded s ?_ x hx
        by_contra hlen
        have hsingle : as = [] := by
          rw [has, List.length_append, List.length_singleton] at hlen
          exact List.length_eq_zero_iff.mp (by omega)
        rw [has, hsingle] at hx
        exact hxcl (List.mem_singleton.mp hx)
  · exact fun s' _ => rfl
  · exact ⟨rfl, rfl, rfl⟩
  · intro x hx hxn
    have hxcl : x ≠ cl := fun heq => hx (heq ▸ hclmem)
    refine ⟨Function.update_of_ne hxcl .., Function.update_of_ne hxn .., ?_⟩
    show Function.update (Function.update st.overloaded cl (some c)) n (some c) x = _
    rw [Function.update_of_ne hxn, Function.update_of_ne hxcl]

omit [DecidableEq N] in
theorem mono_walkSiblings (st : SymbolTable N) (usng : Bool) (n cn : N) (pn : ℕ) :
    Mono fun k => walkSiblings at_ st usng n k cn pn := by
  intro k
  induction k generalizing cn pn with
  | zero => nofun
  | succ k ih =>
      intro m a hkm h
      obtain ⟨m, rfl⟩ := Nat.exists_eq_add_of_le' (Nat.one_le_of_lt (Nat.lt_of_succ_le hkm))
      simp only [walkSiblings] at h ⊢
      by_cases hc : (!usng && conflicts at_ n cn) = true
      · rwa [if_pos hc] at h ⊢
      · rw [if_neg hc] at h ⊢
        cases hnext : st.nextSibling cn with
        | none => rwa [hnext] at h
        | some next =>
            rw [hnext] at h
            exact ih _ _ m a (by omega) h

omit [DecidableEq N] in
theorem mono_lastSibling (st : SymbolTable N) (cl : N) : Mono fun k => st.lastSibling k cl := by
  intro k
  induction k generalizing cl with
  | zero => nofun
  | succ k ih =>
      intro m a hkm h
      obtain ⟨m, rfl⟩ := Nat.exists_eq_add_of_le' (Nat.one_le_of_lt (Nat.lt_of_succ_le hkm))
      simp only [lastSibling] at h ⊢
      split at h
      · exact h
      · exact ih _ m a (by omega) h

theorem mono_symbolAdd (st : SymbolTable N) (s : SymName) (n : N) : Mono fun k => symbolAdd at_ st k s n := by
  unfold symbolAdd
  refine .ite (.const _) ?_
  cases (st.table s).filter fun c => !(at_ c).weak with
  | none => exact .const _
  | some c =>
      refine .ite ((mono_lastSibling st c).map _) (.ite (.ite (.const _) ?_) ?_)
      · exact .const _
      · refine .ite (.const _) (.ite (.const _) (.ite (.const _) (.ite (.const _) ?_)))
        refine (mono_walkSiblings st _ n c 0).bind fun found => ?_
        cases found <;> exact .const _

end Swig.SymbolTable
