import Swig.Tree.ParseTree

/-!
Calls keep the tree well linked as long as they are safe, and an unsafe call
does not.
-/

namespace Swig.ParseTree

open DoublyLinked Fuel

variable {N : Type} [DecidableEq N] {t t' : ParseTree N} {f f' : Forest N}

/-! ### Setting the parents -/

/-- All nodes of `xs` are children of `node`. -/
def adopt (t : ParseTree N) (node : N) (xs : List N) : ParseTree N :=
  { t with parentNode := fun x => if x ∈ xs then some node else t.parentNode x }

theorem adopt_cons (t : ParseTree N) (node c : N) (cs : List N) :
    (t.setParentNode c (some node)).adopt node cs = t.adopt node (c :: cs) := by
  unfold adopt setParentNode
  congr 1
  ext x : 1
  by_cases hx : x = c
  · simp [hx]
  · simp [hx]

theorem adopt_nil (t : ParseTree N) (node : N) : t.adopt node [] = t := by
  simp [adopt]

/-- The parents of a chain of siblings are set, and its last node is found. -/
theorem setParents_returns (node : N) {t : ParseTree N} {p : Option N} {c last : N} {cs : List N}
    (hs : Seg t.nextSibling t.previousSibling p (some c) (c :: cs) (some last) none) :
    Returns (fun n => setParents node n t c) (t.adopt node (c :: cs), last) := by
  induction cs generalizing t p c with
  | nil =>
      obtain ⟨-, -, hlast, hnone⟩ := hs
      obtain rfl : c = last := Option.some.inj hlast
      refine Returns.of_succ ((Returns.const _).congr fun n => ?_)
      rw [← adopt_cons, adopt_nil, setParents]
      simp only [setParentNode, hnone]
  | cons d cs ih =>
      obtain ⟨-, -, hd, hseg⟩ := hs
      have hrest : Seg (t.setParentNode c (some node)).nextSibling
          (t.setParentNode c (some node)).previousSibling (some c) (some d) (d :: cs) (some last) none :=
        ⟨rfl, hseg⟩
      rw [← adopt_cons]
      refine Returns.of_succ ((ih hrest).congr fun n => ?_)
      rw [setParents]
      simp only [setParentNode, hd]

/-! ### One step -/

omit [DecidableEq N] in
theorem Linked.firstChild_eq (h : Linked t f) (n : N) : t.firstChild n = (f.kids n).head? := by
  have hs := h.children n
  cases hxs : f.kids n with
  | nil =>
      rw [hxs] at hs
      exact hs.2
  | cons x xs =>
      rw [hxs] at hs
      exact hs.1

omit [DecidableEq N] in
theorem Linked.lastChild_eq (h : Linked t f) (n : N) : t.lastChild n = (f.kids n).getLast? := by
  rw [(h.children n).last_eq, Option.or_none]

omit [DecidableEq N] in
theorem WellLinked.disjoint {kids : N → List N} (h : WellLinked t kids) {n m x : N} (hn : x ∈ kids n)
    (hm : x ∈ kids m) : n = m := Option.some.inj ((h.parent n x hn).symm.trans (h.parent m x hm))

omit [DecidableEq N] in
theorem Linked.nodup_append (h : Linked t f) (n x : N) : (f.kids n ++ f.chain x).Nodup := by
  refine List.nodup_append.mpr ⟨h.nodup n, h.nodupChain x, fun a ha b hb => ?_⟩
  rintro rfl
  exact h.detached n x a ha hb

/-- The children of `node` and the chain `h₀` exchange cells: all other lists keep theirs. -/
theorem Linked.exchange (h : Linked t f) {node h₀ : N} {xs ys : List N}
    (hperm : (xs ++ ys).Perm (f.kids node ++ f.chain h₀))
    (hchildren : Seg t'.nextSibling t'.previousSibling none (t'.firstChild node) xs (t'.lastChild node) none)
    (hchain : ys ≠ [] → ∃ zs p q, ys = h₀ :: zs ∧
      Seg t'.nextSibling t'.previousSibling p (some h₀) (h₀ :: zs) q none)
    (hparent : ∀ x ∈ xs, t'.parentNode x = some node)
    (hcells : ∀ x, x ∉ f.kids node → x ∉ f.chain h₀ → t'.nextSibling x = t.nextSibling x ∧
      t'.previousSibling x = t.previousSibling x ∧ t'.parentNode x = t.parentNode x)
    (hends : ∀ n, n ≠ node → t'.firstChild n = t.firstChild n ∧ t'.lastChild n = t.lastChild n) :
    Linked t' { kids := Function.update f.kids node xs, chain := Function.update f.chain h₀ ys } := by
  have hnodup := hperm.nodup_iff.mpr (h.nodup_append node h₀)
  obtain ⟨hxs, hys, hdisj⟩ := List.nodup_append.mp hnodup
  have hold {x : N} (hx : x ∈ xs ∨ x ∈ ys) : x ∈ f.kids node ∨ x ∈ f.chain h₀ :=
    List.mem_append.mp (hperm.mem_iff.mp (List.mem_append.mpr hx))
  have hkids {n x : N} (hn : n ≠ node) (hx : x ∈ f.kids n) : x ∉ f.kids node ∧ x ∉ f.chain h₀ :=
    ⟨fun hx' => hn (h.toWellLinked.disjoint hx hx'), h.detached n h₀ x hx⟩
  have hchains {m x : N} (hm : m ≠ h₀) (hx : x ∈ f.chain m) : x ∉ f.kids node ∧ x ∉ f.chain h₀ :=
    ⟨fun hx' => h.detached node m x hx' hx, fun hx' => hm (h.disjoint m h₀ x hx hx')⟩
  have hcongr {p q o : Option N} {zs : List N} (hs : Seg t.nextSibling t.previousSibling p o zs q none)
      (hzs : ∀ x ∈ zs, x ∉ f.kids node ∧ x ∉ f.chain h₀) :
      Seg t'.nextSibling t'.previousSibling p o zs q none :=
    hs.congr (fun x hx => (hcells x (hzs x hx).1 (hzs x hx).2).1)
      fun x hx => (hcells x (hzs x hx).1 (hzs x hx).2).2.1
  have hchainnew {m x : N} (hx : x ∈ Function.update f.chain h₀ ys m) : (m = h₀ ∧ x ∈ ys) ∨ (m ≠ h₀ ∧ x ∈ f.chain m) := by
    rcases eq_or_ne m h₀ with rfl | hm
    · exact .inl ⟨rfl, by rwa [Function.update_self] at hx⟩
    · exact .inr ⟨hm, by rwa [Function.update_of_ne hm] at hx⟩
  have hkidsnew {n x : N} (hx : x ∈ Function.update f.kids node xs n) : (n = node ∧ x ∈ xs) ∨ (n ≠ node ∧ x ∈ f.kids n) := by
    rcases eq_or_ne n node with rfl | hn
    · exact .inl ⟨rfl, by rwa [Function.update_self] at hx⟩
    · exact .inr ⟨hn, by rwa [Function.update_of_ne hn] at hx⟩
  refine ⟨⟨fun n => ?_, fun n => ?_, fun n x hx => ?_⟩, fun m hm => ?_, fun m => ?_, fun n m x hx hx' => ?_,
    fun m m' x hx hx' => ?_⟩
  · show Seg _ _ _ _ (Function.update f.kids node xs n) _ _
    rcases eq_or_ne n node with rfl | hn
    · rwa [Function.update_self]
    · rw [Function.update_of_ne hn, (hends n hn).1, (hends n hn).2]
      exact hcongr (h.children n) fun x hx => hkids hn hx
  · show (Function.update f.kids node xs n).Nodup
    rcases eq_or_ne n node with rfl | hn
    · rwa [Function.update_self]
    · rw [Function.update_of_ne hn]
      exact h.nodup n
  · rcases hkidsnew hx with ⟨rfl, hin⟩ | ⟨hn, hin⟩
    · exact hparent x hin
    · rw [(hcells x (hkids hn hin).1 (hkids hn hin).2).2.2]
      exact h.parent n x hin
  · show ∃ zs p q, Function.update f.chain h₀ ys m = m :: zs ∧ _
    have hm : Function.update f.chain h₀ ys m ≠ [] := hm
    rcases eq_or_ne m h₀ with rfl | hne
    · rw [Function.update_self] at hm ⊢
      exact hchain hm
    · rw [Function.update_of_ne hne] at hm ⊢
      obtain ⟨zs, p, q, hzs, hs⟩ := h.chain m hm
      exact ⟨zs, p, q, hzs, hcongr hs fun x hx => hchains hne (hzs ▸ hx)⟩
  · show (Function.update f.chain h₀ ys m).Nodup
    rcases eq_or_ne m h₀ with rfl | hne
    · rwa [Function.update_self]
    · rw [Function.update_of_ne hne]
      exact h.nodupChain m
  · rcases hkidsnew hx with ⟨rfl, hin⟩ | ⟨hn, hin⟩ <;> rcases hchainnew hx' with ⟨rfl, hin'⟩ | ⟨hm, hin'⟩
    · exact hdisj x hin x hin' rfl
    · rcases hold (.inl hin) with hmem | hmem
      · exact h.detached _ m x hmem hin'
      · exact hm (h.disjoint m _ x hin' hmem)
    · rcases hold (.inr hin') with hmem | hmem
      · exact hn (h.toWellLinked.disjoint hin hmem)
      · exact h.detached n _ x hin hmem
    · exact h.detached n m x hin hin'
  · rcases hchainnew hx with ⟨rfl, hin⟩ | ⟨hm, hin⟩ <;> rcases hchainnew hx' with ⟨rfl, hin'⟩ | ⟨hm', hin'⟩
    · rfl
    · rcases hold (.inr hin) with hmem | hmem
      · exact absurd hin' (h.detached _ m' x hmem)
      · exact absurd (h.disjoint m' _ x hin' hmem) hm'
    · rcases hold (.inr hin') with hmem | hmem
      · exact absurd hin (h.detached _ m x hmem)
      · exact absurd (h.disjoint m _ x hin hmem) hm
    · exact h.disjoint m m' x hin hin'

/-! ### One call -/

omit [DecidableEq N] in
/-- A detached chain from its head to its last node. -/
theorem Linked.exists_last (h : Linked t f) {chd : N} (hchain : f.chain chd ≠ []) :
    ∃ cs last, f.chain chd = chd :: cs ∧
      Seg t.nextSibling t.previousSibling (t.previousSibling chd) (some chd) (chd :: cs) (some last) none := by
  obtain ⟨cs, p, q, hcs, hs⟩ := h.chain chd hchain
  obtain rfl : t.previousSibling chd = p := hs.2.1
  have hq : q = some ((chd :: cs).getLast (List.cons_ne_nil chd cs)) := by
    rw [hs.last_eq, List.getLast?_eq_some_getLast (List.cons_ne_nil chd cs), Option.some_or]
  exact ⟨cs, _, hcs, hq ▸ hs⟩

/-- The chain of `chd` becomes the end of the children of `node`: `t₁` is the tree
when the loop over the parents begins. -/
theorem append_of_seg (h : Linked t f) {node chd : N} {cs : List N} (hcs : f.chain chd = chd :: cs)
    (t₁ : ParseTree N) (last : N) (hstep : ∀ n, t.appendChild n node (some chd) =
      (setParents node n t₁ chd).map fun (t, lc) => t.setLastChild node (some lc))
    (hs : Seg t₁.nextSibling t₁.previousSibling none (t₁.firstChild node) (f.kids node ++ chd :: cs)
      (some last) none)
    (hparent : t₁.parentNode = t.parentNode)
    (hcells : ∀ x, x ∉ f.kids node → x ∉ f.chain chd → t₁.nextSibling x = t.nextSibling x ∧
      t₁.previousSibling x = t.previousSibling x)
    (hends : ∀ n, n ≠ node → t₁.firstChild n = t.firstChild n ∧ t₁.lastChild n = t.lastChild n) :
    ∃ t', Returns (fun n => t.appendChild n node (some chd)) t' ∧
      Linked t' { kids := Function.update f.kids node (f.kids node ++ f.chain chd)
                  chain := Function.update f.chain chd [] } := by
  obtain ⟨q, e, -, hlist⟩ := hs.of_append
  obtain rfl := hlist.1
  refine ⟨_, ((setParents_returns node hlist).map _).congr hstep, ?_⟩
  refine h.exchange (by rw [List.append_nil]) ?_ (fun hne => absurd rfl hne) (fun x hx => ?_)
    (fun x hx hx' => ?_) fun n hn => ?_
  · show Seg _ _ _ _ _ (Function.update t₁.lastChild node (some last) node) _
    rw [Function.update_self, hcs]
    exact hs
  · show (if x ∈ chd :: cs then some node else t₁.parentNode x) = some node
    rw [← hcs, hparent]
    split
    · rfl
    · exact h.parent node x ((List.mem_append.mp hx).resolve_right ‹_›)
  · refine ⟨(hcells x hx hx').1, (hcells x hx hx').2, ?_⟩
    show (if x ∈ chd :: cs then some node else t₁.parentNode x) = t.parentNode x
    rw [← hcs, if_neg hx', hparent]
  · refine ⟨(hends n hn).1, ?_⟩
    show Function.update t₁.lastChild node (some last) n = t.lastChild n
    rw [Function.update_of_ne hn, (hends n hn).2]

theorem append_linked (h : Linked t f) {node chd : N} (hchain : f.chain chd ≠ [])
    (hsafe : t.lastChild node ≠ none ∨ t.previousSibling chd = none) :
    ∃ t', Returns (fun n => t.appendChild n node (some chd)) t' ∧
      Linked t' { kids := Function.update f.kids node (f.kids node ++ f.chain chd)
                  chain := Function.update f.chain chd [] } := by
  obtain ⟨cs, last, hcs, hs⟩ := h.exists_last hchain
  have hlast := h.lastChild_eq node
  rcases List.eq_nil_or_concat' (f.kids node) with hnil | ⟨as, l, has⟩
  · -- the chain becomes the list of children
    rw [hnil, List.getLast?_nil] at hlast
    rw [hsafe.resolve_left (absurd hlast)] at hs
    refine append_of_seg h hcs (t.setFirstChild node (some chd)) last (fun n => ?_) ?_ rfl
      (fun _ _ _ => ⟨rfl, rfl⟩) fun n hn => ⟨Function.update_of_ne hn .., rfl⟩
    · rw [appendChild, hlast]
    · rw [hnil]
      show Seg _ _ _ (Function.update t.firstChild node (some chd) node) _ _ _
      rwa [Function.update_self]
  · -- it is linked to the last child
    rw [has, List.getLast?_concat] at hlast
    have hchd : chd ∈ f.chain chd := hcs ▸ List.mem_cons_self
    have hl : l ∈ f.kids node := has ▸ List.mem_append_right _ (List.mem_singleton_self l)
    have hkids := h.children node
    rw [has] at hkids
    refine append_of_seg h hcs ((t.setNextSibling l (some chd)).setPreviousSibling chd (some l)) last
      (fun n => ?_) ?_ rfl (fun x hx hx' => ⟨?_, ?_⟩) fun n hn => ⟨rfl, rfl⟩
    · rw [appendChild, hlast]
    · have hnodup := h.nodup_append node chd
      rw [has, hcs, List.append_assoc, List.singleton_append] at hnodup
      rw [has, List.append_assoc, List.singleton_append]
      exact hkids.join hs hnodup (Function.update_self ..) (Function.update_self ..)
        (fun x hx => Function.update_of_ne hx ..) fun x hx => Function.update_of_ne hx ..
    · apply Function.update_of_ne
      rintro rfl
      exact hx hl
    · apply Function.update_of_ne
      rintro rfl
      exact hx' hchd

theorem prepend_linked (h : Linked t f) {node chd : N} (hchain : f.chain chd ≠ [])
    (hsafe : t.firstChild node ≠ none ∧ t.nextSibling chd = none ∧ t.previousSibling chd = none) :
    ∃ t', Returns (fun n => t.prependChild n node (some chd)) t' ∧
      Linked t' { kids := Function.update f.kids node (f.chain chd ++ f.kids node)
                  chain := Function.update f.chain chd [] } := by
  obtain ⟨hfirst, hnext, hprev⟩ := hsafe
  obtain ⟨cs, last₀, hcs, hs⟩ := h.exists_last hchain
  -- the chain is a single node
  obtain rfl : cs = [] := by
    cases cs with
    | nil => rfl
    | cons d ds => cases hnext.symm.trans hs.2.2.1
  obtain ⟨fc, xs, hkids⟩ : ∃ fc xs, f.kids node = fc :: xs := by
    apply List.exists_cons_of_ne_nil
    rintro hnil
    rw [h.firstChild_eq, hnil] at hfirst
    exact hfirst rfl
  obtain ⟨last, hlast⟩ : ∃ last, t.lastChild node = some last := by
    rw [h.lastChild_eq, hkids, List.getLast?_eq_some_getLast (List.cons_ne_nil fc xs)]
    exact ⟨_, rfl⟩
  have hfc : t.firstChild node = some fc := by rw [h.firstChild_eq, hkids, List.head?_cons]
  have hnodup := List.perm_append_comm.nodup_iff.mp (h.nodup_append node chd)
  rw [hcs, hkids] at hnodup
  have hchildren := h.children node
  rw [hkids, hfc, hlast] at hchildren
  have hsingle : Seg t.nextSibling t.previousSibling none (some chd) ([] ++ [chd]) (some chd) none :=
    ⟨rfl, hprev, rfl, hnext⟩
  have hjoin : Seg (Function.update t.nextSibling chd (some fc))
      (Function.update t.previousSibling fc (some chd)) none (some chd) (chd :: fc :: xs) (some last) none :=
    hsingle.join hchildren hnodup (Function.update_self ..) (Function.update_self ..)
      (fun x hx => Function.update_of_ne hx ..) fun x hx => Function.update_of_ne hx ..
  have hparents := setParents_returns node
    (t := ((t.setNextSibling chd (some fc)).setPreviousSibling fc (some chd)).setFirstChild node (some chd)) hjoin
  refine ⟨_, (hparents.map Prod.fst).congr fun n => ?_, ?_⟩
  · rw [prependChild, hfc]
  · refine h.exchange (by rw [List.append_nil]; exact List.perm_append_comm) ?_ (fun hne => absurd rfl hne)
      (fun x hx => ?_) (fun x hx hx' => ⟨?_, ?_, ?_⟩) fun n hn => ⟨Function.update_of_ne hn .., rfl⟩
    · show Seg _ _ _ (Function.update t.firstChild node (some chd) node) _ (t.lastChild node) _
      rw [Function.update_self, hcs, hkids, hlast]
      exact hjoin
    · rw [hcs, hkids] at hx
      exact if_pos hx
    · apply Function.update_of_ne
      rintro rfl
      exact hx' (hcs ▸ List.mem_cons_self)
    · apply Function.update_of_ne
      rintro rfl
      exact hx (hkids ▸ List.mem_cons_self)
    · refine if_neg fun hmem => ?_
      rcases List.mem_cons.mp hmem with rfl | hmem
      · exact hx' (hcs ▸ List.mem_cons_self)
      · exact hx (hkids ▸ hmem)

/-- The links after a node with a parent is removed. -/
theorem removeNode_links {n p : N} (hp : t.parentNode n = some p) :
    t.removeNode n =
      { parentNode := fun y => if y = n then none else t.parentNode y
        previousSibling := fun y =>
          if t.nextSibling n = some y then t.previousSibling n else t.previousSibling y
        nextSibling := fun y =>
          if y = n then none else if t.previousSibling n = some y then t.nextSibling n else t.nextSibling y
        firstChild := fun m => if m = p ∧ t.previousSibling n = none then t.nextSibling n else t.firstChild m
        lastChild := fun m => if m = p ∧ t.nextSibling n = none then t.previousSibling n else t.lastChild m } := by
  unfold removeNode
  rw [hp]
  cases hprev : t.previousSibling n <;> cases hnext : t.nextSibling n <;>
    simp [setNextSibling, setPreviousSibling, setParentNode, setFirstChild, setLastChild, funext_iff,
      Function.update_apply, eq_comm]

theorem remove_linked (h : Linked t f) {p n : N} (hn : n ∈ f.kids p) :
    Linked (t.removeNode n) { kids := Function.update f.kids p ((f.kids p).erase n)
                              chain := Function.update f.chain n [n] } := by
  obtain ⟨as, bs, hkids⟩ := List.append_of_mem hn
  have hnodup := h.nodup p
  have hchildren := h.children p
  rw [hkids] at hnodup hchildren
  have hnas : n ∉ as := fun hmem => (List.nodup_append.mp hnodup).2.2 n hmem n List.mem_cons_self rfl
  have herase : (f.kids p).erase n = as ++ bs := by
    rw [hkids, List.erase_append_right _ hnas, List.erase_cons_head]
  have hchain : f.chain n = [] := by
    by_contra hne
    obtain ⟨xs, -, -, hxs, -⟩ := h.chain n hne
    exact h.detached p n n hn (hxs ▸ List.mem_cons_self)
  obtain ⟨hprev, hnext⟩ := IsList.mid ⟨⟨_, hchildren⟩, hnodup⟩
  have hbefore {x : N} (hx : t.previousSibling n = some x) : x ∈ f.kids p ∧ x ≠ n := by
    have hmem := List.mem_of_getLast? (hprev.symm.trans hx)
    refine ⟨hkids ▸ List.mem_append_left _ hmem, ?_⟩
    rintro rfl
    exact hnas hmem
  have hbehind {x : N} (hx : t.nextSibling n = some x) : x ∈ f.kids p := by
    have hmem := List.mem_of_head? (hnext.symm.trans hx)
    exact hkids ▸ List.mem_append_right _ (List.mem_cons_of_mem n hmem)
  rw [removeNode_links (h.parent p n hn), herase]
  refine h.exchange ?_ ?_ (fun _ => ⟨[], _, _, rfl, rfl, rfl, rfl, if_pos rfl⟩) (fun x hx => ?_)
    (fun x hx _ => ?_) fun m hm => ⟨if_neg fun h => hm h.1, if_neg fun h => hm h.1⟩
  · rw [hchain, hkids, List.append_nil, List.append_assoc]
    exact (List.perm_append_singleton n bs).append_left as
  · apply hchildren.remove hnodup
    · intro l hl
      exact (if_neg (hbefore hl).2).trans (if_pos hl)
    · intro y hy hprevy
      exact (if_neg hy).trans (if_neg hprevy)
    · intro b hb
      exact if_pos hb
    · intro y _ hnexty
      exact if_neg hnexty
    · simp
    · simp
  · have hne : x ≠ n := by
      rintro rfl
      rcases List.mem_append.mp hx with hx | hx
      · exact hnas hx
      · exact (List.nodup_cons.mp (List.nodup_append.mp hnodup).2.1).1 hx
    refine (if_neg hne).trans (h.parent p x ?_)
    rw [← herase] at hx
    exact List.mem_of_mem_erase hx
  · have hne : x ≠ n := fun hxn => hx (hxn ▸ hn)
    refine ⟨(if_neg hne).trans (if_neg fun h => hx (hbefore h).1), if_neg fun h => hx (hbehind h), if_neg hne⟩

/-! ### Runs -/

/-- A safe call returns, and keeps the links. -/
theorem Linked.step (h : Linked t f) {op : Op N} (hf : f.Step op f') (hsafe : Safe t op) :
    ∃ t', Returns (fun n => t.step n op) t' ∧ Linked t' f' := by
  cases hf with
  | append hchain => exact append_linked h hchain hsafe
  | prepend hchain => exact prepend_linked h hchain hsafe
  | remove hn => exact ⟨_, .const _, remove_linked h hn⟩

theorem setParents_links {node c l : N} {n : ℕ} {t t' : ParseTree N}
    (h : setParents node n t c = some (t', l)) : ∃ pn, t' = { t with parentNode := pn } := by
  induction n generalizing t c with
  | zero => cases h
  | succ n ih =>
      rw [setParents] at h
      split at h
      · cases h
        exact ⟨_, rfl⟩
      · obtain ⟨pn, rfl⟩ := ih h
        exact ⟨pn, rfl⟩

/-- A call that keeps the links is safe. -/
theorem Linked.safe_of_step (h : Linked t f) {op : Op N} (hf : f.Step op f')
    (ht' : Returns (fun n => t.step n op) t') (hw : WellLinked t' f'.kids) : Safe t op := by
  obtain ⟨n, hn⟩ := ht'
  have hstep : t.step n op = some t' := hn n (Nat.le_refl n)
  cases hf with
  | @append node chd hchain =>
      obtain ⟨cs, last, hcs, hs⟩ := h.exists_last hchain
      rw [Safe, or_iff_not_imp_left, not_ne_iff]
      intro hlast
      have hnil : f.kids node = [] := by
        rw [h.lastChild_eq] at hlast
        exact List.getLast?_eq_none_iff.mp hlast
      rw [ParseTree.step, appendChild, hlast] at hstep
      obtain ⟨⟨t₁, l⟩, hparents, rfl⟩ := Option.map_eq_some_iff.mp hstep
      obtain ⟨pn, rfl⟩ := setParents_links hparents
      have hchildren := hw.children node
      dsimp only at hchildren
      rw [Function.update_self, hnil, List.nil_append, hcs] at hchildren
      exact hchildren.2.1
  | @prepend node chd hchain =>
      obtain ⟨cs, last, hcs, hs⟩ := h.exists_last hchain
      have hchildren := hw.children node
      dsimp only at hchildren
      rw [Function.update_self, hcs, List.cons_append] at hchildren
      cases hfc : t.firstChild node with
      | none =>
          have hlast : t.lastChild node = none := by
            have hnil := (h.firstChild_eq node).symm.trans hfc
            rw [h.lastChild_eq, List.head?_eq_none_iff.mp hnil]
            rfl
          rw [ParseTree.step, prependChild, hfc] at hstep
          obtain ⟨⟨t₁, l⟩, hparents, rfl⟩ := Option.map_eq_some_iff.mp hstep
          obtain ⟨pn, rfl⟩ := setParents_links hparents
          have hend := hchildren.last_eq
          rw [List.getLast?_eq_some_getLast (List.cons_ne_nil chd _), Option.some_or] at hend
          cases hlast.symm.trans hend
      | some fc =>
          have hmem : fc ∈ f.kids node := List.mem_of_head? ((h.firstChild_eq node).symm.trans hfc)
          have hdetached {x : N} (hx : x ∈ chd :: cs) : x ≠ fc := by
            rintro rfl
            exact h.detached node chd x hmem (hcs ▸ hx)
          rw [ParseTree.step, prependChild, hfc] at hstep
          obtain ⟨⟨t₁, l⟩, hparents, rfl⟩ := Option.map_eq_some_iff.mp hstep
          obtain ⟨pn, rfl⟩ := setParents_links hparents
          refine ⟨hfc ▸ Option.some_ne_none fc, ?_, ?_⟩
          · cases cs with
            | nil => exact hs.2.2.2
            | cons d ds =>
                have hnext : Function.update t.nextSibling chd (some fc) chd = some d := hchildren.2.2.1
                rw [Function.update_self] at hnext
                exact absurd (Option.some.inj hnext).symm (hdetached (by simp))
          · have hprev : Function.update t.previousSibling fc (some chd) chd = none := hchildren.2.1
            rwa [Function.update_of_ne (hdetached List.mem_cons_self)] at hprev
  | remove hn => trivial

/-- A sequence of calls, with the tree and the forest before each. -/
inductive Run (t₀ : ParseTree N) (f₀ : Forest N) :
    List (ParseTree N × Forest N × Op N) → ParseTree N → Forest N → Prop
  | nil : Run t₀ f₀ [] t₀ f₀
  | snoc {steps : List (ParseTree N × Forest N × Op N)} {t t' : ParseTree N} {f f' : Forest N} {op : Op N}
      (h : Run t₀ f₀ steps t f) (hf : f.Step op f') (ht : Returns (fun n => t.step n op) t') :
      Run t₀ f₀ (steps ++ [(t, f, op)]) t' f'

theorem Run.linked {t₀ : ParseTree N} {f₀ : Forest N} (h₀ : Linked t₀ f₀)
    {steps : List (ParseTree N × Forest N × Op N)} (h : Run t₀ f₀ steps t f)
    (hsafe : ∀ s ∈ steps, Safe s.1 s.2.2) : Linked t f := by
  induction h with
  | nil => exact h₀
  | snoc h hf ht ih =>
      have hlinked := ih fun s hs => hsafe s (List.mem_append_left _ hs)
      obtain ⟨t₁, ht₁, hlinked'⟩ := hlinked.step hf (hsafe _ (List.mem_append_right _ (List.mem_singleton_self _)))
      rwa [ht.unique ht₁]

/-- Every tree reached is well linked exactly when every call is safe; then every
further safe call returns. -/
theorem Run.wellLinked_iff {t₀ : ParseTree N} {f₀ : Forest N} (h₀ : Linked t₀ f₀)
    {steps : List (ParseTree N × Forest N × Op N)} (h : Run t₀ f₀ steps t f) :
    (((∀ s ∈ steps, WellLinked s.1 s.2.1.kids) ∧ WellLinked t f.kids) ↔ ∀ s ∈ steps, Safe s.1 s.2.2) ∧
    ((∀ s ∈ steps, Safe s.1 s.2.2) → ∀ op f', f.Step op f' → Safe t op →
      ∃ t', Returns (fun n => t.step n op) t') := by
  refine ⟨?_, fun hsafe op f' hf hop => ?_⟩
  · induction h with
    | nil => exact ⟨fun _ => nofun, fun _ => ⟨nofun, h₀.toWellLinked⟩⟩
    | @snoc steps t t' f f' op h hf ht ih =>
        have hlast (P : ParseTree N × Forest N × Op N → Prop) :
            (∀ s ∈ steps ++ [(t, f, op)], P s) ↔ (∀ s ∈ steps, P s) ∧ P (t, f, op) := by
          simp [or_imp, forall_and]
        rw [hlast, hlast, ih]
        constructor
        · rintro ⟨hsafe, hw⟩
          exact ⟨hsafe, (h.linked h₀ hsafe).safe_of_step hf ht hw⟩
        · rintro ⟨hsafe, hop⟩
          refine ⟨hsafe, ?_⟩
          obtain ⟨t₁, ht₁, hlinked⟩ := (h.linked h₀ hsafe).step hf hop
          rw [ht.unique ht₁]
          exact hlinked.toWellLinked
  · obtain ⟨t', ht', -⟩ := (h.linked h₀ hsafe).step hf hop
    exact ⟨t', ht'⟩

/-! ### Single nodes -/

/-- No node is linked to another. -/
def detachedNodes (N : Type) : ParseTree N where
  parentNode _ := none
  previousSibling _ := none
  nextSibling _ := none
  firstChild _ := none
  lastChild _ := none

def singles (N : Type) : Forest N where
  kids _ := []
  chain x := [x]

omit [DecidableEq N] in
theorem linked_detachedNodes (N : Type) : Linked (detachedNodes N) (singles N) where
  children _ := ⟨rfl, rfl⟩
  nodup _ := List.nodup_nil
  parent _ _ hx := absurd hx List.not_mem_nil
  chain x _ := ⟨[], none, some x, rfl, rfl, rfl, rfl, rfl⟩
  nodupChain x := List.nodup_singleton x
  detached _ _ _ hx := absurd hx List.not_mem_nil
  disjoint _ _ _ hx hx' := (List.mem_singleton.mp hx).symm.trans (List.mem_singleton.mp hx')

theorem mono_step (t : ParseTree N) (op : Op N) : Mono fun n => t.step n op := by
  have hparents (node : N) (t : ParseTree N) (c : N) : Mono fun n => setParents node n t c := by
    intro n
    induction n generalizing t c with
    | zero => nofun
    | succ n ih =>
        intro m a hnm h
        obtain ⟨m, rfl⟩ := Nat.exists_eq_add_of_le' (Nat.one_le_of_lt (Nat.lt_of_succ_le hnm))
        simp only [setParents] at h ⊢
        split at h
        · exact h
        · exact ih _ _ m a (by omega) h
  cases op with
  | append node chd => exact (hparents node _ chd).map _
  | prepend node chd => exact (hparents node _ chd).map _
  | remove n => exact .const _

theorem returns_of_step {op : Op N} {n : ℕ} (h : t.step n op = some t') : Returns (fun n => t.step n op) t' :=
  ⟨n, fun m hnm => mono_step t op n m t' hnm h⟩

/-- Nodes 1 and 2 are put under node 0, and node 2 is removed. -/
theorem exists_run_remove : ∃ steps t f, Run (detachedNodes ℕ) (singles ℕ) steps t f ∧ steps.length = 3 := by
  have h₁ := Run.nil.snoc (@Forest.Step.append ℕ _ (singles ℕ) 0 1 (by decide))
    (returns_of_step (t := detachedNodes ℕ) (n := 1) rfl)
  have h₂ := h₁.snoc (@Forest.Step.append ℕ _ _ 0 2 (by decide)) (returns_of_step (n := 1) rfl)
  have h₃ := h₂.snoc (@Forest.Step.remove ℕ _ _ 0 2 (by decide)) (returns_of_step (n := 1) rfl)
  exact ⟨_, _, _, h₃, rfl⟩

theorem wellLinked_remove : ∃ steps t f, Run (detachedNodes ℕ) (singles ℕ) steps t f ∧ steps.length = 3 ∧
    (((∀ s ∈ steps, WellLinked s.1 s.2.1.kids) ∧ WellLinked t f.kids) ↔ ∀ s ∈ steps, Safe s.1 s.2.2) ∧
    ((∀ s ∈ steps, Safe s.1 s.2.2) → ∀ op f', f.Step op f' → Safe t op →
      ∃ t', Returns (fun n => t.step n op) t') := by
  obtain ⟨steps, t, f, hrun, hlen⟩ := exists_run_remove
  exact ⟨steps, t, f, hrun, hlen, Run.wellLinked_iff (linked_detachedNodes ℕ) hrun⟩

/-- Node 2 is then put under node 3, with node 1 as its previous sibling. -/
theorem not_wellLinked : ¬ ∀ (steps : List (ParseTree ℕ × Forest ℕ × Op ℕ)) (t : ParseTree ℕ) (f : Forest ℕ),
    Run (detachedNodes ℕ) (singles ℕ) steps t f → WellLinked t f.kids := by
  intro h
  have h₁ := Run.nil.snoc (@Forest.Step.append ℕ _ (singles ℕ) 0 1 (by decide))
    (returns_of_step (t := detachedNodes ℕ) (n := 1) rfl)
  have h₂ := h₁.snoc (@Forest.Step.append ℕ _ _ 0 2 (by decide)) (returns_of_step (n := 1) rfl)
  have h₃ := h₂.snoc (@Forest.Step.remove ℕ _ _ 0 2 (by decide)) (returns_of_step (n := 1) rfl)
  have h₄ := h₃.snoc (@Forest.Step.append ℕ _ _ 3 2 (by decide)) (returns_of_step (n := 1) rfl)
  have hchildren := (h _ _ _ h₄).children 3
  cases hchildren.2.1

end Swig.ParseTree
