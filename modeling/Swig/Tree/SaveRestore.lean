import Swig.DOH.Attributes
import Mathlib.Data.List.Infix
import Mathlib.Data.Set.Basic

/-!
Saved attributes of a node (`tree.c`).

`Swig_require` and `Swig_save` keep attributes of a node in the node itself, under keys that
begin with a namespace, and `Swig_restore` moves those of the innermost namespace back. A node
is its table of attributes; objects are values, and a string is its contents.
-/

namespace Swig.Tree

open DOH

/-- An object held by an attribute. -/
inductive AttrObject
  | none
  | str (s : List Byte)
  | other (p : ℕ)
  deriving DecidableEq

abbrev AttrNode := Hash AttrObject

/-- `DohGetattr`. -/
def getattr (n : AttrNode) (name : List Byte) : Option AttrObject :=
  (getObject n name).filter (· ≠ .none)

/-- `"%s:%s"`. -/
def saveKey (ns name : List Byte) : List Byte := ns ++ lit ":" ++ name

def viewName : List Byte := lit "view"

/-- A name of `Swig_require` without its mark, and if a copy is saved and if it is optional. -/
def requireName : List Byte → Bool × Bool × List Byte
  | [] => (false, false, [])
  | c :: name =>
      if c = chr '*' then (true, false, name)
      else if c = chr '?' then (true, true, name)
      else (false, false, c :: name)

/-- Save a copy of the attribute. -/
def saveAttr (ns : List Byte) (n : AttrNode) (name : List Byte) : AttrNode :=
  (setattr n (saveKey ns name) (some ((getattr n name).getD .none))).2

/-- Save the view. -/
def saveView (ns : List Byte) (n : AttrNode) : AttrNode :=
  match getattr n viewName with
  | some view =>
      if view ≠ .str ns then (setattr (setattr n (saveKey ns viewName) (some view)).2 viewName (some (.str ns))).2
      else n
  | none => (setattr n viewName (some (.str ns))).2

/-- The loop of `Swig_require`; none if a name is missing. -/
def requireLoop (ns : List Byte) : AttrNode → List (List Byte) → Option AttrNode
  | n, [] => some n
  | n, name :: names =>
      let (newref, opt, name) := requireName name
      if !opt && (getattr n name).isNone then none
      else requireLoop ns (if newref then saveAttr ns n name else n) names

def swigRequire (ns : List Byte) (n : AttrNode) (names : List (List Byte)) : Option AttrNode :=
  (requireLoop ns n names).map (saveView ns)

def swigSave (ns : List Byte) (n : AttrNode) (names : List (List Byte)) : AttrNode :=
  saveView ns (names.foldl (fun n name => saveAttr ns n (requireName name).2.2) n)

/-- One key of the list of `Swig_restore`. -/
def restoreAttr (len : ℕ) (n : AttrNode) (key : List Byte) : AttrNode :=
  (deleteObject (setattr n (key.drop len) (getattr n key)).2 key).2

/-- `Swig_restore`; none if the node has no view. -/
def swigRestore (n : AttrNode) : Option AttrNode :=
  match getattr n viewName with
  | some (.str ns) => (hashKeys n (n.nodes.length + 1)).map fun keys =>
      (keys.filter (ns ++ lit ":").isPrefixOf).foldl (restoreAttr (ns ++ lit ":").length) n
  | _ => none

/-! ### Nested calls -/

inductive SaveCall
  | save (ns : List Byte) (names : List (List Byte))
  | require (ns : List Byte) (names : List (List Byte))

namespace SaveCall

def ns : SaveCall → List Byte
  | save ns _ => ns
  | require ns _ => ns

/-- The attributes that are saved. -/
def saved : SaveCall → List (List Byte)
  | save _ names => names.map fun name => (requireName name).2.2
  | require _ names => (names.filter fun name => (requireName name).1).map fun name => (requireName name).2.2

def apply (n : AttrNode) : SaveCall → Option AttrNode
  | save ns names => some (swigSave ns n names)
  | require ns names => swigRequire ns n names

end SaveCall

/-- A call that is not restored yet, with the node before it. -/
structure Frame where
  ns : List Byte
  saved : List (List Byte)
  node : AttrNode

/-- No namespace begins with another one and a colon. -/
def Apart (N : Set (List Byte)) : Prop := ∀ ns ∈ N, ∀ ns' ∈ N, ¬(ns ++ lit ":") <+: ns'

/-- The name of an attribute that is not the view and begins with no namespace and a colon. -/
def Ordinary (N : Set (List Byte)) (name : List Byte) : Prop :=
  name ≠ viewName ∧ ∀ ns ∈ N, ¬(ns ++ lit ":") <+: name

/-- A node after calls with namespaces of `N`, where the frames are those not restored yet, the
last one first. -/
inductive Reachable (N : Set (List Byte)) : List Frame → AttrNode → Prop
  | start {n : AttrNode} : n.Valid → (∀ name, (getObject n name).isSome → ∀ ns ∈ N, ¬(ns ++ lit ":") <+: name) →
      Reachable N [] n
  | call {fs : List Frame} {n n' : AttrNode} (c : SaveCall) : Reachable N fs n → c.ns ∈ N →
      (∀ f ∈ fs, f.ns ≠ c.ns) → (∀ name ∈ c.saved, Ordinary N name) → c.apply n = some n' →
      Reachable N (⟨c.ns, c.saved, n⟩ :: fs) n'
  | change {fs : List Frame} {n : AttrNode} (name : List Byte) (obj : Option AttrObject) : Reachable N fs n →
      Ordinary N name → Reachable N fs (setattr n name obj).2
  | restore {f : Frame} {fs : List Frame} {n n' : AttrNode} : Reachable N (f :: fs) n →
      swigRestore n = some n' → Reachable N fs n'

/-- What was saved is as before the call, and nothing else changes but the view. -/
structure Restored (f : Frame) (n n' : AttrNode) : Prop where
  saved : ∀ name ∈ f.saved, getattr n' name = getattr f.node name
  view : getattr n' viewName = some ((getattr f.node viewName).getD (.str f.ns))
  frame : ∀ name, name ∉ f.saved → name ≠ viewName → ¬(f.ns ++ lit ":") <+: name →
    getattr n' name = getattr n name

/-! ### Keys -/

variable {N : Set (List Byte)} {ns ns' name name' : List Byte} {n n' : AttrNode} {f : Frame} {fs : List Frame}

theorem prefix_saveKey (ns name : List Byte) : (ns ++ lit ":") <+: saveKey ns name := List.prefix_append _ _

theorem saveKey_inj : saveKey ns name = saveKey ns name' ↔ name = name' := List.append_right_inj _

theorem prefix_colon (h : (ns ++ lit ":") <+: ns' ++ lit ":") : ns = ns' ∨ (ns ++ lit ":") <+: ns' := by
  obtain heq | h := List.prefix_concat_iff.mp h
  · exact .inl (List.append_cancel_right heq)
  · exact .inr h

theorem Apart.ns_eq (hN : Apart N) (hns : ns ∈ N) (hns' : ns' ∈ N) (h : (ns ++ lit ":") <+: saveKey ns' name) :
    ns = ns' := by
  obtain h | h := List.prefix_or_prefix_of_prefix h (prefix_saveKey ns' name)
  · exact (prefix_colon h).resolve_right (hN ns hns ns' hns')
  · exact ((prefix_colon h).resolve_right (hN ns' hns' ns hns)).symm

theorem viewName_not_prefix (ns : List Byte) : ¬(ns ++ lit ":") <+: viewName := by
  intro h
  have hcolon : chr ':' ∈ viewName := h.subset (List.mem_append_right _ List.mem_cons_self)
  revert hcolon
  decide

theorem Ordinary.ne_saveKey (h : Ordinary N name) (hns : ns ∈ N) : name ≠ saveKey ns name' := by
  rintro rfl
  exact h.2 ns hns (prefix_saveKey ns name')

theorem viewName_ne_saveKey : viewName ≠ saveKey ns name := by
  intro h
  exact viewName_not_prefix ns (h ▸ prefix_saveKey ns name)

/-! ### Saving -/

theorem saveAttr_valid (hv : n.Valid) : (saveAttr ns n name).Valid := hv.setattr _ _

theorem getObject_saveAttr (hv : n.Valid) (k : List Byte) : getObject (saveAttr ns n name) k =
    if k = saveKey ns name then some ((getattr n name).getD .none) else getObject n k :=
  getObject_setattr hv _ _ _

/-- Saving reads what was there before the first name was saved. -/
theorem saveAttrs_spec (hv : n.Valid) {names : List (List Byte)} (hnames : ∀ name ∈ names, ∀ r, name ≠ saveKey ns r) :
    (names.foldl (saveAttr ns) n).Valid ∧ (∀ name ∈ names,
      getObject (names.foldl (saveAttr ns) n) (saveKey ns name) = some ((getattr n name).getD .none)) ∧
      ∀ k, (∀ name ∈ names, k ≠ saveKey ns name) → getObject (names.foldl (saveAttr ns) n) k = getObject n k := by
  induction names generalizing n with
  | nil => exact ⟨hv, by simp, fun k _ => rfl⟩
  | cons name names ih =>
      obtain ⟨hname, hrest⟩ := List.forall_mem_cons.mp hnames
      have hv' : (saveAttr ns n name).Valid := saveAttr_valid hv
      obtain ⟨hvalid, hsaved, hframe⟩ := ih hv' hrest
      have hread (r : List Byte) (hr : ∀ r', r ≠ saveKey ns r') : getattr (saveAttr ns n name) r = getattr n r := by
        rw [getattr, getObject_saveAttr hv, if_neg (hr name), getattr]
      rw [List.foldl_cons]
      refine ⟨hvalid, List.forall_mem_cons.mpr ⟨?_, ?_⟩, ?_⟩
      · by_cases hagain : name ∈ names
        · rw [hsaved name hagain, hread name hname]
        · have hne : ∀ r ∈ names, saveKey ns name ≠ saveKey ns r := by
            intro r hr h
            exact hagain (saveKey_inj.mp h ▸ hr)
          rw [hframe _ hne, getObject_saveAttr hv, if_pos rfl]
      · intro r hr
        rw [hsaved r hr, hread r (hrest r hr)]
      · intro k hk
        obtain ⟨hkey, hk⟩ := List.forall_mem_cons.mp hk
        rw [hframe k hk, getObject_saveAttr hv, if_neg hkey]

theorem requireLoop_eq {names : List (List Byte)} (h : requireLoop ns n names = some n') :
    n' = ((names.filter fun name => (requireName name).1).map fun name => (requireName name).2.2).foldl
      (saveAttr ns) n := by
  induction names generalizing n with
  | nil => exact (Option.some.inj h).symm
  | cons name names ih =>
      rw [requireLoop] at h
      dsimp only at h
      split at h
      · cases h
      · have hrest := ih h
        by_cases hnew : (requireName name).1 = true
        · rw [if_pos hnew] at hrest
          simp only [List.filter_cons, hnew, if_true, List.map_cons, List.foldl_cons]
          exact hrest
        · rw [if_neg hnew] at hrest
          simp only [List.filter_cons, hnew, Bool.false_eq_true, if_false]
          exact hrest

/-- Both calls save the attributes and then the view. -/
theorem SaveCall.apply_eq {c : SaveCall} (h : c.apply n = some n') :
    n' = saveView c.ns (c.saved.foldl (saveAttr c.ns) n) := by
  cases c with
  | save ns names =>
      rw [SaveCall.apply, swigSave] at h
      rw [SaveCall.ns, SaveCall.saved, List.foldl_map]
      exact (Option.some.inj h).symm
  | require ns names =>
      rw [SaveCall.apply, swigRequire] at h
      obtain ⟨n₁, hloop, rfl⟩ := Option.map_eq_some_iff.mp h
      rw [SaveCall.ns, SaveCall.saved, requireLoop_eq hloop]

/-- What is under a namespace: the copies of the saved attributes, and the view of outside. -/
def Frame.table (f : Frame) (name : List Byte) : Option AttrObject :=
  if name = viewName then (getattr f.node viewName).filter (· ≠ .str f.ns)
  else if name ∈ f.saved then some ((getattr f.node name).getD .none)
  else none

theorem getObject_of_getattr {obj : AttrObject} (h : getattr n name = some obj) : getObject n name = some obj :=
  (Option.filter_eq_some_iff.mp h).1

theorem saveView_spec (hv : n.Valid) (ns : List Byte) : (saveView ns n).Valid ∧ ∀ k, getObject (saveView ns n) k =
    if k = viewName then some (.str ns)
    else if k = saveKey ns viewName then ((getattr n viewName).filter (· ≠ .str ns)).or (getObject n k)
    else getObject n k := by
  rw [saveView]
  cases hview : getattr n viewName with
  | none =>
      refine ⟨hv.setattr _ _, fun k => ?_⟩
      rw [getObject_setattr hv]
      simp
  | some view =>
      dsimp only
      by_cases heq : view = .str ns
      · rw [if_neg (not_not.mpr heq)]
        refine ⟨hv, fun k => ?_⟩
        have hnone : (some view).filter (· ≠ .str ns) = none := by simp [heq]
        by_cases hk : k = viewName
        · rw [if_pos hk, hk, getObject_of_getattr hview, heq]
        · rw [if_neg hk, hnone, Option.none_or, ite_self]
      · rw [if_pos heq]
        refine ⟨(hv.setattr _ _).setattr _ _, fun k => ?_⟩
        have hsome : (some view).filter (· ≠ .str ns) = some view := by simp [heq]
        rw [getObject_setattr (hv.setattr _ _), getObject_setattr hv, hsome, Option.some_or]

/-- A call writes the view and the keys of its frame. -/
theorem SaveCall.apply_spec {c : SaveCall} (hv : n.Valid) (h : c.apply n = some n')
    (hnames : ∀ name ∈ c.saved, name ≠ viewName ∧ ∀ r, name ≠ saveKey c.ns r)
    (hnew : ∀ r, getObject n (saveKey c.ns r) = none) : n'.Valid ∧ getattr n' viewName = some (.str c.ns) ∧
      (∀ r, getObject n' (saveKey c.ns r) = Frame.table ⟨c.ns, c.saved, n⟩ r) ∧
      ∀ k, k ≠ viewName → (∀ r, k ≠ saveKey c.ns r) → getObject n' k = getObject n k := by
  obtain ⟨hvalid, hsaved, hframe⟩ := saveAttrs_spec hv fun name hname => (hnames name hname).2
  obtain ⟨hvalid', hview⟩ := saveView_spec hvalid c.ns
  have hread : getattr (c.saved.foldl (saveAttr c.ns) n) viewName = getattr n viewName := by
    rw [getattr, hframe viewName fun name _ => viewName_ne_saveKey, getattr]
  rw [hread] at hview
  rw [SaveCall.apply_eq h]
  refine ⟨hvalid', ?_, fun r => ?_, fun k hk hkey => ?_⟩
  · rw [getattr, hview, if_pos rfl]
    rfl
  · rw [hview, if_neg viewName_ne_saveKey.symm, Frame.table]
    have hother (hr : r ∉ c.saved) : getObject (c.saved.foldl (saveAttr c.ns) n) (saveKey c.ns r) = none := by
      have hne : ∀ name ∈ c.saved, saveKey c.ns r ≠ saveKey c.ns name := by
        intro name hname heq
        exact hr (saveKey_inj.mp heq ▸ hname)
      rw [hframe _ hne, hnew]
    by_cases hr : r = viewName
    · have hnot : r ∉ c.saved := fun hmem => (hnames r hmem).1 hr
      rw [hother hnot, Option.or_none, if_pos hr, if_pos (saveKey_inj.mpr hr)]
    · rw [if_neg hr, if_neg (mt saveKey_inj.mp hr)]
      by_cases hmem : r ∈ c.saved
      · rw [if_pos hmem, hsaved r hmem]
      · rw [if_neg hmem, hother hmem]
  · rw [hview, if_neg hk, if_neg (hkey viewName), hframe k fun name _ => hkey name]

/-! ### Restoring -/

theorem restoreAttr_spec (hv : n.Valid) (ns r : List Byte) :
    (restoreAttr (ns ++ lit ":").length n (saveKey ns r)).Valid ∧
      ∀ k, getObject (restoreAttr (ns ++ lit ":").length n (saveKey ns r)) k =
        if k = saveKey ns r then none else if k = r then getattr n (saveKey ns r) else getObject n k := by
  have hdrop : (saveKey ns r).drop (ns ++ lit ":").length = r := List.drop_left
  rw [restoreAttr, hdrop]
  refine ⟨(hv.setattr _ _).delete _, fun k => ?_⟩
  rw [getObject_delete (hv.setattr _ _), getObject_setattr hv]

/-- Each key of the list is moved to its name. -/
theorem restoreAttrs_spec (hv : n.Valid) {rs : List (List Byte)} (hnodup : rs.Nodup)
    (hrs : ∀ r ∈ rs, ∀ r', r ≠ saveKey ns r') :
    ((rs.map (saveKey ns)).foldl (restoreAttr (ns ++ lit ":").length) n).Valid ∧
      (∀ r ∈ rs, getObject ((rs.map (saveKey ns)).foldl (restoreAttr (ns ++ lit ":").length) n) r =
        getattr n (saveKey ns r)) ∧
      (∀ r ∈ rs, getObject ((rs.map (saveKey ns)).foldl (restoreAttr (ns ++ lit ":").length) n) (saveKey ns r) =
        none) ∧
      ∀ k, k ∉ rs → (∀ r ∈ rs, k ≠ saveKey ns r) →
        getObject ((rs.map (saveKey ns)).foldl (restoreAttr (ns ++ lit ":").length) n) k = getObject n k := by
  induction rs generalizing n with
  | nil => exact ⟨hv, by simp, by simp, fun k _ _ => rfl⟩
  | cons r rs ih =>
      obtain ⟨hr, hrest⟩ := List.forall_mem_cons.mp hrs
      obtain ⟨hnew, hnodup⟩ := List.nodup_cons.mp hnodup
      obtain ⟨hv', hone⟩ := restoreAttr_spec hv ns r
      obtain ⟨hvalid, hmoved, hgone, hframe⟩ := ih hv' hnodup hrest
      have hnotkey : ∀ r' ∈ rs, saveKey ns r ≠ saveKey ns r' := by
        intro r' hr' h
        exact hnew (saveKey_inj.mp h ▸ hr')
      rw [List.map_cons, List.foldl_cons]
      refine ⟨hvalid, List.forall_mem_cons.mpr ⟨?_, fun r' hr' => ?_⟩,
        List.forall_mem_cons.mpr ⟨?_, hgone⟩, fun k hk hkey => ?_⟩
      · rw [hframe r hnew fun r' _ => hr r', hone, if_neg (hr r), if_pos rfl]
      · have hne : saveKey ns r' ≠ r := (hr r').symm
        have hne' : saveKey ns r' ≠ saveKey ns r := (hnotkey r' hr').symm
        rw [hmoved r' hr', getattr, hone, if_neg hne', if_neg hne, getattr]
      · have hnot : saveKey ns r ∉ rs := fun hmem => hrest _ hmem r rfl
        rw [hframe _ hnot hnotkey, hone, if_pos rfl]
      · obtain ⟨hkr, hkrs⟩ : k ≠ r ∧ k ∉ rs := by simpa using hk
        obtain ⟨hkey₁, hkeys⟩ := List.forall_mem_cons.mp hkey
        rw [hframe k hkrs hkeys, hone, if_neg hkey₁, if_neg hkr]

/-- The keys `Swig_restore` collects are those of the namespace. -/
theorem swigRestore_eq (hv : n.Valid) (hview : getattr n viewName = some (.str ns)) : ∃ rs : List (List Byte),
    swigRestore n = some ((rs.map (saveKey ns)).foldl (restoreAttr (ns ++ lit ":").length) n) ∧ rs.Nodup ∧
      ∀ r, r ∈ rs ↔ (getObject n (saveKey ns r)).isSome := by
  obtain ⟨keys, hkeys, hnodup, hmem⟩ := hv.keys
  have hdrop (r : List Byte) : (saveKey ns r).drop (ns ++ lit ":").length = r := List.drop_left
  have hkey : ∀ k ∈ keys.filter (ns ++ lit ":").isPrefixOf, ∃ r, saveKey ns r = k := by
    intro k hk
    obtain ⟨r, hr⟩ := List.isPrefixOf_iff_prefix.mp (List.of_mem_filter hk)
    exact ⟨r, hr⟩
  refine ⟨(keys.filter (ns ++ lit ":").isPrefixOf).map (List.drop (ns ++ lit ":").length), ?_, ?_, fun r => ?_⟩
  · have hback : ∀ k ∈ keys.filter (ns ++ lit ":").isPrefixOf, saveKey ns (k.drop (ns ++ lit ":").length) = k := by
      intro k hk
      obtain ⟨r, rfl⟩ := hkey k hk
      rw [hdrop]
    have hlist : ((keys.filter (ns ++ lit ":").isPrefixOf).map (List.drop (ns ++ lit ":").length)).map (saveKey ns) =
        keys.filter (ns ++ lit ":").isPrefixOf := by
      rw [List.map_map]
      exact (List.map_congr_left hback).trans (List.map_id _)
    rw [hlist, swigRestore, hview, hkeys]
    rfl
  · refine (hnodup.filter _).map_on ?_
    intro k hk k' hk' heq
    obtain ⟨r, rfl⟩ := hkey k hk
    obtain ⟨r', rfl⟩ := hkey k' hk'
    rw [hdrop, hdrop] at heq
    rw [heq]
  · rw [← hmem]
    constructor
    · intro hr
      obtain ⟨k, hk, rfl⟩ := List.mem_map.mp hr
      obtain ⟨r, rfl⟩ := hkey k hk
      rw [hdrop]
      exact List.mem_of_mem_filter hk
    · intro hr
      have hpre : (ns ++ lit ":").isPrefixOf (saveKey ns r) = true :=
        List.isPrefixOf_iff_prefix.mpr (prefix_saveKey ns r)
      exact List.mem_map.mpr ⟨saveKey ns r, List.mem_filter.mpr ⟨hr, hpre⟩, hdrop r⟩

/-- Every key of the namespace is moved to its name, and the others stay. -/
theorem swigRestore_spec (hv : n.Valid) (hview : getattr n viewName = some (.str ns))
    (hkeys : ∀ r, (getObject n (saveKey ns r)).isSome → ∀ r', r ≠ saveKey ns r') :
    ∃ n', swigRestore n = some n' ∧ n'.Valid ∧ (∀ k, (∀ r, k ≠ saveKey ns r) → getObject n' k =
      if (getObject n (saveKey ns k)).isSome then getattr n (saveKey ns k) else getObject n k) ∧
      ∀ r, getObject n' (saveKey ns r) = none := by
  obtain ⟨rs, hrestore, hnodup, hmem⟩ := swigRestore_eq hv hview
  have hrs : ∀ r ∈ rs, ∀ r', r ≠ saveKey ns r' := fun r hr => hkeys r ((hmem r).mp hr)
  obtain ⟨hvalid, hmoved, hgone, hframe⟩ := restoreAttrs_spec hv hnodup hrs
  refine ⟨_, hrestore, hvalid, fun k hk => ?_, fun r => ?_⟩
  · split
    case isTrue hsome => exact hmoved k ((hmem k).mpr hsome)
    case isFalse hnone => exact hframe k (mt (hmem k).mp hnone) fun r _ => hk r
  · by_cases hr : r ∈ rs
    · exact hgone r hr
    · have hne : ∀ r' ∈ rs, saveKey ns r ≠ saveKey ns r' := by
        intro r' hr' heq
        exact hr (saveKey_inj.mp heq ▸ hr')
      rw [hframe _ (fun hin => hrs _ hin r rfl) hne]
      exact Option.not_isSome_iff_eq_none.mp (mt (hmem r).mpr hr)

theorem filter_getattr (n : AttrNode) (name : List Byte) :
    (getattr n name).filter (· ≠ .none) = getattr n name := by
  rw [getattr, Option.filter_filter]
  simp

theorem filter_getD (n : AttrNode) (name : List Byte) :
    (some ((getattr n name).getD .none)).filter (· ≠ .none) = getattr n name := by
  cases h : getattr n name with
  | none => rfl
  | some v =>
      have hfilter := filter_getattr n name
      rw [h] at hfilter
      exact hfilter

/-! ### Runs -/

/-- The frames are those of the keys, and each frame was opened in the view of the next one. -/
structure Opened (N : Set (List Byte)) (fs : List Frame) (n : AttrNode) : Prop where
  valid : n.Valid
  view : ∀ f ∈ fs.head?, getattr n viewName = some (.str f.ns)
  views : fs.IsChain fun f g => getattr f.node viewName = some (.str g.ns)
  distinct : (fs.map Frame.ns).Nodup
  known : ∀ f ∈ fs, f.ns ∈ N
  saved : ∀ f ∈ fs, ∀ name ∈ f.saved, Ordinary N name
  table : ∀ f ∈ fs, ∀ r, getObject n (saveKey f.ns r) = f.table r
  closed : ∀ ns ∈ N, (∀ f ∈ fs, f.ns ≠ ns) → ∀ r, getObject n (saveKey ns r) = none

theorem Opened.call (hN : Apart N) (h : Opened N fs n) {c : SaveCall} (hc : c.ns ∈ N) (hnew : ∀ f ∈ fs, f.ns ≠ c.ns)
    (hnames : ∀ name ∈ c.saved, Ordinary N name) (happly : c.apply n = some n') :
    Opened N (⟨c.ns, c.saved, n⟩ :: fs) n' := by
  have hordinary : ∀ name ∈ c.saved, name ≠ viewName ∧ ∀ r, name ≠ saveKey c.ns r :=
    fun name hname => ⟨(hnames name hname).1, fun _ => (hnames name hname).ne_saveKey hc⟩
  obtain ⟨hvalid, hview, htable, hframe⟩ := SaveCall.apply_spec h.valid happly hordinary (h.closed _ hc hnew)
  have hother {ns : List Byte} (hns : ns ∈ N) (hne : ns ≠ c.ns) (r : List Byte) :
      getObject n' (saveKey ns r) = getObject n (saveKey ns r) := by
    refine hframe _ viewName_ne_saveKey.symm fun r' heq => hne ?_
    exact hN.ns_eq hns hc (heq ▸ prefix_saveKey ns r)
  refine ⟨hvalid, ?_, ?_, ?_, ?_, ?_, ?_, ?_⟩
  · intro f hf
    obtain rfl := Option.mem_some_iff.mp hf
    exact hview
  · refine List.isChain_cons.mpr ⟨fun g hg => h.view g hg, h.views⟩
  · rw [List.map_cons, List.nodup_cons]
    refine ⟨fun hmem => ?_, h.distinct⟩
    obtain ⟨f, hf, heq⟩ := List.mem_map.mp hmem
    exact hnew f hf heq
  · exact List.forall_mem_cons.mpr ⟨hc, h.known⟩
  · exact List.forall_mem_cons.mpr ⟨hnames, h.saved⟩
  · refine List.forall_mem_cons.mpr ⟨htable, fun f hf r => ?_⟩
    rw [hother (h.known f hf) (hnew f hf), h.table f hf]
  · intro ns hns hnot r
    obtain ⟨hne, hrest⟩ := List.forall_mem_cons.mp hnot
    rw [hother hns (Ne.symm hne), h.closed ns hns hrest]

theorem Opened.change (h : Opened N fs n) (hname : Ordinary N name) (obj : Option AttrObject) :
    Opened N fs (setattr n name obj).2 := by
  have hkey {ns : List Byte} (hns : ns ∈ N) (r : List Byte) :
      getObject (setattr n name obj).2 (saveKey ns r) = getObject n (saveKey ns r) := by
    rw [getObject_setattr h.valid, if_neg (hname.ne_saveKey hns).symm]
  refine ⟨h.valid.setattr _ _, ?_, h.views, h.distinct, h.known, h.saved, ?_, ?_⟩
  · intro f hf
    rw [getattr, getObject_setattr h.valid, if_neg hname.1.symm]
    exact h.view f hf
  · intro f hf r
    rw [hkey (h.known f hf), h.table f hf]
  · intro ns hns hnot r
    rw [hkey hns, h.closed ns hns hnot]

theorem Opened.restore (hN : Apart N) (h : Opened N (f :: fs) n) :
    ∃ n', swigRestore n = some n' ∧ Restored f n n' ∧ Opened N fs n' := by
  have hview := h.view f rfl
  have hns : f.ns ∈ N := h.known f List.mem_cons_self
  have htable := h.table f List.mem_cons_self
  have hsaved := h.saved f List.mem_cons_self
  -- under the namespace are names of attributes and the view
  have hkeys : ∀ r, (getObject n (saveKey f.ns r)).isSome → ∀ ns ∈ N, ∀ r', r ≠ saveKey ns r' := by
    intro r hr ns hns r'
    rw [htable, Frame.table] at hr
    split at hr
    case isTrue heq => exact heq ▸ viewName_ne_saveKey
    case isFalse =>
      split at hr
      case isTrue hmem => exact (hsaved r hmem).ne_saveKey hns
      case isFalse => cases hr
  obtain ⟨n', hrestore, hvalid, hmoved, hgone⟩ := swigRestore_spec h.valid hview fun r hr => hkeys r hr _ hns
  have hread {name : List Byte} (hname : ∀ r, name ≠ saveKey f.ns r) : getattr n' name =
      if (f.table name).isSome then (f.table name).filter (· ≠ .none) else getattr n name := by
    rw [getattr, hmoved name hname, htable]
    split
    case isTrue => rw [filter_getattr, getattr, htable]
    case isFalse => rfl
  have hview' : getattr n' viewName = some ((getattr f.node viewName).getD (.str f.ns)) := by
    rw [hread fun r => viewName_ne_saveKey, Frame.table, if_pos rfl, hview]
    cases hv : getattr f.node viewName with
    | none => rfl
    | some v =>
        have hne := filter_getattr f.node viewName
        rw [hv] at hne
        by_cases heq : v = .str f.ns
        · simp [heq]
        · have hkeep : (some v).filter (· ≠ .str f.ns) = some v := by simp [heq]
          rw [hkeep, hne]
          rfl
  have hother {ns : List Byte} (hns' : ns ∈ N) (hne : ns ≠ f.ns) (r : List Byte) :
      getObject n' (saveKey ns r) = getObject n (saveKey ns r) := by
    have hnokey (r' : List Byte) : saveKey ns r ≠ saveKey f.ns r' := by
      intro heq
      exact hne (hN.ns_eq hns' hns (heq ▸ prefix_saveKey ns r))
    have hnone : ¬(getObject n (saveKey f.ns (saveKey ns r))).isSome = true := fun hsome => hkeys _ hsome ns hns' r rfl
    rw [hmoved _ hnokey, if_neg hnone]
  refine ⟨n', hrestore, ⟨?_, hview', ?_⟩, ⟨hvalid, ?_, ?_, ?_, ?_, ?_, ?_, ?_⟩⟩
  · intro name hname
    rw [hread fun r => (hsaved name hname).ne_saveKey hns, Frame.table, if_neg (hsaved name hname).1, if_pos hname,
      Option.isSome_some, if_pos rfl, filter_getD]
  · intro name hname hne hpre
    have hnokey (r : List Byte) : name ≠ saveKey f.ns r := fun heq => hpre (heq ▸ prefix_saveKey f.ns r)
    rw [hread hnokey, Frame.table, if_neg hne, if_neg hname]
    rfl
  · intro g hg
    obtain ⟨fs', rfl⟩ : ∃ fs', fs = g :: fs' := by
      cases fs with
      | nil => cases hg
      | cons g' fs' =>
          obtain rfl := Option.mem_some_iff.mp hg
          exact ⟨fs', rfl⟩
    have houter := (List.isChain_cons_cons.mp h.views).1
    rw [hview', houter]
    rfl
  · exact h.views.tail
  · exact (List.nodup_cons.mp h.distinct).2
  · exact (List.forall_mem_cons.mp h.known).2
  · exact (List.forall_mem_cons.mp h.saved).2
  · intro g hg r
    have hg' := List.mem_cons_of_mem f hg
    have hne : g.ns ≠ f.ns := by
      intro heq
      exact (List.nodup_cons.mp h.distinct).1 (heq ▸ List.mem_map_of_mem hg)
    rw [hother (h.known g hg') hne, h.table g hg']
  · intro ns hns' hnot r
    by_cases heq : ns = f.ns
    · rw [heq, hgone]
    · rw [hother hns' heq, h.closed ns hns' (List.forall_mem_cons.mpr ⟨Ne.symm heq, hnot⟩)]

/-- Every run of calls keeps the frames. -/
theorem Reachable.opened (hN : Apart N) (h : Reachable N fs n) : Opened N fs n := by
  induction h with
  | start hv hclosed =>
      refine ⟨hv, nofun, .nil, List.nodup_nil, nofun, nofun, nofun, fun ns hns _ r => ?_⟩
      by_contra hne
      exact hclosed _ (Option.isSome_iff_ne_none.mpr hne) ns hns (prefix_saveKey ns r)
  | call c _ hc hnew hnames happly ih => exact ih.call hN hc hnew hnames happly
  | change name obj _ hname ih => exact ih.change hname obj
  | restore _ hrestore ih =>
      obtain ⟨n'', hrestore', -, hopened⟩ := ih.restore hN
      rw [hrestore] at hrestore'
      exact Option.some.inj hrestore' ▸ hopened

/-- The node with one namespace open and an attribute that was not there before. -/
def nameChanged : AttrNode :=
  (setattr (swigSave (lit "ns") newHash [lit "name"]) (lit "name") (some (.str (lit "x")))).2

theorem reachable_nameChanged :
    Reachable {lit "ns"} [⟨lit "ns", [lit "name"], newHash⟩] nameChanged := by
  have hordinary : Ordinary {lit "ns"} (lit "name") := by
    refine ⟨by decide, fun ns hns => ?_⟩
    obtain rfl := Set.mem_singleton_iff.mp hns
    decide
  refine .change _ _ (.call (.save (lit "ns") [lit "name"]) (.start valid_newHash ?_) rfl nofun ?_ rfl) hordinary
  · intro name hname
    rw [show getObject (newHash : AttrNode) name = none from Represents.getObject represents_newHash name] at hname
    cases hname
  · intro name hname
    obtain rfl := List.mem_singleton.mp hname
    exact hordinary

/-- A node with the attribute `x`. -/
def nodeX : AttrNode := (setattr newHash (lit "x") (some (.str (lit "v")))).2

end Swig.Tree
