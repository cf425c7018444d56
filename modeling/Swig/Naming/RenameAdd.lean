import Swig.Naming.NameObject
import Swig.SType.FunctionType

/-!
Rename rules for a function with default arguments. `Swig_name_rename_add` adds the
rule for its declarator and for every declarator that a call without some of the last
arguments goes to.
-/

namespace Swig.Naming

open ByteBlock Swig.SType

/-! ### Parameter lists -/

/-- The attributes of a parameter; all of them are strings. -/
structure Parm where
  type : SwigType
  name : Option (List Byte)
  value : Option (List Byte)
  compactdefargs : Bool
  deriving DecidableEq

/-- `ParmList_has_defaultargs`. -/
def hasDefaultargs (p : List Parm) : Bool := p.any fun p => p.value.isSome

/-- `CopyParmListMax`; a parameter is copied with all its strings. -/
def copyParmListMax (p : List Parm) (count : ℕ) : List Parm := p.take count

def types (p : List Parm) : List SwigType := p.map Parm.type

/-- The loops over a list of `len` parameters that take its last one away as long as some
parameter has a default argument. -/
def shortenLoop {σ : Type} (step : List Parm → σ → Option σ) : (len : ℕ) → List Parm → σ → Option σ
  | 0, _, st => some st
  | len + 1, declparms, st =>
      if hasDefaultargs declparms then
        let newparms := copyParmListMax declparms len
        (step newparms st).bind (shortenLoop step len newparms)
      else some st

/-- The lists without the last `1..m` parameters. -/
def withoutLast (ps : List Parm) (m : ℕ) : List (List Parm) :=
  (List.range m).map fun i => ps.take (ps.length - (i + 1))

theorem withoutLast_append {ps : List Parm} (p : Parm) (m : ℕ) :
    withoutLast (ps ++ [p]) (m + 1) = ps :: withoutLast ps m := by
  have htake (i : ℕ) : (ps ++ [p]).take (ps.length - i) = ps.take (ps.length - i) :=
    List.take_append_of_le_length (Nat.sub_le ..)
  have hlen (i : ℕ) : (ps ++ [p]).length - (i + 1) = ps.length - i := by
    rw [List.length_append, List.length_singleton]
    omega
  rw [withoutLast, withoutLast, List.range_succ_eq_map, List.map_cons, List.map_map, hlen, htake, Nat.sub_zero,
    List.take_length]
  congr 1
  refine List.map_congr_left fun i _ => ?_
  rw [Function.comp_apply, hlen, htake]

/-- A list of parameters that ends in default arguments, and has no others. -/
structure DefaultParms where
  plain : List Parm
  defaulted : List Parm
  isType : ∀ p ∈ plain ++ defaulted, IsType p.type
  plain_value : ∀ p ∈ plain, p.value = none
  defaulted_value : ∀ p ∈ defaulted, p.value ≠ none

theorem hasDefaultargs_plain {plain : List Parm} (h : ∀ p ∈ plain, p.value = none) : hasDefaultargs plain = false :=
  List.any_eq_false.mpr fun p hp => by simp [h p hp]

theorem hasDefaultargs_append {p : Parm} (h : p.value ≠ none) (ps : List Parm) : hasDefaultargs (ps ++ [p]) = true := by
  simp [hasDefaultargs, Option.isSome_iff_ne_none.mpr h]

theorem shortenLoop_plain {σ : Type} {step : List Parm → σ → Option σ} {ps : List Parm}
    (h : hasDefaultargs ps = false) (len : ℕ) (st : σ) : shortenLoop step len ps st = some st := by
  cases len with
  | zero => rfl
  | succ len => rw [shortenLoop, if_neg (by simp [h])]

/-- What the loop does on a list that ends in default arguments. -/
theorem shortenLoop_append {σ : Type} {step : List Parm → σ → Option σ} {plain defaulted : List Parm}
    (hplain : ∀ p ∈ plain, p.value = none) (hdefaulted : ∀ p ∈ defaulted, p.value ≠ none) (st : σ) :
    shortenLoop step (plain ++ defaulted).length (plain ++ defaulted) st =
      (withoutLast (plain ++ defaulted) defaulted.length).foldlM (fun st ps => step ps st) st := by
  induction defaulted using List.reverseRecOn generalizing st with
  | nil => exact shortenLoop_plain (by simpa using hasDefaultargs_plain hplain) _ st
  | append_singleton ds p ih =>
      have hnew : copyParmListMax (plain ++ ds ++ [p]) (plain ++ ds).length = plain ++ ds := List.take_left
      have hlen : (plain ++ ds ++ [p]).length = (plain ++ ds).length + 1 := List.length_append
      have hdefaults : (ds ++ [p]).length = ds.length + 1 := by simp
      rw [← List.append_assoc, hlen, hdefaults, shortenLoop,
        if_pos (hasDefaultargs_append (hdefaulted p (by simp)) _), hnew, withoutLast_append, List.foldlM_cons]
      cases hst : step (plain ++ ds) st with
      | none =>
          dsimp only
          rw [hst]
          rfl
      | some st' =>
          dsimp only
          rw [hst]
          exact ih (fun p hp => hdefaulted p (by simp [hp])) st'

namespace DefaultParms

variable (D : DefaultParms)

def parms : List Parm := D.plain ++ D.defaulted

/-- The list without its last `i` parameters. -/
def dropped (i : ℕ) : List Parm := D.parms.take (D.parms.length - i)

/-- The lists of the overloads. -/
def overloads : List (List Parm) := withoutLast D.parms D.defaulted.length

/-- The declarator of an overload, as rules are kept by it. -/
def key (const : Bool) (i : ℕ) : SwigType := declarator const [] (types (D.dropped i))

/-- The declarators of the function and of its overloads. -/
def keys (const : Bool) : List SwigType := (List.range (D.defaulted.length + 1)).map (D.key const)

theorem dropped_zero : D.dropped 0 = D.parms := List.take_length

theorem isType_dropped (i : ℕ) : ∀ t ∈ types (D.dropped i), IsType t := by
  intro t ht
  obtain ⟨p, hp, rfl⟩ := List.mem_map.mp ht
  exact D.isType p (List.mem_of_mem_take hp)

theorem length_dropped (i : ℕ) : (D.dropped i).length = D.parms.length - i := by
  rw [dropped, List.length_take]
  omega

theorem keys_eq (const : Bool) :
    D.keys const = D.key const 0 :: D.overloads.map fun ps => declarator const [] (types ps) := by
  rw [keys, List.range_succ_eq_map, List.map_cons, List.map_map, overloads, withoutLast, List.map_map]
  rfl

theorem mem_keys {const : Bool} {d : SwigType} :
    d ∈ D.keys const ↔ ∃ i ≤ D.defaulted.length, d = D.key const i := by
  simp only [keys, List.mem_map, List.mem_range, Nat.lt_succ_iff]
  exact ⟨fun ⟨i, hi, h⟩ => ⟨i, hi, h.symm⟩, fun ⟨i, hi, h⟩ => ⟨i, hi, h.symm⟩⟩

/-- The declarators of two overloads are different. -/
theorem key_injective {const : Bool} {i j : ℕ} (hi : i ≤ D.defaulted.length) (hj : j ≤ D.defaulted.length)
    (h : D.key const i = D.key const j) : i = j := by
  have htypes := declarator_injective (D.isType_dropped i) (D.isType_dropped j) h
  have hlength := congrArg List.length htypes
  rw [types, types, List.length_map, List.length_map, D.length_dropped, D.length_dropped, parms, List.length_append]
    at hlength
  omega

theorem hasDefaultargs_parms (h : 0 < D.defaulted.length) : hasDefaultargs D.parms = true := by
  obtain ⟨p, hp⟩ := List.exists_mem_of_length_pos h
  exact List.any_eq_true.mpr ⟨p, List.mem_append_right _ hp, Option.isSome_iff_ne_none.mpr (D.defaulted_value p hp)⟩

end DefaultParms

/-! ### Adding a rule -/

/-- The options of a rename rule. -/
def renameKeys : List (List Byte) :=
  [lit "fullname", lit "sourcefmt", lit "targetfmt", lit "continue", lit "rxstarget"]

/-- The rule with its options attached. -/
def Rules.attach (st : Rules) (id : ℕ) : Rules :=
  { st with obj := Function.update st.obj id (attachKeys renameKeys (st.obj id)) }

/-- `Swig_name_rename_add`, and `single_rename_add`, which is `Swig_name_nameobj_add` on the
tables of rename rules. -/
def renameAdd (x : Texts) (names : ConstNames) (st : Rules) (pre : Option (List Byte)) (name : List Byte)
    (decl : Option SwigType) (newname : ℕ) (declaratorparms : List Parm) : Option Rules :=
  let st := nameobjAdd x (st.attach newname) pre name decl newname
  match decl with
  | none => some st
  | some decl =>
      let constqualifier := isconst names.const decl
      shortenLoop (fun newparms st =>
        (popFunction decl).bind fun f =>
          let newdecl := addFunction f.2 (types newparms)
          (if constqualifier then addQualifier newdecl (lit "const") else some newdecl).map fun newdecl =>
            nameobjAdd x st pre name (some newdecl) newname)
        declaratorparms.length declaratorparms st

/-- The tables after the rule was added for the declarators. -/
def renamed (x : Texts) (st : Rules) (rpre : Option (List Byte)) (rname : List Byte) (id : ℕ) (D : DefaultParms)
    (const : Bool) : Rules :=
  (D.keys const).foldl (fun st d => nameobjAdd x st rpre rname (some d) id) (st.attach id)

variable {x : Texts} {names : ConstNames} {st : Rules} {pre : Option (List Byte)} {name : List Byte} {id : ℕ}
variable {D : DefaultParms} {const : Bool}

/-- The rule is added for the declarator and for those of the overloads. -/
theorem renameAdd_eq :
    renameAdd x names st pre name (some (D.key const 0)) id D.parms =
      some (renamed x st pre name id D const) := by
  have hstep (ps : List Parm) (st : Rules) :
      ((popFunction (D.key const 0)).bind fun f =>
        (if isconst names.const (D.key const 0) then addQualifier (addFunction f.2 (types ps)) (lit "const")
          else some (addFunction f.2 (types ps))).map fun newdecl => nameobjAdd x st pre name (some newdecl) id) =
        pure (nameobjAdd x st pre name (some (declarator const [] (types ps))) id) := by
    rw [DefaultParms.key, popFunction_declarator (D.isType_dropped 0) (by simp), Option.bind_some, isconst_declarator,
      addQualifier_function]
    rfl
  rw [renameAdd]
  dsimp only
  rw [DefaultParms.parms, shortenLoop_append D.plain_value D.defaulted_value]
  simp only [hstep]
  rw [List.foldlM_pure, renamed, D.keys_eq, List.foldl_cons, List.foldl_map]
  rfl

theorem nameobjAdd_hash (hlist : isListRule x pre name (st.obj id) = false) (d : Option (List Byte)) :
    nameobjAdd x st pre name d id =
      { st with hash := objectSet st.hash (targetName x pre name (st.obj id)) d id } := by
  rw [nameobjAdd, hlist]
  rfl

theorem nameobjAdd_list (hlist : isListRule x pre name (st.obj id) = true) (d : Option (List Byte)) :
    nameobjAdd x st pre name d id =
      { st with
        obj := Function.update st.obj id ((st.obj id).listed d (targetName x pre name (st.obj id)))
        list := id :: st.list } := by
  rw [nameobjAdd, hlist]
  rfl

/-! ### Rules of the hash -/

section Hash

variable {namehash : NameHash} {nname : List Byte} {ds : List (List Byte)} {d : List Byte}

/-- The hash after a rule was set for some declarators. -/
def setAll (namehash : NameHash) (nname : List Byte) (ds : List (List Byte)) (id : ℕ) : NameHash :=
  ds.foldl (fun namehash d => objectSet namehash nname (some d) id) namehash

theorem setAll_append (d : List Byte) :
    setAll namehash nname (ds ++ [d]) id = objectSet (setAll namehash nname ds id) nname (some d) id :=
  List.foldl_append

theorem nameObjectGet_setAll_mem (hd : d ∈ ds) (hstart : ∀ d ∈ ds, lit "start" ≠ d) :
    nameObjectGet (setAll namehash nname ds id) nname (some d) = some id := by
  induction ds using List.reverseRecOn with
  | nil => cases hd
  | append_singleton ds e ih =>
      rw [setAll_append]
      rcases eq_or_ne d e with rfl | hne
      · exact nameObjectGet_set_self ..
      · have hmem : d ∈ ds := by simpa [hne] using hd
        rw [nameObjectGet_set_decl hne (hstart e (by simp))]
        exact ih hmem fun d hd => hstart d (by simp [hd])

theorem nameObjectGet_setAll_name {tname : List Byte} (h : tname ≠ nname) (d : Option (List Byte)) :
    nameObjectGet (setAll namehash nname ds id) tname d = nameObjectGet namehash tname d := by
  induction ds using List.reverseRecOn with
  | nil => rfl
  | append_singleton ds e ih => rw [setAll_append, nameObjectGet_set_name h, ih]

theorem nameObjectGet_setAll_notMem (hd : d ∉ ds) (hstart : ∀ d ∈ ds, lit "start" ≠ d) (tname : List Byte) :
    nameObjectGet (setAll namehash nname ds id) tname (some d) = nameObjectGet namehash tname (some d) := by
  induction ds using List.reverseRecOn with
  | nil => rfl
  | append_singleton ds e ih =>
      have hne : d ≠ e := fun h => hd (by simp [h])
      rw [setAll_append, nameObjectGet_set_decl hne (hstart e (by simp))]
      exact ih (fun h => hd (by simp [h])) fun d hd => hstart d (by simp [hd])

/-- A rule that is not for the list goes to the hash with every declarator. -/
theorem foldl_nameobjAdd_hash (hlist : isListRule x pre name (st.obj id) = false) :
    ds.foldl (fun st d => nameobjAdd x st pre name (some d) id) st =
      { st with hash := setAll st.hash (targetName x pre name (st.obj id)) ds id } := by
  induction ds using List.reverseRecOn with
  | nil => rfl
  | append_singleton ds d ih =>
      rw [List.foldl_append, ih, setAll_append, List.foldl_cons, List.foldl_nil]
      refine nameobjAdd_hash ?_ (some d)
      exact hlist

end Hash

/-! ### Rules of the list -/

/-- A rule of the list is there once for each declarator, and has the last one. -/
theorem foldl_nameobjAdd_list (hlist : isListRule x pre name (st.obj id) = true) (ds : List (List Byte))
    (d : List Byte) :
    (ds ++ [d]).foldl (fun st d => nameobjAdd x st pre name (some d) id) st =
      { st with
        obj := Function.update st.obj id ((st.obj id).listed (some d) (targetName x pre name (st.obj id)))
        list := List.replicate (ds.length + 1) id ++ st.list } := by
  induction ds using List.reverseRecOn generalizing d with
  | nil =>
      rw [List.nil_append, List.foldl_cons, List.foldl_nil, nameobjAdd_list hlist]
      rfl
  | append_singleton ds e ih =>
      have hobj (l : List ℕ) : ({ st with
          obj := Function.update st.obj id ((st.obj id).listed (some e) (targetName x pre name (st.obj id)))
          list := l } : Rules).obj id = (st.obj id).listed (some e) (targetName x pre name (st.obj id)) :=
        Function.update_self ..
      rw [List.foldl_append, ih, List.foldl_cons, List.foldl_nil,
        nameobjAdd_list (by rw [hobj, isListRule_listed]; exact hlist), hobj, targetName_listed, listed_listed]
      simp [List.replicate_succ]

/-! ### Looking the rule up -/

/-- A rule that is in neither table. -/
structure Fresh (st : Rules) (id : ℕ) : Prop where
  hash : ∀ tname d, nameObjectGet st.hash tname d ≠ some id
  list : id ∉ st.list

/-- A rule is found for a declaration, in the hash or in the list. -/
def Found (x : Texts) (st : Rules) (n : Option Obj) (pre : Option (List Byte)) (name decl : List Byte) (id : ℕ) : Prop :=
  objectGet st.hash pre name (some decl) = some id ∨ nameobjLget x st n pre name (some decl) = some id

/-- The rule `id` is for the name `name` in `pre`: where it goes to the hash, the name it is
kept under is asked for, and no other name that is asked for has a rule for the
declarators; where it goes to the list, its conditions hold for the nodes. -/
def RuleFor (x : Texts) (st : Rules) (id : ℕ) (rpre : Option (List Byte)) (rname : List Byte) (pre : Option (List Byte))
    (name : List Byte) (decls : List (List Byte)) (node : List Byte → Option Obj) : Prop :=
  let o := attachKeys renameKeys (st.obj id)
  let nname := targetName x rpre rname o
  if isListRule x rpre rname o then
    ∀ d ∈ decls, matchSource x (o.listed none nname) (node d) pre name = true
  else
    nname ∈ objectNames pre name ∧
      ∀ tname ∈ objectNames pre name, tname ≠ nname → ∀ d ∈ decls, nameObjectGet st.hash tname (some d) = none

theorem key_ne_start (i : ℕ) : lit "start" ≠ D.key const i := by
  have hf : chr 's' ≠ chr 'f' := by decide
  have hq : chr 's' ≠ chr 'q' := by decide
  cases const with
  | false => exact fun h => hf (List.cons.inj h).1
  | true => exact fun h => hq (List.cons.inj h).1

theorem keys_ne_start : ∀ d ∈ D.keys const, lit "start" ≠ d := by
  intro d hd
  obtain ⟨i, -, rfl⟩ := D.mem_keys.mp hd
  exact key_ne_start i

theorem attach_obj_of_ne {i : ℕ} (h : i ≠ id) : (st.attach id).obj i = st.obj i := Function.update_of_ne h ..

theorem attach_obj_self (st : Rules) (id : ℕ) : (st.attach id).obj id = attachKeys renameKeys (st.obj id) :=
  Function.update_self ..

/-- A list that holds no fresh rule is searched as before. -/
theorem find?_congr_of_notMem {p q : ℕ → Bool} {l : List ℕ} (hid : id ∉ l) (h : ∀ i ≠ id, p i = q i) :
    l.find? p = l.find? q := by
  induction l with
  | nil => rfl
  | cons i l ih =>
      have hi : i ≠ id := fun h => hid (by simp [h])
      rw [List.find?_cons, List.find?_cons, h i hi, ih fun h => hid (List.mem_cons_of_mem _ h)]

theorem find?_replicate_append {p q : ℕ → Bool} {l : List ℕ} (n : ℕ) (hp : p id = false) (hid : id ∉ l)
    (h : ∀ i ≠ id, p i = q i) : (List.replicate n id ++ l).find? p = l.find? q := by
  induction n with
  | zero => exact find?_congr_of_notMem hid h
  | succ n ih => rw [List.replicate_succ, List.cons_append, List.find?_cons_of_neg (by simp [hp]), ih]

section Rename

variable {rpre : Option (List Byte)} {rname : List Byte} {node : List Byte → Option Obj}

theorem renamed_hash (hlist : isListRule x rpre rname (attachKeys renameKeys (st.obj id)) = false) :
    renamed x st rpre rname id D const =
      { obj := (st.attach id).obj
        hash := setAll st.hash (targetName x rpre rname (attachKeys renameKeys (st.obj id))) (D.keys const) id
        list := st.list } := by
  rw [← attach_obj_self] at hlist ⊢
  exact foldl_nameobjAdd_hash hlist

theorem renamed_list (hlist : isListRule x rpre rname (attachKeys renameKeys (st.obj id)) = true) :
    renamed x st rpre rname id D const =
      { obj := Function.update st.obj id ((attachKeys renameKeys (st.obj id)).listed
          (some (D.key const D.defaulted.length)) (targetName x rpre rname (attachKeys renameKeys (st.obj id))))
        hash := st.hash
        list := List.replicate (D.defaulted.length + 1) id ++ st.list } := by
  have hkeys : D.keys const =
      (List.range D.defaulted.length).map (D.key const) ++ [D.key const D.defaulted.length] := by
    rw [DefaultParms.keys, List.range_succ, List.map_append, List.map_singleton]
  rw [← attach_obj_self] at hlist ⊢
  rw [renamed, hkeys, foldl_nameobjAdd_list hlist, List.length_map, List.length_range, Rules.attach,
    Function.update_idem]

/-- A rule that goes to the hash is found for every overload. -/
theorem found_hash (hlist : isListRule x rpre rname (attachKeys renameKeys (st.obj id)) = false)
    (hfor : RuleFor x st id rpre rname pre name (D.keys const) node) {d : List Byte} (hd : d ∈ D.keys const) :
    Found x (renamed x st rpre rname id D const) (node d) pre name d id := by
  rw [RuleFor] at hfor
  rw [if_neg (by simp [hlist])] at hfor
  obtain ⟨hmem, hothers⟩ := hfor
  have hself : nameObjectGet
      (setAll st.hash (targetName x rpre rname (attachKeys renameKeys (st.obj id))) (D.keys const) id)
      (targetName x rpre rname (attachKeys renameKeys (st.obj id))) (some d) = some id :=
    nameObjectGet_setAll_mem hd keys_ne_start
  refine .inl ?_
  rw [renamed_hash hlist, objectGet]
  refine findSome?_eq_some_of_forall (fun tname htname => ?_) ⟨_, hmem, hself⟩
  rcases eq_or_ne tname (targetName x rpre rname (attachKeys renameKeys (st.obj id))) with rfl | hne
  · exact .inr hself
  · exact .inl ((nameObjectGet_setAll_name hne (some d)).trans (hothers tname htname hne d hd))

/-- A rule that goes to the list is found for the last overload. -/
theorem found_list (hlist : isListRule x rpre rname (attachKeys renameKeys (st.obj id)) = true)
    (hfor : RuleFor x st id rpre rname pre name (D.keys const) node) :
    Found x (renamed x st rpre rname id D const) (node (D.key const D.defaulted.length)) pre name
      (D.key const D.defaulted.length) id := by
  rw [RuleFor] at hfor
  rw [if_pos hlist] at hfor
  refine .inr ?_
  rw [renamed_list hlist, nameobjLget]
  dsimp only
  rw [List.replicate_succ, List.cons_append, List.find?_cons_of_pos]
  rw [Function.update_self, matchDecl_listed, matchSource_listed, hfor _ (D.mem_keys.mpr ⟨_, le_rfl, rfl⟩)]
  simp

/-- For any other declarator everything is found as it was before the rule. -/
theorem renamed_other (hfresh : Fresh st id) {d : List Byte} (hd : d ∉ D.keys const) (n : Option Obj) :
    objectGet (renamed x st rpre rname id D const).hash pre name (some d) = objectGet st.hash pre name (some d) ∧
      nameobjLget x (renamed x st rpre rname id D const) n pre name (some d) =
        nameobjLget x st n pre name (some d) := by
  cases hlist : isListRule x rpre rname (attachKeys renameKeys (st.obj id)) with
  | false =>
      rw [renamed_hash hlist]
      refine ⟨objectGet_congr fun tname => nameObjectGet_setAll_notMem hd keys_ne_start tname, ?_⟩
      refine find?_congr_of_notMem hfresh.list fun i hi => ?_
      simp only [attach_obj_of_ne hi]
  | true =>
      rw [renamed_list hlist]
      refine ⟨rfl, ?_⟩
      have hne : d ≠ D.key const D.defaulted.length := fun h => hd (D.mem_keys.mpr ⟨_, le_rfl, h⟩)
      refine find?_replicate_append _ ?_ hfresh.list fun i hi => ?_
      · dsimp only
        rw [Function.update_self, matchDecl_listed]
        simp [hne]
      · dsimp only
        rw [Function.update_of_ne hi]

/-- A rule that goes to the list is not found for an overload before the last one. -/
theorem not_found_list (hlist : isListRule x rpre rname (attachKeys renameKeys (st.obj id)) = true)
    (hfresh : Fresh st id) {d : List Byte} (hd : d ≠ D.key const D.defaulted.length) (n : Option Obj) :
    ¬ Found x (renamed x st rpre rname id D const) n pre name d id := by
  rw [renamed_list hlist]
  rintro (hfound | hfound)
  · obtain ⟨tname, -, hget⟩ := List.exists_of_findSome?_eq_some hfound
    exact hfresh.hash tname (some d) hget
  · have hmatch := List.find?_some hfound
    dsimp only at hmatch
    rw [Function.update_self, matchDecl_listed] at hmatch
    simp [hd] at hmatch

/-- The rule is found for the function and for all its overloads exactly when it goes to
the hash or there are no overloads. -/
theorem found_iff (hfresh : Fresh st id) (hfor : RuleFor x st id rpre rname pre name (D.keys const) node) :
    (∀ d ∈ D.keys const, Found x (renamed x st rpre rname id D const) (node d) pre name d id) ↔
      isListRule x rpre rname (attachKeys renameKeys (st.obj id)) = false ∨ D.defaulted.length = 0 := by
  cases hlist : isListRule x rpre rname (attachKeys renameKeys (st.obj id)) with
  | false => exact ⟨fun _ => .inl rfl, fun _ d hd => found_hash hlist hfor hd⟩
  | true =>
      refine ⟨fun h => .inr ?_, fun h d hd => ?_⟩
      · by_contra hpos
        have hne : D.key const 0 ≠ D.key const D.defaulted.length := fun heq =>
          hpos (D.key_injective (Nat.zero_le _) le_rfl heq).symm
        exact not_found_list hlist hfresh hne _ (h _ (D.mem_keys.mpr ⟨0, Nat.zero_le _, rfl⟩))
      · obtain ⟨i, hi, rfl⟩ := D.mem_keys.mp hd
        obtain rfl : i = D.defaulted.length := by
          obtain hzero | hzero := h
          · cases hzero
          · omega
        exact found_list hlist hfor

end Rename

end Swig.Naming
