import Swig.Typesys.Scopes

/-!
The rename and namewarn objects of `naming.c`. A rule stands in a hash, by a name and
a declarator, or in a list, where the rule itself carries the declarator it is for.
Rules are named by numbers: both tables refer to the one object.
-/

namespace Swig.Naming

open ByteBlock Swig.Typesys

/-! ### Scoped names -/

/-- The last `::` outside of angle brackets, `level` of which are open. -/
def lastSeparator : (pos level : ℕ) → List Byte → Option ℕ
  | _, _, [] => none
  | _, 0, [_] => none
  | pos, 0, c :: d :: cs =>
      if c = chr ':' ∧ d = chr ':' then (lastSeparator (pos + 2) 0 cs).or (some pos)
      else lastSeparator (pos + 1) (if c = chr '<' then 1 else 0) (d :: cs)
  | pos, level + 1, c :: cs =>
      lastSeparator (pos + 1) (if c = chr '<' then level + 2 else if c = chr '>' then level else level + 1) cs

/-- `Swig_scopename_split`. Before an operator stand the two bytes of a separator. -/
def scopenameSplit (s : List Byte) : Option (List Byte) × List Byte :=
  match indexOf (lit "operator ") s with
  | some 0 => (none, s)
  | some co => (some (s.take (co - 2)), s.drop co)
  | none =>
      match lastSeparator 0 0 s with
      | none | some 0 => (none, s)
      | some cc => (some (s.take cc), s.drop (cc + 2))

/-- `Swig_scopename_last`. -/
def scopenameLast (s : List Byte) : List Byte :=
  if indexOf (lit "::") s = none then s
  else
    match indexOf (lit "operator ") s with
    | some co => s.drop co
    -- without a separator outside of brackets the pointer is still at the start
    | none => s.drop ((lastSeparator 0 0 s).getD 0 + 2)

/-- `Swig_scopename_check`. -/
def scopenameCheck (s : List Byte) : Bool :=
  indexOf (lit "operator ") s != some 0 && (lastSeparator 0 0 s).isSome

/-- `SwigType_templateprefix`. -/
def templatePrefix (t : List Byte) : List Byte :=
  match indexOf (lit "<(") t with
  | none => t
  | some i => t.take i

/-! ### The hash of rules -/

/-- The rules of every name, by declarator; `start` stands for no declarator. -/
abbrev NameHash := List Byte → Option (List Byte → Option ℕ)

/-- `Swig_name_object_set`. -/
def objectSet (namehash : NameHash) (name : List Byte) (decl : Option (List Byte)) (object : ℕ) : NameHash :=
  Function.update namehash name
    (some (Function.update ((namehash name).getD fun _ => none) (decl.getD (lit "start")) (some object)))

/-- `get_object`. -/
def getObject (n : List Byte → Option ℕ) (decl : Option (List Byte)) : Option ℕ := n (decl.getD (lit "start"))

/-- `name_object_get`; its `ncdecl` is always null. -/
def nameObjectGet (namehash : NameHash) (tname : List Byte) (decl : Option (List Byte)) : Option ℕ :=
  (namehash tname).bind fun n => (getObject n decl).or (getObject n none)

/-- The names `Swig_name_object_get` asks for in this order; `root` are those of the call
for the root of a template-id. -/
def namesWith (pre : Option (List Byte)) (name : List Byte) (root : List (List Byte)) : List (List Byte) :=
  (match pre with
    | some pre =>
        (if pre = [] then []
        else
          let cls := scopenameLast pre
          (pre ++ lit "::" ++ name) :: (if cls = pre then [] else [lit "*::" ++ cls ++ lit "::" ++ name]) ++ root)
        ++ [lit "*::" ++ name]
    | none => [lit "::" ++ name])
  ++ name :: (if scopenameCheck name then [(scopenameSplit name).2] else [])

/-- The names for a name in a class. The root of a template-id is no template-id, so the
call for it makes no other. -/
def objectNames (pre : Option (List Byte)) (name : List Byte) : List (List Byte) :=
  namesWith pre name
    (if istemplate name ∧ templatePrefix name ≠ name then namesWith pre (templatePrefix name) [] else [])

/-- `Swig_name_object_get`. -/
def objectGet (namehash : NameHash) (pre : Option (List Byte)) (name : List Byte) (decl : Option (List Byte)) :
    Option ℕ :=
  (objectNames pre name).findSome? fun tname => nameObjectGet namehash tname decl

/-! ### Rules -/

/-- A value in the attributes of a node. -/
inductive Obj
  | str (s : List Byte)
  | hash (attr : List (List Byte × Obj))

/-- `Getattr`. -/
def Obj.getattr : Obj → List Byte → Option Obj
  | .str _, _ => none
  | .hash attr, name => attr.lookup name

/-- `Swig_get_lattr`. -/
def getLattr (n : Obj) : List (List Byte) → Option Obj
  | [] => none
  | [nattr] => n.getattr nattr
  | nattr :: lattr => (n.getattr nattr).bind fun n => getLattr n lattr

structure MatchItem where
  value : Option (List Byte)
  attrlist : List (List Byte)
  notmatch : Bool
  rxsmatch : Bool
  deriving DecidableEq

/-- A keyword argument of a directive. -/
structure Kw where
  name : Option (List Byte)
  value : Option (List Byte)

/-- The attributes of a rule that its functions use, and the keyword arguments behind it. -/
structure Nameobj where
  attr : List Byte → Option (List Byte)
  matchlist : Option (List MatchItem)
  kws : List Kw

/-- `GetFlag`. -/
def Nameobj.getFlag (o : Nameobj) (name : List Byte) : Bool := (o.attr name).any (· != lit "0")

/-- `Setattr`, which removes an attribute for a null pointer. -/
def Nameobj.setattr (o : Nameobj) (name : List Byte) (value : Option (List Byte)) : Nameobj :=
  { o with attr := Function.update o.attr name value }

/-- `Swig_make_attrlist`. -/
def makeAttrlist (ckey : List Byte) : List (List Byte) :=
  match ckey.dropWhile (· != chr '$') with
  | [] => [lit "nodeType"]
  | _ :: cattr => cattr.splitOn (chr '$')

/-- The condition a keyword argument adds to the match list. -/
def Kw.matchItem (kw : Kw) : Option MatchItem :=
  kw.name.bind fun ckey =>
    let item (notmatch rxsmatch : Bool) : MatchItem := ⟨kw.value, makeAttrlist ckey, notmatch, rxsmatch⟩
    if (lit "match").isPrefixOf ckey then some (item false false)
    else if (lit "notmatch").isPrefixOf ckey then some (item true false)
    else if (lit "rxsmatch").isPrefixOf ckey then some (item false true)
    else if (lit "notrxsmatch").isPrefixOf ckey then some (item true true)
    else none

/-- `Swig_name_object_attach_keys`. -/
def attachKeys (keys : List (List Byte)) (o : Nameobj) : Nameobj :=
  let isKey (kw : Kw) : Bool := kw.matchItem.isNone && kw.name.any (· ∈ keys)
  let matchlist := o.kws.filterMap Kw.matchItem
  let attached := (o.kws.filter isKey).foldl (fun o kw => o.setattr (kw.name.getD []) kw.value) o
  { attr := attached.attr
    matchlist := if matchlist = [] then o.matchlist else some matchlist
    kws := o.kws.filter fun kw => kw.matchItem.isNone && !isKey kw }

/-- `NewStringf` with one argument and `Swig_name_rxsmatch_value`. -/
structure Texts where
  newStringf : List Byte → List Byte → List Byte
  rxsmatchValue : Option (List Byte) → Obj → Bool

/-- `Swig_name_match_value`. -/
def matchValue (mvalue : Option (List Byte)) : Obj → Bool
  | .str value => mvalue == some value
  | .hash _ => false

/-- `Swig_name_match_nameobj`. -/
def matchNameobj (x : Texts) (rn : Nameobj) (n : Option Obj) : Bool :=
  (rn.matchlist.getD []).all fun mi =>
    let found :=
      match n.bind fun n => getLattr n mi.attrlist with
      | none => false
      | some nval => if mi.rxsmatch then x.rxsmatchValue mi.value nval else matchValue mi.value nval
    found != mi.notmatch

/-- The text `Swig_name_nameobj_lget` compares with the name of a rule. -/
def sourceName (x : Texts) (rn : Nameobj) (pre : Option (List Byte)) (name : List Byte) : List Byte :=
  let full :=
    match pre with
    | some pre => if rn.getFlag (lit "fullname") then pre ++ lit "::" ++ name else name
    | none => name
  match rn.attr (lit "sourcefmt") with
  | some sfmt => x.newStringf sfmt full
  | none => full

/-- What `Swig_name_nameobj_lget` asks of a rule besides its declarator. -/
def matchSource (x : Texts) (rn : Nameobj) (n : Option Obj) (pre : Option (List Byte)) (name : List Byte) : Bool :=
  matchNameobj x rn n &&
    match rn.attr (lit "targetname") with
    | none => true
    | some tname =>
        let sname := Obj.str (sourceName x rn pre name)
        if rn.getFlag (lit "rxstarget") then x.rxsmatchValue (some tname) sname else matchValue (some tname) sname

/-- A rule with a declarator is for that declarator only. -/
def matchDecl (rn : Nameobj) (decl : Option (List Byte)) : Bool :=
  (rn.attr (lit "decl")).all fun rdecl => decl == some rdecl

/-- The rules, and where they are. -/
structure Rules where
  obj : ℕ → Nameobj
  hash : NameHash
  list : List ℕ

/-- `Swig_name_nameobj_lget`. -/
def nameobjLget (x : Texts) (st : Rules) (n : Option Obj) (pre : Option (List Byte)) (name : List Byte)
    (decl : Option (List Byte)) : Option ℕ :=
  st.list.find? fun rn => matchDecl (st.obj rn) decl && matchSource x (st.obj rn) n pre name

/-- The name a rule is kept under; nothing for a rule without a name. -/
def targetName (x : Texts) (pre : Option (List Byte)) (name : List Byte) (o : Nameobj) : List Byte :=
  if name = [] then []
  else
    let nname := pre.elim name fun pre => pre ++ lit "::" ++ name
    (o.attr (lit "targetfmt")).elim nname fun target_fmt => x.newStringf target_fmt nname

/-- The rule goes to the list. -/
def isListRule (x : Texts) (pre : Option (List Byte)) (name : List Byte) (o : Nameobj) : Bool :=
  targetName x pre name o = [] || (o.attr (lit "fullname")).isSome || (o.attr (lit "sourcefmt")).isSome ||
    o.matchlist.isSome

/-- The attributes a rule of the list is given. -/
def Nameobj.listed (o : Nameobj) (decl : Option (List Byte)) (nname : List Byte) : Nameobj :=
  let o := if decl.isSome then o.setattr (lit "decl") decl else o
  if nname = [] then o else o.setattr (lit "targetname") (some nname)

/-- `Swig_name_nameobj_add`. -/
def nameobjAdd (x : Texts) (st : Rules) (pre : Option (List Byte)) (name : List Byte) (decl : Option (List Byte))
    (id : ℕ) : Rules :=
  let nname := targetName x pre name (st.obj id)
  if isListRule x pre name (st.obj id) then
    { st with obj := Function.update st.obj id ((st.obj id).listed decl nname), list := id :: st.list }
  else { st with hash := objectSet st.hash nname decl id }

/-! ### Looking a rule up -/

variable {namehash : NameHash} {nname tname name : List Byte} {pre : Option (List Byte)} {decl decl' : List Byte}
variable {id : ℕ} {x : Texts} {o : Nameobj}

theorem findSome?_eq_some_of_forall {α β : Type} {f : α → Option β} {l : List α} {b : β}
    (hall : ∀ a ∈ l, f a = none ∨ f a = some b) (hex : ∃ a ∈ l, f a = some b) : l.findSome? f = some b := by
  obtain ⟨a, ha, hfa⟩ := hex
  cases hfind : l.findSome? f with
  | none =>
      rw [List.findSome?_eq_none_iff.mp hfind a ha] at hfa
      cases hfa
  | some c =>
      obtain ⟨a', ha', hc⟩ := List.exists_of_findSome?_eq_some hfind
      obtain hnone | hsome := hall a' ha'
      · rw [hnone] at hc
        cases hc
      · rw [← hc, hsome]

theorem nameObjectGet_set_self (namehash : NameHash) (nname decl : List Byte) (id : ℕ) :
    nameObjectGet (objectSet namehash nname (some decl) id) nname (some decl) = some id := by
  simp [nameObjectGet, objectSet, getObject]

theorem nameObjectGet_set_name (h : tname ≠ nname) (decl : List Byte) (id : ℕ) (d : Option (List Byte)) :
    nameObjectGet (objectSet namehash nname (some decl) id) tname d = nameObjectGet namehash tname d := by
  simp [nameObjectGet, objectSet, Function.update_of_ne h]

/-- A rule for one declarator does not show for another one. -/
theorem nameObjectGet_set_decl (h : decl' ≠ decl) (hstart : lit "start" ≠ decl) (tname : List Byte) :
    nameObjectGet (objectSet namehash nname (some decl) id) tname (some decl') =
      nameObjectGet namehash tname (some decl') := by
  rcases eq_or_ne tname nname with rfl | hname
  · cases hn : namehash tname <;>
      simp [nameObjectGet, objectSet, getObject, hn, Function.update_of_ne h, Function.update_of_ne hstart]
  · exact nameObjectGet_set_name hname decl id (some decl')

theorem objectGet_congr {namehash' : NameHash} {d : Option (List Byte)}
    (h : ∀ tname, nameObjectGet namehash' tname d = nameObjectGet namehash tname d) :
    objectGet namehash' pre name d = objectGet namehash pre name d := by
  rw [objectGet, objectGet, funext h]

/-- The call for the root of a template-id makes no other call. -/
theorem istemplate_templatePrefix (t : List Byte) : istemplate (templatePrefix t) = false := by
  have hnone : indexOf (lit "<(") (templatePrefix t) = none := by
    rw [templatePrefix]
    cases hi : indexOf (lit "<(") t with
    | none => exact hi
    | some i =>
        dsimp only
        obtain ⟨-, hbefore⟩ := (indexOf_spec _ _).1 i hi
        refine Option.eq_none_iff_forall_ne_some.mpr fun j hj => ?_
        -- an earlier bracket would be the first one of the whole name
        have hlt : j < i := by
          have hle := indexOf_le hj
          rw [List.length_take, show (lit "<(").length = 2 from rfl] at hle
          omega
        have hoccurs := ((indexOf_spec _ _).1 j hj).1
        exact hbefore j hlt (hoccurs.trans ((List.take_prefix i t).drop j))
  rw [istemplate, hnone]

/-! ### What the list keeps of a rule -/

@[simp] theorem setattr_attr_self (o : Nameobj) (name : List Byte) (value : Option (List Byte)) :
    (o.setattr name value).attr name = value := Function.update_self ..

@[simp] theorem setattr_attr_of_ne {n : List Byte} (h : n ≠ name) (o : Nameobj) (value : Option (List Byte)) :
    (o.setattr name value).attr n = o.attr n := Function.update_of_ne h ..

@[simp] theorem setattr_matchlist (o : Nameobj) (name : List Byte) (value : Option (List Byte)) :
    (o.setattr name value).matchlist = o.matchlist := rfl

theorem listed_attr {n : List Byte} (hdecl : n ≠ lit "decl") (htarget : n ≠ lit "targetname") (o : Nameobj)
    (decl : Option (List Byte)) (nname : List Byte) : (o.listed decl nname).attr n = o.attr n := by
  rw [Nameobj.listed]
  split_ifs <;> simp [hdecl, htarget]

theorem listed_targetname (o : Nameobj) (decl : Option (List Byte)) (nname : List Byte) :
    (o.listed decl nname).attr (lit "targetname") =
      if nname = [] then o.attr (lit "targetname") else some nname := by
  have hne : lit "targetname" ≠ lit "decl" := by decide
  rw [Nameobj.listed]
  split_ifs <;> simp [hne]

theorem listed_decl (o : Nameobj) (decl nname : List Byte) :
    (o.listed (some decl) nname).attr (lit "decl") = some decl := by
  have hne : lit "decl" ≠ lit "targetname" := by decide
  rw [Nameobj.listed]
  split_ifs <;> simp_all

theorem listed_matchlist (o : Nameobj) (decl : Option (List Byte)) (nname : List Byte) :
    (o.listed decl nname).matchlist = o.matchlist := by
  rw [Nameobj.listed]
  split_ifs <;> rfl

/-- The last declarator a rule is listed with is the one it has. -/
theorem listed_listed (o : Nameobj) (decl decl' nname : List Byte) :
    (o.listed (some decl) nname).listed (some decl') nname = o.listed (some decl') nname := by
  have hne : lit "targetname" ≠ lit "decl" := by decide
  by_cases hn : nname = []
  · simp [Nameobj.listed, Nameobj.setattr, hn]
  · simp [Nameobj.listed, Nameobj.setattr, hn, Function.update_comm hne]

theorem targetName_listed (d : Option (List Byte)) :
    targetName x pre name (o.listed d nname) = targetName x pre name o := by
  rw [targetName, targetName, listed_attr (by decide) (by decide)]

theorem isListRule_listed (d : Option (List Byte)) :
    isListRule x pre name (o.listed d nname) = isListRule x pre name o := by
  rw [isListRule, isListRule, targetName_listed, listed_attr (by decide) (by decide),
    listed_attr (by decide) (by decide), listed_matchlist]

theorem listed_getFlag {n : List Byte} (hdecl : n ≠ lit "decl") (htarget : n ≠ lit "targetname") (o : Nameobj)
    (decl : Option (List Byte)) (nname : List Byte) : (o.listed decl nname).getFlag n = o.getFlag n := by
  rw [Nameobj.getFlag, Nameobj.getFlag, listed_attr hdecl htarget]

theorem sourceName_listed (d : Option (List Byte)) :
    sourceName x (o.listed d nname) pre name = sourceName x o pre name := by
  have hfull := listed_getFlag (n := lit "fullname") (by decide) (by decide) o d nname
  have hfmt := listed_attr (n := lit "sourcefmt") (by decide) (by decide) o d nname
  simp only [sourceName, hfull, hfmt]

/-- Whether a rule is for a name does not depend on its declarator. -/
theorem matchSource_listed (d : Option (List Byte)) (n : Option Obj) (pre : Option (List Byte)) :
    matchSource x (o.listed d nname) n pre name = matchSource x (o.listed none nname) n pre name := by
  have hflag := listed_getFlag (n := lit "rxstarget") (by decide) (by decide) o
  simp only [matchSource, matchNameobj, listed_matchlist, sourceName_listed, listed_targetname, hflag]

theorem matchDecl_listed (d : Option (List Byte)) :
    matchDecl (o.listed (some decl) nname) d = (d == some decl) := by
  rw [matchDecl, listed_decl, Option.all_some]

end Swig.Naming
