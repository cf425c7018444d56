import Swig.DOH.CType
import Swig.Lib.CircularList
import Mathlib.Logic.Function.Basic

/-!
The run-time type table of the generated wrappers: the static type, cast and
module structures, the lookups over them and `SWIG_InitializeModule`.

A module `m` brings the type structures `(m, 0), (m, 1), …` of its
`swig_type_initial` array and the cast structures `(m, i, 0), (m, i, 1), …` of
row `i` of its `swig_cast_initial` array. They are static, so they are told
apart by these indices; pointers between them are `Option`s of them.

Functions with a loop over pointers take the number of rounds allowed; they
return `none` when it does not suffice or when a null pointer is followed.
-/

namespace Swig.Runtime

abbrev Name := List Byte

abbrev TypeRef (M : Type) := M × ℕ

abbrev CastRef (M : Type) := M × ℕ × ℕ

structure SwigTypeInfo (M : Type) where
  name : Name
  str : Option Name
  cast : Option (CastRef M)
  clientdata : Option ℕ

structure SwigCastInfo (M : Type) where
  type : TypeRef M
  converter : Option ℕ
  next : Option (CastRef M)
  prev : Option (CastRef M)

/-- `types` holds what `SWIG_InitializeModule` has stored in the array so far;
`castInitial` lists the number of casts of each row. -/
structure SwigModuleInfo (M : Type) where
  types : List (TypeRef M)
  next : Option M
  castInitial : List ℕ

/-- `size`, the number of entries of `type_initial`. -/
def SwigModuleInfo.size {M : Type} (m : SwigModuleInfo M) : ℕ := m.castInitial.length

/-- All structures, and the module head kept by each interpreter. -/
structure State (M I : Type) where
  types : TypeRef M → SwigTypeInfo M
  casts : CastRef M → SwigCastInfo M
  modules : M → SwigModuleInfo M
  head : I → Option M

namespace State

variable {M I : Type} [DecidableEq M] (st : State M I)

def setType (t : TypeRef M) (v : SwigTypeInfo M) : State M I :=
  { st with types := Function.update st.types t v }

def setCast (c : CastRef M) (v : SwigCastInfo M) : State M I :=
  { st with casts := Function.update st.casts c v }

def setModule (m : M) (v : SwigModuleInfo M) : State M I :=
  { st with modules := Function.update st.modules m v }

/-- `SWIG_SetModule`. -/
def setHead [DecidableEq I] (i : I) (m : M) : State M I :=
  { st with head := Function.update st.head i (some m) }

/-- `m->next = v`. -/
def setModuleNext (m : M) (v : Option M) : State M I :=
  st.setModule m { st.modules m with next := v }

/-- `ty->cast = v`. -/
def setTypeCast (ty : TypeRef M) (v : Option (CastRef M)) : State M I :=
  st.setType ty { st.types ty with cast := v }

/-- `c->next = v`. -/
def setCastNext (c : CastRef M) (v : Option (CastRef M)) : State M I :=
  st.setCast c { st.casts c with next := v }

/-- `c->prev = v`. -/
def setCastPrev (c : CastRef M) (v : Option (CastRef M)) : State M I :=
  st.setCast c { st.casts c with prev := v }

/-- `c->type = v`. -/
def setCastType (c : CastRef M) (v : TypeRef M) : State M I :=
  st.setCast c { st.casts c with type := v }

def moduleNext (m : M) : Option M := (st.modules m).next

/-! ### Lookups -/

/-- The binary search of `SWIG_MangledTypeQueryModule` between `l` and `r`;
`none` when it reads an entry that is not filled in. -/
def searchTypes (name : Name) (types : List (TypeRef M)) :
    ℕ → ℕ → ℕ → Option (Option (TypeRef M))
  | 0, _, _ => some none
  | n + 1, l, r =>
      let i := (l + r) / 2
      match types[i]? with
      | none => none
      | some t =>
          match strcmp name (st.types t).name with
          | .eq => some (some t)
          | .lt =>
              if i = 0 then some none
              else if l ≤ i - 1 then searchTypes name types n l (i - 1) else some none
          | .gt => if i + 1 ≤ r then searchTypes name types n (i + 1) r else some none

/-- The search in one module. Every round shrinks the interval, so `size`
rounds are enough. -/
def searchModule (name : Name) (m : M) : Option (Option (TypeRef M)) :=
  let size := (st.modules m).size
  if size = 0 then some none
  else st.searchTypes name (st.modules m).types size 0 (size - 1)

/-- `SWIG_MangledTypeQueryModule`. -/
def mangledTypeQueryModule (fuel : ℕ) (start stop : M) (name : Name) :
    Option (Option (TypeRef M)) :=
  (CircularList.walk st.moduleNext (fun m =>
    match st.searchModule name m with
    | none => some none
    | some none => none
    | some (some t) => some (some (some t))) stop fuel start).bind fun
      | none => some none
      | some r => r

/-- Move `iter` to the top of the cast list of `ty`. -/
def moveToTop (ty : TypeRef M) (iter : CastRef M) : Option (State M I) :=
  match (st.casts iter).prev with
  | none => none
  | some p =>
      let st := st.setCastNext p (st.casts iter).next
      let st := match (st.casts iter).next with
        | none => st
        | some n => st.setCastPrev n (st.casts iter).prev
      let st := st.setCastNext iter (st.types ty).cast
      let st := st.setCastPrev iter none
      let st := match (st.types ty).cast with
        | none => st
        | some c => st.setCastPrev c (some iter)
      some (st.setTypeCast ty (some iter))

/-- The loop shared by `SWIG_TypeCheck` and `SWIG_TypeCheckStruct`: look for an
entry whose type passes `test`, and move it to the top of the list. -/
def typeCheckLoop (test : State M I → TypeRef M → Bool) (ty : TypeRef M) :
    ℕ → Option (CastRef M) → State M I → Option (Option (CastRef M) × State M I)
  | 0, _, _ => none
  | _ + 1, none, st => some (none, st)
  | n + 1, some iter, st =>
      if test st (st.casts iter).type then
        if some iter = (st.types ty).cast then some (some iter, st)
        else (st.moveToTop ty iter).map fun st => (some iter, st)
      else typeCheckLoop test ty n (st.casts iter).next st

/-- `SWIG_TypeCheck`. -/
def typeCheck (fuel : ℕ) (c : Name) (ty : TypeRef M) : Option (Option (CastRef M) × State M I) :=
  typeCheckLoop (fun st t => strcmp (st.types t).name c == .eq) ty fuel (st.types ty).cast st

/-- `SWIG_TypeCheckStruct`. -/
def typeCheckStruct (fuel : ℕ) (frm ty : TypeRef M) :
    Option (Option (CastRef M) × State M I) :=
  typeCheckLoop (fun _ t => t == frm) ty fuel (st.types ty).cast st

/-! ### Loading a module -/

/-- The first half of `SWIG_InitializeModule(clientdata)`, for the module `m`
and the interpreter `i`: set the circular list up and link `m` in. The flag
says whether the type table has to be filled in. -/
def linkModule [DecidableEq I] (fuel : ℕ) (i : I) (m : M) : Option (State M I × Bool) :=
  let init := (st.moduleNext m).isNone
  let st := if init then st.setModuleNext m (some m) else st
  match st.head i with
  | none => some (st.setHead i m, init)
  | some moduleHead =>
      (CircularList.walk st.moduleNext (fun iter => if iter = m then some () else none)
        moduleHead fuel moduleHead).map fun
        | some () => (st, false)
        | none =>
            let st := st.setModuleNext m (st.moduleNext moduleHead)
            (st.setModuleNext moduleHead (some m), init)

/-- Look a name up in the other modules of the list, if there are any. -/
def queryOthers (fuel : ℕ) (m : M) (name : Name) : Option (Option (TypeRef M)) :=
  match st.moduleNext m with
  | none => none
  | some n => if n = m then some none else st.mangledTypeQueryModule fuel n m name

/-- Put `cast` on top of the cast list of `type`. -/
def addCast (type : TypeRef M) (cast : CastRef M) : State M I :=
  let st := match (st.types type).cast with
    | none => st
    | some c => (st.setCastPrev c (some cast)).setCastNext cast (some c)
  st.setTypeCast type (some cast)

/-- The cast loop of `SWIG_InitializeModule` for entry `j` of row `i`. -/
def linkCast (fuel : ℕ) (m : M) (i : ℕ) (type : TypeRef M) (st : State M I) (j : ℕ) :
    Option (State M I) :=
  let cast : CastRef M := (m, i, j)
  (st.queryOthers fuel m (st.types (st.casts cast).type).name).bind fun
    | none => some (st.addCast type cast)
    | some ret =>
        if type = (m, i) then some ((st.setCastType cast ret).addCast type cast)
        else
          (st.typeCheck fuel (st.types ret).name type).map fun
            | (none, st) => st.addCast type cast
            | (some _, st) => st

/-- Entry `i` of the type loop: find or adopt the type, then link its casts. -/
def linkType (fuel : ℕ) (m : M) (st : State M I) (i : ℕ) : Option (State M I) :=
  (st.queryOthers fuel m (st.types (m, i)).name).bind fun found =>
    let type := found.getD (m, i)
    let st := match found, (st.types (m, i)).clientdata with
      | some t, some d => st.setType t { st.types t with clientdata := some d }
      | _, _ => st
    ((List.range ((st.modules m).castInitial.getD i 0)).foldlM (linkCast fuel m i type) st).map
      fun st => st.setModule m
        { st.modules m with types := (st.modules m).types ++ [type] }

/-- `SWIG_InitializeModule` of module `m` in interpreter `i`. -/
def initializeModule [DecidableEq I] (fuel : ℕ) (i : I) (m : M) : Option (State M I) :=
  (st.linkModule fuel i m).bind fun (st, init) =>
    if init then (List.range (st.modules m).size).foldlM (linkType fuel m) st else some st

end State

/-! ### The tables before any load -/

/-- A generated `swig_type_info` with its row of `swig_cast_initial`: each cast
names the entry of the same table it refers to, and a converter. -/
structure StaticType where
  name : Name
  str : Option Name
  clientdata : Option ℕ
  row : List (ℕ × Option ℕ)

/-- The generated tables of one module. -/
abbrev StaticModule := List StaticType

/-- The structures as the C compiler lays them out: no module is linked, no
cast list is built and no interpreter has a module head. -/
def State.initial {M I : Type} (tab : M → StaticModule) : State M I where
  types := fun (m, k) =>
    { name := ((tab m)[k]?.map StaticType.name).getD []
      str := (tab m)[k]?.bind StaticType.str
      cast := none
      clientdata := (tab m)[k]?.bind StaticType.clientdata }
  casts := fun (m, i, j) =>
    let entry := ((tab m)[i]?.bind fun t => t.row[j]?).getD (0, none)
    { type := (m, entry.1), converter := entry.2, next := none, prev := none }
  modules := fun m =>
    { types := [], next := none, castInitial := (tab m).map fun t => t.row.length }
  head := fun _ => none

/-- A sequence of `SWIG_InitializeModule` calls, each of which returns. -/
inductive Run {M I : Type} [DecidableEq M] [DecidableEq I] (st₀ : State M I) :
    List (I × M) → State M I → Prop
  | nil : Run st₀ [] st₀
  | snoc {loads : List (I × M)} {st st' : State M I} {i : I} {m : M} (fuel : ℕ) :
      Run st₀ loads st → st.initializeModule fuel i m = some st' →
      Run st₀ (loads ++ [(i, m)]) st'

end Swig.Runtime
