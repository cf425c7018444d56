import Swig.Typesys.Remember

/-!
The type table that is written into the wrapper file: `SwigType_emit_type_table`
and the functions it calls. A line of output is kept as the names it is made of.
-/

namespace Swig.Typesys

open Swig.DOH Swig.Runtime

/-! ### Equivalent names -/

/-- `SwigType_equivalent_mangle`, at most `fuel` calls deep, on the names
`checked` and `found` so far. -/
def equivalentMangle (T : Tables) :
    ℕ → Name → StringTable Name × StringTable Name → Option (StringTable Name × StringTable Name)
  | 0, _, _ => none
  | fuel + 1, ms, (ch, h) =>
      if (ch.get ms).isSome then some (ch, h)
      else
        let h := h.set ms (lit "1")
        let ch := ch.set ms (lit "1")
        match T.r_mangled.get ms with
        | none => some (ch, h)
        | some mh =>
            mh.keys.foldlM (fun (ch, h) ki =>
              if (ch.get ki).isSome then some (ch, h)
              else
                let ch := ch.set ki (lit "1")
                match T.r_resolved.get ki with
                | none => some (ch, h)
                | some rh =>
                    rh.keys.foldlM (fun (ch, h) rk =>
                      equivalentMangle T fuel rk (ch, h.set rk (lit "1"))) (ch, h)) (ch, h)

/-- The mangled names that calls can come to from other names. -/
def Tables.resolvedNames (T : Tables) : List Name := T.r_resolved.items.flatMap fun e => e.2.keys

/-- The list of `SwigType_equivalent_mangle(ms, 0, 0)`. A call that goes on has
checked one more name. -/
def equivalents (T : Tables) (ms : Name) : Option (List Name) := do
  let (_, h) ← equivalentMangle T (T.resolvedNames.length + 2) ms (.new, .new)
  return h.keys

/-- `SwigType_clientdata_collect`. -/
def clientdataCollect (T : Tables) (ms : Name) : Option Name :=
  match T.r_mangleddata.get ms with
  | some clientdata => some clientdata
  | none => ((T.r_mangled.get ms).getD .new).keys.findSome? T.r_clientdata.get

/-! ### Inheritance -/

/-- What a conversion function returns: the code given for it, or a cast. -/
inductive ConvBody
  | code (convcode : Name)
  | cast (lkey : Name) (cast : Option Name) ( lprefix : Name)

/-- `static void *convname(void *x, int *newmemory) { ... }`. -/
structure ConvFn where
  convname : Name
  body : ConvBody

/-- Other names of a derived type get its conversion too. -/
def linkTypedef (rkey mkey convname typePrefix : Name) (rlist : List Name) (T : Tables)
    (rrk : Name × Name) : Tables :=
  if stringCmp typePrefix rrk.2 = 0 then
    let ckey := rrk.1 ++ lit "+" ++ mkey
    let conversions :=
      if (T.conversions.get ckey).isSome then T.conversions else T.conversions.set ckey convname
    let conversions := rlist.foldl (fun conversions rlk =>
      conversions.set (rrk.1 ++ lit "+" ++ rlk) convname) conversions
    { T with conversions := conversions, r_resolved := setIn T.r_resolved rkey rrk.1 rrk.2 }
  else T

/-- One derived class of the base of `rkey`. -/
def linkSubclass (f : TypeFns) (rkey : Name) (rlist : List Name) (s : Tables × List ConvFn)
    (bk : Name × Subclass) : Tables × List ConvFn :=
  let (T, out) := s
  let typePrefix := f.typePrefix rkey ++ bk.1
  let mprefix := f.manglestr typePrefix
  let T := { T with r_resolved := setIn T.r_resolved rkey mprefix typePrefix }
  let mkey := f.manglestr rkey
  let ckey := mprefix ++ lit "+" ++ mkey
  if (T.conversions.get ckey).isSome then (T, out)
  else
    let convname := mprefix ++ lit "To" ++ mkey
    let body := match bk.2.convcode with
      | some convcode => .code convcode
      | none => .cast (f.lstr rkey) bk.2.cast (f.lstr typePrefix)
    let T := { T with conversions := T.conversions.set ckey convname }
    let T := match T.r_resolved.get typePrefix with
      | none => T
      | some r => r.items.foldl (linkTypedef rkey mkey convname typePrefix rlist) T
    (T, out ++ [⟨convname, body⟩])

/-- `SwigType_inherit_equiv`. -/
def inheritEquiv (f : TypeFns) (T : Tables) : Tables × List ConvFn :=
  T.r_resolved.keys.foldl (fun s rkey =>
    match s.1.subclass.get (f.base rkey) with
    | none => s
    | some sub =>
        let rlist := ((s.1.r_resolved.get rkey).getD .new).keys
        sub.items.foldl (linkSubclass f rkey rlist) s) (T, [])

/-! ### The table -/

/-- `SortList(l, SwigType_compare_mangled)`. -/
def sortMangled (l : List Name) : List Name := l.mergeSort fun a b => (strcmp a b).isLE

/-- `SwigType_get_sorted_mangled_list`. -/
def sortedMangledList (T : Tables) : List Name := sortMangled T.r_mangled.keys

/-- `static swig_type_info _swigt_name = {"name", str, 0, 0, clientdata, 0};`. -/
structure TypeDecl where
  name : Name
  str : Option Name
  clientdata : Name

/-- `static swig_cast_info _swigc_name[] = {{&_swigt_type, converter, 0, 0}, ...};`. -/
structure CastRow where
  name : Name
  casts : List (Name × Option Name)

/-- What is written: the conversion functions, the declarations, the entries of
`swig_type_initial` and `swig_cast_initial`, the `SWIGTYPE` macros with their
index and the size in `swig_module`. -/
structure TypeTable where
  convs : List ConvFn
  types : List TypeDecl
  table : List Name
  cast : List CastRow
  castInit : List Name
  macros : List (Name × ℕ)
  size : ℕ

/-- The names shown for a type, separated by bars. -/
def typeNames (f : TypeFns) (lthash : StringTable Name) : Option Name :=
  let nthash := lthash.keys.foldl (fun nthash lt =>
    let rt := f.typedef_resolve_all lt
    let ln := f.lstr lt
    let rn := f.lstr rt
    let nthash := if ln = rn then nthash.set ln (lit "1")
      else (nthash.set rn (lit "1")).set ln (lit "1")
    if f.istemplate rt then
      let dn := f.lstr (f.template_deftype rt)
      if dn ≠ rn ∧ dn ≠ ln then nthash.set dn (lit "1") else nthash
    else nthash) (.new : StringTable Name)
  match nthash.keys with
  | [] => none
  | n :: ns => some (ns.foldl (fun nt k => nt ++ lit "|" ++ k) n)

structure EmitState where
  types : List TypeDecl
  table_list : List Name
  cast : List CastRow
  imported_types : StringTable Name

/-- One equivalent name: a type of no table entry is declared here. -/
def emitImported (T : Tables) (s : EmitState) (ei : Name) : EmitState :=
  if (T.r_mangled.get ei).isNone ∧ (s.imported_types.get ei).isNone then
    { types := s.types ++ [⟨ei, none, lit "0"⟩]
      table_list := s.table_list ++ [ei]
      cast := s.cast ++ [⟨ei, [(ei, none)]⟩]
      imported_types := s.imported_types.set ei (lit "1") }
  else s

/-- One mangled name: its declaration, and its row with a cast from every
equivalent name. -/
def emitType (f : TypeFns) (T : Tables) (s : EmitState) (ki : Name) : Option EmitState := do
  let cd := (clientdataCollect T ki).getD (lit "0")
  let nt := typeNames f ((T.r_ltype.get ki).getD .new)
  let s := { s with table_list := s.table_list ++ [ki], types := s.types ++ [⟨ki, nt, cd⟩] }
  let el ← equivalents T ki
  let casts := el.map fun ei => (ei, T.conversions.get (ei ++ lit "+" ++ ki))
  let s := el.foldl (emitImported T) s
  return { s with cast := s.cast ++ [⟨ki, casts⟩] }

structure Entries where
  macros : List (Name × ℕ)
  table : List Name
  castInit : List Name
  i : ℕ

/-- The lines for one entry of the sorted list. -/
def emitEntry (s : Entries) (ki : Name) : Entries where
  macros := s.macros ++ [(ki, s.i)]
  table := s.table ++ [ki]
  castInit := s.castInit ++ [ki]
  i := s.i + 1

/-- `SwigType_emit_type_table`. An empty table is written as one null pointer. -/
def emitTypeTable (f : TypeFns) (T : Tables) : Option TypeTable := do
  let (T, convs) := inheritEquiv f T
  let s ← (sortedMangledList T).foldlM (emitType f T) ⟨[], [], [], .new⟩
  let e := (sortMangled s.table_list).foldl emitEntry ⟨[], [], [], 0⟩
  return { convs := convs, types := s.types, table := e.table, cast := s.cast,
           castInit := e.castInit, macros := e.macros, size := e.i }

end Swig.Typesys
