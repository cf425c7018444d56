import Swig.DOH.Hash

/-!
The objects of DOH with their reference counts: `base.c`, `memory.c`, `list.c`
and the part of `hash.c` that changes a table.

An object is named by its place in the pool; the place of a freed object is
empty and not used again. An operation gives `none` when it uses a freed object
or an object of another type, or fails an assertion. The room a list has to
grow, files, lines and meta objects are left out; nothing here sets a file.
-/

namespace Swig.DOH

open Swig.Lib

/-- A node of a hash table. -/
structure Node where
  key : ℕ
  object : ℕ
  deriving DecidableEq

inductive ObjData
  | string (str : List Byte)
  | list (items : List ℕ)
  | hash (hashtable : List (List Node)) (nitems : ℕ)
  deriving DecidableEq

/-- The objects a container refers to. -/
def ObjData.slots : ObjData → List ℕ
  | .string _ => []
  | .list items => items
  | .hash table _ => table.flatten.flatMap fun n => [n.key, n.object]

structure DohBase where
  data : ObjData
  flag_intern : Bool
  refcount : ℕ
  deriving DecidableEq

/-- The interned keys; `sstr` is the string object made of `cstr`. -/
inductive KeyTree
  | null
  | node (cstr : List Byte) (sstr : ℕ) (left right : KeyTree)
  deriving DecidableEq

def KeyTree.find (c : List Byte) : KeyTree → Option ℕ
  | .null => none
  | .node cstr sstr left right =>
      match strcmp cstr c with
      | .eq => some sstr
      | .lt => left.find c
      | .gt => right.find c

def KeyTree.add (c : List Byte) (k : ℕ) : KeyTree → KeyTree
  | .null => .node c k .null .null
  | .node cstr sstr left right =>
      match strcmp cstr c with
      | .eq => .node cstr sstr left right
      | .lt => .node cstr sstr (left.add c k) right
      | .gt => .node cstr sstr left (right.add c k)

structure Pool where
  objs : List (Option DohBase)
  root : KeyTree
  deriving DecidableEq

/-- An argument that may be a C string or an object. -/
inductive Value
  | cstr (c : List Byte)
  | obj (o : ℕ)
  deriving DecidableEq

namespace Pool

/-- The object, unless it has been freed. -/
def get (p : Pool) (o : ℕ) : Option DohBase := p.objs[o]?.join

def put (p : Pool) (o : ℕ) (b : DohBase) : Pool := { p with objs := p.objs.set o (some b) }

def setData (p : Pool) (o : ℕ) (data : ObjData) : Option Pool := do
  let b ← p.get o
  return p.put o { b with data := data }

def incref (p : Pool) (o : ℕ) : Option Pool := do
  let b ← p.get o
  return p.put o { b with refcount := b.refcount + 1 }

def decref (p : Pool) (o : ℕ) : Option Pool := do
  let b ← p.get o
  return p.put o { b with refcount := b.refcount - 1 }

/-- `DohObjMalloc`. -/
def objMalloc (p : Pool) (data : ObjData) : ℕ × Pool :=
  (p.objs.length, { p with objs := p.objs ++ [some ⟨data, false, 1⟩] })

/-- `DohObjFree`. -/
def objFree (p : Pool) (o : ℕ) : Pool := { p with objs := p.objs.set o none }

/-- `DohDelete`, at most `fuel` calls deep. A container drops the references in
its slots before it is freed. -/
def deleteFuel : ℕ → ℕ → Pool → Option Pool
  | 0, _, _ => none
  | fuel + 1, o, p => do
      let b ← p.get o
      if b.flag_intern then return p
      guard (b.refcount > 0)
      let p := p.put o { b with refcount := b.refcount - 1 }
      if b.refcount - 1 = 0 then
        let p ← b.data.slots.foldlM (fun p o => deleteFuel fuel o p) p
        return p.objFree o
      else return p

/-- `DohDelete`. Every nested call frees one more object. -/
def delete (p : Pool) (o : ℕ) : Option Pool := deleteFuel (p.objs.length + 1) o p

def newString (p : Pool) (c : List Byte) : ℕ × Pool := p.objMalloc (.string c)

/-- `if (!DohCheck(item)) { item = NewString(item); Decref(item); }`. -/
def wrap (p : Pool) : Value → Option (ℕ × Pool)
  | .obj o => some (o, p)
  | .cstr c => do
      let (o, p) := p.newString c
      return (o, ← p.decref o)

/-! ### Lists -/

/-- The items of a list. -/
def items (p : Pool) (lo : ℕ) : Option (List ℕ) :=
  match p.get lo with
  | some ⟨.list items, _, _⟩ => some items
  | _ => none

def newList (p : Pool) : ℕ × Pool := p.objMalloc (.list [])

/-- `CopyList`. -/
def copyList (p : Pool) (lo : ℕ) : Option (ℕ × Pool) := do
  let items ← p.items lo
  let p ← items.foldlM incref p
  return p.objMalloc (.list items)

/-- `List_clear`. -/
def listClear (p : Pool) (lo : ℕ) : Option Pool := do
  let items ← p.items lo
  let p ← items.foldlM delete p
  p.setData lo (.list [])

/-- `List_insert`. -/
def listInsert (p : Pool) (lo : ℕ) (pos : ℤ) (item : Option Value) : Option (ℤ × Pool) :=
  match item with
  | none => some (-1, p)
  | some item => do
      let (item, p) ← p.wrap item
      let items ← p.items lo
      let pos := if pos = -2 then (items.length : ℤ) else pos
      let pos := if pos < 0 then 0 else if pos > items.length then (items.length : ℤ) else pos
      let p ← p.setData lo (.list (items.insertIdx pos.toNat item))
      let p ← p.incref item
      return (0, p)

/-- The item `List_remove` removes; `-2` is `DOH_END` and `-1` is `DOH_BEGIN`. -/
def removeIndex (pos : ℤ) (nitems : ℕ) : ℤ :=
  let pos := if pos = -2 then (nitems : ℤ) - 1 else pos
  if pos = -1 then 0 else pos

/-- `List_remove`. -/
def listRemove (p : Pool) (lo : ℕ) (pos : ℤ) : Option (ℤ × Pool) := do
  let items ← p.items lo
  let pos := removeIndex pos items.length
  guard ¬(pos < 0 ∨ pos ≥ items.length)
  let p ← p.delete (← items[pos.toNat]?)
  let items ← p.items lo
  let p ← p.setData lo (.list (items.eraseIdx pos.toNat))
  return (0, p)

/-- `List_set`. -/
def listSet (p : Pool) (lo : ℕ) (n : ℤ) (val : Option Value) : Option (ℤ × Pool) :=
  match val with
  | none => some (-1, p)
  | some val => do
      let items ← p.items lo
      guard ¬(n < 0 ∨ n ≥ items.length)
      let (val, p) ← p.wrap val
      let p ← p.delete (← items[n.toNat]?)
      let items ← p.items lo
      let p ← p.setData lo (.list (items.set n.toNat val))
      let p ← p.incref val
      let p ← p.delete val
      return (0, p)

/-! ### Hash tables -/

/-- The table of a hash and its number of items. -/
def table (p : Pool) (ho : ℕ) : Option (List (List Node) × ℕ) :=
  match p.get ho with
  | some ⟨.hash table nitems, _, _⟩ => some (table, nitems)
  | _ => none

/-- `find_key`. -/
def findKey (p : Pool) (c : List Byte) : ℕ × Pool :=
  match p.root.find c with
  | some k => (k, p)
  | none => (p.objs.length,
      { objs := p.objs ++ [some ⟨.string c, true, 1⟩], root := p.root.add c p.objs.length })

/-- `if (!DohCheck(k)) k = find_key(k)`. -/
def resolve (p : Pool) : Value → ℕ × Pool
  | .obj k => (k, p)
  | .cstr c => p.findKey c

/-- `Hashval`. Only strings have a hash value. -/
def hashval (p : Pool) (k : ℕ) : Option ℕ := do
  match (← p.get k).data with
  | .string s => return stringHash s
  | _ => return 0

/-- `Cmp` of two objects. Only strings can be equal. -/
def cmp (p : Pool) (o1 o2 : ℕ) : Option ℤ := do
  match (← p.get o1).data, (← p.get o2).data with
  | .string s1, .string s2 => return stringCmp s1 s2
  | _, _ => return 1

/-- The place in a chain of the first node with the key. -/
def chainIndex (p : Pool) (k : ℕ) : List Node → Option (Option ℕ)
  | [] => some none
  | n :: chain => do
      if (← p.cmp n.key k) = 0 then return some 0
      else return (← p.chainIndex k chain).map (· + 1)

/-- The bucket of a key, and the place of its node in the chain there. -/
def lookup (p : Pool) (hashtable : List (List Node)) (k : ℕ) : Option (ℕ × Option ℕ) := do
  let hv := (← p.hashval k) % hashtable.length
  return (hv, ← p.chainIndex k (Buckets.bucket hashtable hv))

/-- `resize`. -/
def hashResize (p : Pool) (ho : ℕ) : Option Pool := do
  let (hashtable, nitems) ← p.table ho
  if nitems < 2 * hashtable.length then return p
  else
    let newsize := newSize hashtable.length
    let hashtable ← hashtable.flatten.foldlM (fun t n => do
      return Buckets.push t ((← p.hashval n.key) % newsize) n) (List.replicate newsize [])
    p.setData ho (.hash hashtable nitems)

def newHash (p : Pool) : ℕ × Pool := p.objMalloc (.hash (List.replicate 7 []) 0)

/-- `Hash_clear`. -/
def hashClear (p : Pool) (ho : ℕ) : Option Pool := do
  let (hashtable, nitems) ← p.table ho
  let p ← (ObjData.hash hashtable nitems).slots.foldlM delete p
  p.setData ho (.hash (List.replicate hashtable.length []) 0)

/-- `Hash_delattr`. -/
def hashDelattr (p : Pool) (ho : ℕ) (k : Value) : Option (ℤ × Pool) := do
  let (k, p) := p.resolve k
  let (hashtable, nitems) ← p.table ho
  let (hv, i) ← p.lookup hashtable k
  match i with
  | none => return (0, p)
  | some i =>
      let chain := Buckets.bucket hashtable hv
      let n ← chain[i]?
      let p ← p.setData ho (.hash (hashtable.set hv (chain.eraseIdx i)) nitems)
      -- `DelNode`
      let p ← p.delete n.key
      let p ← p.delete n.object
      let (hashtable, nitems) ← p.table ho
      let p ← p.setData ho (.hash hashtable (nitems - 1))
      return (1, p)

/-- `Hash_setattr`. -/
def hashSetattr (p : Pool) (ho : ℕ) (k : Value) (obj : Option Value) : Option (ℤ × Pool) :=
  match obj with
  | none => p.hashDelattr ho k
  | some obj => do
      let (k, p) := p.resolve k
      let (obj, p) ← p.wrap obj
      let (hashtable, nitems) ← p.table ho
      let (hv, i) ← p.lookup hashtable k
      let chain := Buckets.bucket hashtable hv
      match i with
      | some i =>
          -- Node already exists. Just replace its contents
          let n ← chain[i]?
          if n.object = obj then return (1, p)
          else
            let p ← p.delete n.object
            let chain := chain.set i { n with object := obj }
            let p ← p.setData ho (.hash (hashtable.set hv chain) nitems)
            let p ← p.incref obj
            return (1, p)
      | none =>
          -- `NewNode`
          let p ← p.incref k
          let p ← p.incref obj
          let p ← p.setData ho (.hash (hashtable.set hv (chain ++ [⟨k, obj⟩])) (nitems + 1))
          let p ← p.hashResize ho
          return (0, p)

/-- `CopyHash`. -/
def copyHash (p : Pool) (ho : ℕ) : Option (ℕ × Pool) := do
  let (hashtable, _) ← p.table ho
  let (nho, p) := p.objMalloc (.hash (List.replicate hashtable.length []) 0)
  let p ← hashtable.flatten.foldlM (fun p n => do
    let (_, p) ← p.hashSetattr nho (.obj n.key) (some (.obj n.object))
    return p) p
  return (nho, p)

/-! ### Methods by type -/

/-- `DohCopy`. -/
def copy (p : Pool) (o : ℕ) : Option (ℕ × Pool) := do
  match (← p.get o).data with
  | .string s => return p.objMalloc (.string s)
  | .list _ => p.copyList o
  | .hash _ _ => p.copyHash o

/-- `DohClear` of a container. -/
def clear (p : Pool) (o : ℕ) : Option Pool := do
  match (← p.get o).data with
  | .string _ => none
  | .list _ => p.listClear o
  | .hash _ _ => p.hashClear o

end Pool

end Swig.DOH
