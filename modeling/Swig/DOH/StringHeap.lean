import Swig.DOH.Hash
import Swig.DOH.Replace

/-!
The public operations on string objects (`string.c`, `base.c`) over the objects
made so far. An object is named by its index; none is deleted. Every operation
may find other bytes in the memory it allocates.
-/

namespace Swig.DOH

open ByteBlock

namespace DohString

/-- The bytes in front of `len`. -/
def contents (s : DohString) : List Byte := s.str.take s.len.toNat

/-- The contents, as they are read from the buffer. -/
def bytes (s : DohString) : Option (List Byte) := loadBytes s.str 0 s.len

/-- `String_hash`, which caches what it computes. -/
def hash (s : DohString) : Option (ℤ × DohString) :=
  if s.hashkey ≥ 0 then some (s.hashkey, s)
  else do
    let c ← loadBytes s.str 0 (if s.len > 50 then 50 else s.len)
    return (stringHash c, { s with hashkey := stringHash c })

/-- `String_cmp`. -/
def cmp (s1 s2 : DohString) : Option ℤ := do
  return stringCmp (← s1.bytes) (← s2.bytes)

/-- `String_equal`. -/
def equal (s1 s2 : DohString) : Option Bool := do
  return stringEqual (← s1.bytes) (← s2.bytes)

end DohString

abbrev StringHeap := List DohString

/-- An argument that may be a C string, given by the bytes in front of its
terminator, or a string object. -/
inductive Arg
  | cstr (txt : List Byte)
  | obj (i : ℕ)
  deriving DecidableEq

namespace StringHeap

/-- An operation that changes one object. -/
def modify (h : StringHeap) (so : ℕ) (f : DohString → Option DohString) : Option StringHeap := do
  let s ← h[so]?
  let s ← f s
  return h.set so s

/-- `String_data` of an object. -/
def data (h : StringHeap) (so : ℕ) : Option (DohString × StringHeap) := do
  let s ← h[so]?
  let s ← s.stringData
  return (s, h.set so s)

/-- `Char`: the C string of an argument. -/
def char (h : StringHeap) : Arg → Option (List Byte × StringHeap)
  | .cstr txt => some (txt, h)
  | .obj i => do
      let (s, h) ← h.data i
      let txt ← cstring s.str 0
      return (txt, h)

/-- The bytes of an argument, `len` of them for an object. -/
def text (h : StringHeap) : Arg → Option (List Byte × StringHeap)
  | .cstr txt => some (txt, h)
  | .obj i => do
      let (s, h) ← h.data i
      let txt ← s.bytes
      return (txt, h)

/-- The source of a `NewString`. -/
def newStringSource (h : StringHeap) : Option Arg → Option (Option (List Byte × ℤ × ℤ) × StringHeap)
  | none => some (none, h)
  | some (.cstr txt) => some (some (txt, txt.length, -1), h)
  | some (.obj i) => do
      let (s, h) ← h.data i
      let txt ← cstring s.str 0
      return (some (txt, s.len, s.hashkey), h)

/-- The source of a `NewStringWithSize`. -/
def newStringWithSizeSource (h : StringHeap) : Option Arg → Option (Option (List Byte) × StringHeap)
  | none => some (none, h)
  | some a => do
      let (txt, h) ← h.char a
      return (some txt, h)

/-- The result of `strcmp` as an `int`. -/
def strcmpInt (a b : List Byte) : ℤ :=
  match strcmp a b with
  | .lt => -1
  | .eq => 0
  | .gt => 1

/-- `DohCmp`. -/
def dohCmp (h : StringHeap) : Option Arg → Option Arg → Option (ℤ × StringHeap)
  | none, none => some (0, h)
  | some _, none => some (1, h)
  | none, some _ => some (-1, h)
  | some (.obj i), some (.obj j) => do
      let s ← h[i]?
      let t ← h[j]?
      return (← s.cmp t, h)
  | some a, some b => do
      let (t1, h) ← h.char a
      let (t2, h) ← h.char b
      return (strcmpInt t1 t2, h)

/-- An object against a C string: the lengths, then `memcmp`. -/
def equalCstr (h : StringHeap) (i : ℕ) (cobj : List Byte) : Option (Bool × StringHeap) := do
  let s ← h[i]?
  if s.len = cobj.length then do
    let (s, h) ← h.data i
    let c ← s.bytes
    return (c == cobj, h)
  else return (false, h)

/-- `DohEqual`. -/
def dohEqual (h : StringHeap) : Option Arg → Option Arg → Option (Bool × StringHeap)
  | none, b => some (b.isNone, h)
  | some _, none => some (false, h)
  | some (.obj i), some (.obj j) => do
      let s ← h[i]?
      let t ← h[j]?
      return (← s.equal t, h)
  | some (.obj i), some (.cstr c) => h.equalCstr i c
  | some (.cstr c), some (.obj j) => h.equalCstr j c
  | some (.cstr c), some (.cstr d) => some (strcmp c d == .eq, h)

end StringHeap

/-- The public operations. -/
inductive StringOp
  | newString (so : Option Arg)
  | newStringEmpty
  | newStringWithSize (so : Option Arg) (len : ℤ)
  | copy (so : ℕ)
  | append (so : ℕ) (str : Arg)
  | insert (so : ℕ) (pos : ℤ) (str : Arg)
  | delitem (so : ℕ) (pos : ℤ)
  | delslice (so : ℕ) (sindex eindex : ℤ)
  | replace (so : ℕ) (token rep : Arg) (flags : ℕ)
  | chop (so : ℕ)
  | clear (so : ℕ)
  | seek (so : ℕ) (offset : ℤ) (whence : Whence)
  | putc (so : ℕ) (ch : Byte)
  | getc (so : ℕ)
  | ungetc (so : ℕ) (ch : Option Byte)
  | read (so : ℕ) (len : ℤ)
  | write (so : ℕ) (buffer : List Byte)
  | hashval (so : ℕ)
  | cmp (obj1 obj2 : Option Arg)
  | equal (obj1 obj2 : Option Arg)
  deriving DecidableEq

namespace StringHeap

/-- `DohString_append`. The data of the string itself are freed or overlap. -/
def append (junk : ℕ → Byte) (h : StringHeap) (so : ℕ) (str : Arg) : Option StringHeap := do
  guard (str ≠ .obj so)
  let (newstr, h) ← h.text str
  h.modify so (·.append junk newstr)

/-- `String_replace`. A `memcpy` of the string over itself is left when it is
replaced by its own contents in place. -/
def replace (junk : ℕ → Byte) (h : StringHeap) (so : ℕ) (token rep : Arg) (flags : ℕ) : Option StringHeap := do
  let (t, h) ← h.char token
  let (r, h) ← h.char rep
  let s ← h[so]?
  let (rcount, s) ← s.replace junk t r flags
  guard ¬(rep = .obj so ∧ rcount ≠ 0 ∧ r.length ≤ t.length)
  return h.set so s

end StringHeap

/-- One operation; `junk` are the bytes in the memory it allocates. -/
def StringOp.step (junk : ℕ → Byte) (h : StringHeap) : StringOp → Option StringHeap
  | .newString so => do
      let (so, h) ← h.newStringSource so
      return h ++ [← DohString.newString junk so]
  | .newStringEmpty => do
      return h ++ [← DohString.newStringEmpty junk]
  | .newStringWithSize so len => do
      let (so, h) ← h.newStringWithSizeSource so
      return h ++ [← DohString.newStringWithSize junk so len]
  | .copy so => do
      let s ← h[so]?
      return h ++ [← s.copyString junk]
  | .append so str => h.append junk so str
  | .insert so pos str =>
      if pos = DOH_END then h.append junk so str
      else do
        let (data, h) ← h.text str
        h.modify so (·.insert junk pos data (str == .obj so))
  | .delitem so pos => h.modify so (·.delitem pos)
  | .delslice so sindex eindex => h.modify so (·.delslice sindex eindex)
  | .replace so token rep flags => h.replace junk so token rep flags
  | .chop so => h.modify so (·.chop)
  | .clear so => h.modify so (·.clear)
  | .seek so offset whence => h.modify so (·.seek offset whence)
  | .putc so ch => h.modify so (·.putc junk ch)
  | .getc so => h.modify so fun s => s.getc.map (·.2)
  | .ungetc so ch => h.modify so fun s => some (s.ungetc ch)
  | .read so len => h.modify so fun s => (s.read len).map (·.2)
  | .write so buffer => h.modify so (·.write junk buffer)
  | .hashval so => h.modify so fun s => s.hash.map (·.2)
  | .cmp obj1 obj2 => (h.dohCmp obj1 obj2).map (·.2)
  | .equal obj1 obj2 => (h.dohEqual obj1 obj2).map (·.2)

end Swig.DOH
