import Mathlib.Algebra.Ring.Parity
import Mathlib.Data.Nat.Find
import Mathlib.Data.Nat.Prime.Infinite
import Swig.DOH.CType
import Swig.Lib.Buckets

/-!
The hash table of DOH (`hash.c`), keyed by strings.

A key is its contents: keys are not mutated while they are stored, and every
mutating string operation resets the cached hash value, so `Hashval` is a
function of the contents. A chain is a list of nodes. Objects are pointers; a
C string given as value has already become a new `String` object.
-/

namespace Swig.DOH

open Swig.Lib

/-- `String_cmp`: the first difference decides, then the length. -/
def stringCmp : List Byte → List Byte → ℤ
  | [], [] => 0
  | [], _ :: _ => -1
  | _ :: _, [] => 1
  | c1 :: s1, c2 :: s2 =>
      if c1 ≠ c2 then (if c1.toInt8 < c2.toInt8 then -1 else 1) else stringCmp s1 s2

/-- `String_equal`: the lengths, then `memcmp`. -/
def stringEqual (s1 s2 : List Byte) : Bool :=
  if s1.length ≠ s2.length then false else s1 == s2

/-- `String_hash`: at most 50 characters, each a signed `char`, in wrapping
`int` arithmetic. -/
def stringHash (s : List Byte) : ℕ :=
  let h := (s.take 50).foldl (fun (h : BitVec 32) c => (h <<< 5) + c.toBitVec.signExtend 32) 0#32
  (h &&& 0x7fffffff#32).toNat

/-- The interned keys, a binary tree; `sstr` is the string made of `cstr`. -/
inductive KeyValue
  | null
  | node (cstr sstr : List Byte) (left right : KeyValue)

/-- `find_key`. -/
def findKey (c : List Byte) : KeyValue → List Byte × KeyValue
  | .null => (c, .node c c .null .null)
  | .node cstr sstr left right =>
      match strcmp cstr c with
      | .eq => (sstr, .node cstr sstr left right)
      | .lt => ((findKey c left).1, .node cstr sstr (findKey c left).2 right)
      | .gt => ((findKey c right).1, .node cstr sstr left (findKey c right).2)

/-- The key argument of a method: a C string, or a `String` object (`DohCheck`). -/
inductive KeyArg
  | cstr (c : List Byte)
  | str (s : List Byte)

def KeyArg.contents : KeyArg → List Byte
  | .cstr c => c
  | .str s => s

/-- `if (!DohCheck(k)) k = find_key(k)`. -/
def KeyArg.resolve (root : KeyValue) : KeyArg → List Byte × KeyValue
  | .cstr c => findKey c root
  | .str s => (s, root)

structure HashNode (V : Type) where
  key : List Byte
  object : V
  deriving DecidableEq

structure Hash (V : Type) where
  hashtable : List (List (HashNode V))
  nitems : ℕ

variable {V : Type}

def Hash.hashsize (h : Hash V) : ℕ := h.hashtable.length

/-- The nodes of the table, bucket by bucket. -/
def Hash.nodes (h : Hash V) : List (HashNode V) := h.hashtable.flatten

/-- `DohNewHash`, with `HASH_INIT_SIZE` empty buckets. -/
def newHash : Hash V := { hashtable := List.replicate 7 [], nitems := 0 }

def hashClear (h : Hash V) : Hash V :=
  { hashtable := List.replicate h.hashsize [], nitems := 0 }

/-- The search of `resize` for a size without an odd divisor below half of it:
`p` is the next divisor to try. -/
def sizeSearch (newsize p : ℕ) (hn : Odd newsize) (hp : 3 ≤ p) : ℕ :=
  if p < newsize / 2 then
    if newsize / p * p = newsize then
      sizeSearch (newsize + 2) 3 (hn.add_even even_two) (Nat.le_refl 3)
    else
      sizeSearch newsize (p + 2) hn (by omega)
  else
    newsize
termination_by (Nat.find (Nat.exists_infinite_primes newsize) - newsize, newsize - p)
decreasing_by
  · -- a divisor was found, so the least prime from here on is at least 2 away
    apply Prod.Lex.left
    obtain ⟨hle, hprime⟩ := Nat.find_spec (Nat.exists_infinite_primes newsize)
    have hcomposite : ¬newsize.Prime := by
      intro h
      rcases h.eq_one_or_self_of_dvd p ⟨newsize / p, by rw [mul_comm]; omega⟩ with h1 | h1 <;> omega
    have hstep : newsize + 2 ≤ Nat.find (Nat.exists_infinite_primes newsize) := by
      have h0 : Nat.find (Nat.exists_infinite_primes newsize) ≠ newsize := by
        intro h
        exact hcomposite (h ▸ hprime)
      have h1 : Nat.find (Nat.exists_infinite_primes newsize) ≠ newsize + 1 := by
        intro h
        have heven : Even (newsize + 1) := hn.add_one
        rw [h] at hprime
        rcases hprime.eq_one_or_self_of_dvd 2 heven.two_dvd with h2 | h2 <;> omega
      omega
    have hle' : Nat.find (Nat.exists_infinite_primes (newsize + 2)) ≤
        Nat.find (Nat.exists_infinite_primes newsize) :=
      Nat.find_min' _ ⟨hstep, hprime⟩
    omega
  · apply Prod.Lex.right
    omega

/-- The new size for a table of `oldsize` buckets. -/
def newSize (oldsize : ℕ) : ℕ :=
  sizeSearch (2 * oldsize + 1) 3 ⟨oldsize, rfl⟩ (Nat.le_refl 3)

def resize (h : Hash V) : Hash V :=
  if h.nitems < 2 * h.hashsize then
    h
  else
    let newsize := newSize h.hashsize
    let place (table : List (List (HashNode V))) (n : HashNode V) :=
      Buckets.push table (stringHash n.key % newsize) n
    let table := h.hashtable.foldl (fun table chain => chain.foldl place table)
      (List.replicate newsize [])
    { h with hashtable := table }

section Set

variable [DecidableEq V]

/-- The walk of `Hash_setattr` along a chain; no result if the key is not there. -/
def setChain (k : List Byte) (obj : V) : List (HashNode V) → Option (List (HashNode V))
  | [] => none
  | n :: rest =>
      if stringCmp n.key k = 0 then
        if n.object = obj then some (n :: rest) else some ({ n with object := obj } :: rest)
      else
        (setChain k obj rest).map (n :: ·)

/-- `Hash_setattr` with a value that is not null. -/
def setObject (h : Hash V) (k : List Byte) (obj : V) : ℕ × Hash V :=
  let hv := stringHash k % h.hashsize
  let chain := Buckets.bucket h.hashtable hv
  match setChain k obj chain with
  | some chain' => (1, { h with hashtable := h.hashtable.set hv chain' })
  | none =>
      (0, resize { hashtable := h.hashtable.set hv (chain ++ [⟨k, obj⟩]), nitems := h.nitems + 1 })

/-- `CopyHash`: all nodes are set in a new table of the same size. -/
def copyHash (h : Hash V) : Hash V :=
  h.nodes.foldl (fun nh n => (setObject nh n.key n.object).2)
    { hashtable := List.replicate h.hashsize [], nitems := 0 }

end Set

/-- `Hash_getattr` on a resolved key: the whole chain is scanned. -/
def getObject (h : Hash V) (k : List Byte) : Option V :=
  (Buckets.bucket h.hashtable (stringHash k % h.hashsize)).foldl
    (fun obj n => if stringEqual k n.key then some n.object else obj) none

/-- The walk of `Hash_delattr` along a chain; no result if the key is not there. -/
def deleteChain (k : List Byte) : List (HashNode V) → Option (List (HashNode V))
  | [] => none
  | n :: rest =>
      if stringCmp n.key k = 0 then some rest else (deleteChain k rest).map (n :: ·)

/-- `Hash_delattr` on a resolved key. -/
def deleteObject (h : Hash V) (k : List Byte) : ℕ × Hash V :=
  let hv := stringHash k % h.hashsize
  match deleteChain k (Buckets.bucket h.hashtable hv) with
  | some chain' => (1, { hashtable := h.hashtable.set hv chain', nitems := h.nitems - 1 })
  | none => (0, h)

/-! ### The methods -/

def hashDelattr (root : KeyValue) (h : Hash V) (k : KeyArg) : ℕ × KeyValue × Hash V :=
  let (k, root) := k.resolve root
  let (r, h) := deleteObject h k
  (r, root, h)

/-- `Hash_setattr`; a null value deletes the attribute. -/
def hashSetattr [DecidableEq V] (root : KeyValue) (h : Hash V) (k : KeyArg) (obj : Option V) :
    ℕ × KeyValue × Hash V :=
  match obj with
  | none => hashDelattr root h k
  | some obj =>
      let (k, root) := k.resolve root
      let (r, h) := setObject h k obj
      (r, root, h)

def hashGetattr (root : KeyValue) (h : Hash V) (k : KeyArg) : Option V × KeyValue :=
  let (k, root) := k.resolve root
  (getObject h k, root)

def hashLen (h : Hash V) : ℕ := h.nitems

/-- A `DohIterator` on a hash table; `current` is the rest of the chain. -/
structure Iterator (V : Type) where
  current : List (HashNode V)
  index : ℕ
  key : Option (List Byte)
  item : Option V

/-- The first index from `i` on with a chain, `t` being the buckets from `i` on. -/
def skipEmpty (i : ℕ) : List (List (HashNode V)) → ℕ
  | [] => i
  | [] :: t => skipEmpty (i + 1) t
  | (_ :: _) :: _ => i

/-- Stand on the first node of a chain; the iterator is at its end without one. -/
def Iterator.load (index : ℕ) : List (HashNode V) → Iterator V
  | [] => { current := [], index, key := none, item := none }
  | n :: rest => { current := rest, index, key := some n.key, item := some n.object }

def hashFirstiter (h : Hash V) : Iterator V :=
  let index := skipEmpty 0 h.hashtable
  Iterator.load index (Buckets.bucket h.hashtable index)

def hashNextiter (h : Hash V) (iter : Iterator V) : Iterator V :=
  match iter.current with
  | [] =>
      let index := skipEmpty (iter.index + 1) (h.hashtable.drop (iter.index + 1))
      Iterator.load index (Buckets.bucket h.hashtable index)
  | n :: rest => Iterator.load iter.index (n :: rest)

/-- The loop of `Hash_keys`, for at most `fuel` rounds. -/
def keysLoop (h : Hash V) : ℕ → Iterator V → Option (List (List Byte))
  | 0, _ => none
  | fuel + 1, iter =>
      match iter.key with
      | none => some []
      | some k => (keysLoop h fuel (hashNextiter h iter)).map (k :: ·)

def hashKeys (h : Hash V) (fuel : ℕ) : Option (List (List Byte)) :=
  keysLoop h fuel (hashFirstiter h)

end Swig.DOH
