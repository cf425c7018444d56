import Swig.DOH.HashMap
import Swig.Lib.Chain

/-!
The hash table of DOH with its nodes in memory (`hash.c`).

A node has an address, and reading a node that is not allocated has no result. `Lays` tells
which nodes the chains of a table are made of; a table laid out so is a `Hash` whose
buckets are the nodes without their addresses.
-/

namespace Swig.DOH

open Lib Chain

/-- A hash object and the memory of its nodes. -/
structure LinkedHash (V : Type) where
  hashtable : List (Option ℕ)
  heap : ℕ → Option (Cell (HashNode V))
  nitems : ℕ

variable {V : Type}

namespace LinkedHash

def hashsize (h : LinkedHash V) : ℕ := h.hashtable.length

/-- `h->hashtable[i]`. -/
def head (h : LinkedHash V) (i : ℕ) : Option ℕ := h.hashtable.getD i none

/-- `DohNewHash`. -/
def new : LinkedHash V := { hashtable := List.replicate 7 none, heap := fun _ => none, nitems := 0 }

/-- The node at `a` is taken out behind `prev` and deleted. -/
def unlink (h : LinkedHash V) (hv : ℕ) (prev : Option ℕ) (a : ℕ) (next : Option ℕ) : Option (LinkedHash V) := do
  let h ← match prev with
    | some p => do
        let c ← h.heap p
        some { h with heap := Function.update h.heap p (some { c with next }) }
    | none => some { h with hashtable := h.hashtable.set hv next }
  return { h with heap := Function.update h.heap a none, nitems := h.nitems - 1 }

/-- The loop of `Hash_delattr`. -/
def delattrLoop (h : LinkedHash V) (k : List Byte) (hv : ℕ) : ℕ → Option ℕ → Option ℕ → Option (ℕ × LinkedHash V)
  | _, _, none => some (0, h)
  | 0, _, some _ => none
  | fuel + 1, prev, some a => do
      let n ← h.heap a
      if stringCmp n.data.key k = 0 then (h.unlink hv prev a n.next).map (1, ·)
      else delattrLoop h k hv fuel (some a) n.next

/-- `Hash_delattr`. -/
def delattr (h : LinkedHash V) (k : List Byte) : Option (ℕ × LinkedHash V) :=
  let hv := stringHash k % h.hashsize
  h.delattrLoop k hv h.nitems none (h.head hv)

/-- The node at `a` is put in front of the chain of its key. -/
def place (newsize a : ℕ) (n : HashNode V) (heap : ℕ → Option (Cell (HashNode V))) (table : List (Option ℕ)) :
    (ℕ → Option (Cell (HashNode V))) × List (Option ℕ) :=
  let hv := stringHash n.key % newsize
  (Function.update heap a (some ⟨n, table.getD hv none⟩), table.set hv (some a))

/-- `resize` on one of the old chains. -/
def replaceChain (newsize : ℕ) : ℕ → (ℕ → Option (Cell (HashNode V))) × List (Option ℕ) → Option ℕ →
    Option ((ℕ → Option (Cell (HashNode V))) × List (Option ℕ))
  | _, s, none => some s
  | 0, _, some _ => none
  | fuel + 1, (heap, table), some a => do
      let n ← heap a
      replaceChain newsize fuel (place newsize a n.data heap table) n.next

def resize (h : LinkedHash V) : Option (LinkedHash V) :=
  if h.nitems < 2 * h.hashsize then some h
  else do
    let newsize := newSize h.hashsize
    let (heap, table) ← h.hashtable.foldlM (replaceChain newsize h.nitems) (h.heap, List.replicate newsize none)
    return { h with heap := heap, hashtable := table }

/-- A node made at `a` is put behind `prev`. -/
def link (h : LinkedHash V) (hv : ℕ) (prev : Option ℕ) (a : ℕ) (n : HashNode V) : Option (LinkedHash V) := do
  let heap := Function.update h.heap a (some ⟨n, none⟩)
  match prev with
  | some p => do
      let c ← heap p
      some { h with heap := Function.update heap p (some { c with next := some a }), nitems := h.nitems + 1 }
  | none => some { hashtable := h.hashtable.set hv (some a), heap, nitems := h.nitems + 1 }

/-- The loop of `Hash_setattr`, where a new node comes at `new`. -/
def setattrLoop (h : LinkedHash V) (k : List Byte) (obj : V) (hv new : ℕ) :
    ℕ → Option ℕ → Option ℕ → Option (ℕ × LinkedHash V)
  | _, prev, none => (h.link hv prev new ⟨k, obj⟩).bind fun h => h.resize.map (0, ·)
  | 0, _, some _ => none
  | fuel + 1, _, some a => do
      let n ← h.heap a
      if stringCmp n.data.key k = 0 then
        some (1, { h with heap := Function.update h.heap a (some { n with data := { n.data with object := obj } }) })
      else setattrLoop h k obj hv new fuel (some a) n.next

/-- `Hash_setattr` with a value that is not null. -/
def setattr (h : LinkedHash V) (k : List Byte) (obj : V) (new : ℕ) : Option (ℕ × LinkedHash V) :=
  let hv := stringHash k % h.hashsize
  h.setattrLoop k obj hv new h.nitems none (h.head hv)

/-- The loop of `Hash_getattr`: the whole chain is scanned. -/
def getattrLoop (h : LinkedHash V) (k : List Byte) : ℕ → Option ℕ → Option V → Option (Option V)
  | _, none, obj => some obj
  | 0, some _, _ => none
  | fuel + 1, some a, obj => do
      let n ← h.heap a
      getattrLoop h k fuel n.next (if stringEqual k n.data.key then some n.data.object else obj)

/-- `Hash_getattr`. -/
def getattr (h : LinkedHash V) (k : List Byte) : Option (Option V) :=
  h.getattrLoop k h.nitems (h.head (stringHash k % h.hashsize)) none

/-! ### The layout -/

/-- The chains of the table are the buckets of `t`. -/
structure Lays (h : LinkedHash V) (t : List (List (ℕ × HashNode V))) : Prop where
  hashsize_eq : h.hashsize = t.length
  chain : ∀ i, Segment h.heap (h.head i) (Buckets.bucket t i) none
  nodup : (t.flatten.map Prod.fst).Nodup

/-- The table without addresses. -/
def plain (t : List (List (ℕ × HashNode V))) (nitems : ℕ) : Hash V :=
  { hashtable := t.map (List.map Prod.snd), nitems }

/-- The table holds the bindings of `m`. -/
structure Holds (h : LinkedHash V) (t : List (List (ℕ × HashNode V))) (m : StringMap V) : Prop where
  lays : h.Lays t
  represents : Represents (plain t h.nitems) m

/-- A table that the methods can have left. -/
def Valid (h : LinkedHash V) (m : StringMap V) : Prop := ∃ t, h.Holds t m

variable {h : LinkedHash V} {t : List (List (ℕ × HashNode V))} {m : StringMap V} {k : List Byte}

theorem getD_set {table : List (Option ℕ)} {i : ℕ} (h : i < table.length) (start : Option ℕ) (j : ℕ) :
    (table.set i start).getD j none = if j = i then start else table.getD j none := by
  rw [List.getD_eq_getElem?_getD, List.getElem?_set, List.getD_eq_getElem?_getD]
  by_cases hj : j = i
  · rw [if_pos hj.symm, if_pos h, if_pos hj, Option.getD_some]
  · rw [if_neg (Ne.symm hj), if_neg hj]

theorem bucket_plain (t : List (List (ℕ × HashNode V))) (nitems i : ℕ) :
    Buckets.bucket (plain t nitems).hashtable i = (Buckets.bucket t i).map Prod.snd := by
  rw [Buckets.bucket, Buckets.bucket, plain, List.getElem?_map]
  cases t[i]? <;> rfl

theorem nodes_plain (t : List (List (ℕ × HashNode V))) (nitems : ℕ) :
    (plain t nitems).nodes = t.flatten.map Prod.snd := by
  rw [Hash.nodes, plain, List.map_flatten]

theorem hashsize_plain (t : List (List (ℕ × HashNode V))) (nitems : ℕ) :
    (plain t nitems).hashsize = t.length := List.length_map _

theorem Lays.bucket_nodup (hl : h.Lays t) (i : ℕ) :
    ((Buckets.bucket t i).map Prod.fst).Nodup := by
  rw [Buckets.bucket]
  cases hi : t[i]? with
  | none => exact List.nodup_nil
  | some c => exact hl.nodup.sublist ((List.sublist_flatten_of_mem (List.mem_of_getElem? hi)).map _)

/-- A chain is no longer than the table counts. -/
theorem Holds.bucket_length (hh : h.Holds t m) (i : ℕ) : (Buckets.bucket t i).length ≤ h.nitems := by
  have hcount : h.nitems = t.flatten.length := by
    have hitems := hh.represents.nitems_eq
    rw [nodes_plain, List.length_map] at hitems
    exact hitems
  rw [hcount, Buckets.bucket]
  cases hi : t[i]? with
  | none => exact Nat.zero_le _
  | some c => exact (List.sublist_flatten_of_mem (List.mem_of_getElem? hi)).length_le

/-- A chain is replaced by one whose cells are its own or new. -/
theorem Lays.setBucket (hl : h.Lays t) {i : ℕ} (hi : i < t.length) {c : List (ℕ × HashNode V)} {start : Option ℕ}
    {heap : ℕ → Option (Cell (HashNode V))} (hc : (c.map Prod.fst).Nodup)
    (hown : ∀ a ∈ c.map Prod.fst, a ∈ (Buckets.bucket t i).map Prod.fst ∨ a ∉ t.flatten.map Prod.fst)
    (hchain : Segment heap start c none)
    (hframe : ∀ a ∈ t.flatten.map Prod.fst, a ∉ (Buckets.bucket t i).map Prod.fst → heap a = h.heap a) (nitems : ℕ) :
    Lays { hashtable := h.hashtable.set i start, heap, nitems } (t.set i c) := by
  have hlen := hl.hashsize_eq
  have hi' : i < h.hashtable.length := by rwa [← hashsize, hlen]
  have hmem {j : ℕ} {a : ℕ} (ha : a ∈ (Buckets.bucket t j).map Prod.fst) : a ∈ t.flatten.map Prod.fst := by
    obtain ⟨n, hn, rfl⟩ := List.mem_map.mp ha
    exact List.mem_map_of_mem (Buckets.mem_bucket_iff.mpr ⟨j, hn⟩)
  have hapart {j : ℕ} (hj : j ≠ i) {a : ℕ} (ha : a ∈ (Buckets.bucket t j).map Prod.fst) :
      a ∉ (Buckets.bucket t i).map Prod.fst := by
    intro ha'
    obtain ⟨n, hn, rfl⟩ := List.mem_map.mp ha
    obtain ⟨n', hn', heq⟩ := List.mem_map.mp ha'
    exact Buckets.label_ne hl.nodup hj hn' hn heq
  refine ⟨by simpa [hashsize] using hlen, fun j => ?_, ?_⟩
  · rw [Buckets.bucket_set hi, head, getD_set hi']
    by_cases hj : j = i
    · rw [if_pos hj, if_pos hj]
      exact hchain
    · rw [if_neg hj, if_neg hj]
      exact (hl.chain j).congr fun a ha => hframe a (hmem ha) (hapart hj ha)
  · obtain ⟨rest, hperm, hset⟩ := Buckets.exists_flatten_set_perm hi
    have hnodup := (hperm.map Prod.fst).nodup_iff.mp hl.nodup
    rw [List.map_append] at hnodup
    refine ((hset c).map Prod.fst).nodup_iff.mpr ?_
    rw [List.map_append]
    refine hc.append hnodup.of_append_right fun a ha hrest => ?_
    obtain hold | hnew := hown a ha
    · exact List.disjoint_of_nodup_append hnodup hold hrest
    · refine hnew ((hperm.map Prod.fst).mem_iff.mpr ?_)
      rw [List.map_append]
      exact List.mem_append_right _ hrest

theorem Lays.set_head (hl : h.Lays t) {i : ℕ} (hi : i < t.length) : h.hashtable.set i (h.head i) = h.hashtable := by
  have hi' : i < h.hashtable.length := by rwa [← hashsize, hl.hashsize_eq]
  rw [head, List.getD_eq_getElem?_getD, List.getElem?_eq_getElem hi', Option.getD_some, List.set_getElem_self]

/-! ### Deleting -/

def last (l : List (ℕ × HashNode V)) : Option ℕ := l.getLast?.map Prod.fst

theorem delattrLoop_cons {l : List (ℕ × HashNode V)} {a : ℕ} {n : HashNode V} (k : List Byte) (hv fuel : ℕ)
    (prev : Option ℕ)
    (hl : Segment h.heap (first ((a, n) :: l)) ((a, n) :: l) none) :
    h.delattrLoop k hv (fuel + 1) prev (first ((a, n) :: l)) =
        (if n.key = k then (h.unlink hv prev a (first l)).map (1, ·)
          else h.delattrLoop k hv fuel (some a) (first l)) ∧
      Segment h.heap (first l) l none := by
  have hcell := hl.load
  obtain ⟨-, next, -, hrest⟩ := hl
  refine ⟨?_, hrest.start_eq ▸ hrest⟩
  rw [first, List.head?_cons, Option.map_some, delattrLoop, hcell]
  simp only [← stringCmp_eq_zero_iff]
  rfl

/-- The walk along a chain stops at the node of the key. -/
theorem delattrLoop_found {front back : List (ℕ × HashNode V)} {hv fuel a : ℕ} {n : HashNode V} (prev : Option ℕ)
    (hl : Segment h.heap (first (front ++ (a, n) :: back)) (front ++ (a, n) :: back) none)
    (hfuel : (front ++ (a, n) :: back).length ≤ fuel) (hfront : ∀ c ∈ front, c.2.key ≠ n.key) :
    h.delattrLoop n.key hv fuel prev (first (front ++ (a, n) :: back)) =
      (h.unlink hv ((last front).or prev) a (first back)).map (1, ·) := by
  induction front generalizing fuel prev with
  | nil =>
      obtain ⟨fuel, rfl⟩ : ∃ f, fuel = f + 1 := Nat.exists_eq_succ_of_ne_zero (by rintro rfl; cases hfuel)
      rw [List.nil_append, (delattrLoop_cons n.key hv fuel prev hl).1, if_pos rfl]
      rfl
  | cons c front ih =>
      obtain ⟨fuel, rfl⟩ : ∃ f, fuel = f + 1 := Nat.exists_eq_succ_of_ne_zero (by rintro rfl; cases hfuel)
      obtain ⟨a', n'⟩ := c
      rw [List.cons_append] at hl hfuel ⊢
      obtain ⟨hc, hrest⟩ := List.forall_mem_cons.mp hfront
      obtain ⟨hstep, hl'⟩ := delattrLoop_cons n.key hv fuel prev hl
      rw [hstep, if_neg hc, ih (some a') hl' (Nat.le_of_succ_le_succ hfuel) hrest, last, last,
        List.getLast?_cons]
      cases front.getLast? <;> rfl

theorem delattrLoop_missing {l : List (ℕ × HashNode V)} {hv fuel : ℕ} (prev : Option ℕ)
    (hl : Segment h.heap (first l) l none) (hfuel : l.length ≤ fuel) (hkey : ∀ c ∈ l, c.2.key ≠ k) :
    h.delattrLoop k hv fuel prev (first l) = some (0, h) := by
  induction l generalizing fuel prev with
  | nil => cases fuel <;> rfl
  | cons c l ih =>
      obtain ⟨fuel, rfl⟩ : ∃ f, fuel = f + 1 := Nat.exists_eq_succ_of_ne_zero (by rintro rfl; cases hfuel)
      obtain ⟨a', n'⟩ := c
      obtain ⟨hc, hrest⟩ := List.forall_mem_cons.mp hkey
      obtain ⟨hstep, hl'⟩ := delattrLoop_cons k hv fuel prev hl
      rw [hstep, if_neg hc, ih (some a') hl' (Nat.le_of_succ_le_succ hfuel) hrest]

theorem mem_addresses {i : ℕ} {c : ℕ × HashNode V} (hc : c ∈ Buckets.bucket t i) : c.1 ∈ t.flatten.map Prod.fst :=
  List.mem_map_of_mem (Buckets.mem_bucket_iff.mpr ⟨i, hc⟩)

theorem unlink_spec (hl : h.Lays t) {i a : ℕ} {n : HashNode V} {front back : List (ℕ × HashNode V)}
    (hi : Buckets.bucket t i = front ++ (a, n) :: back) : ∃ h', h.unlink i (last front) a (first back) = some h' ∧
      h'.Lays (t.set i (front ++ back)) ∧ h'.nitems = h.nitems - 1 ∧ h'.heap a = none := by
  have hlt : i < t.length := Buckets.lt_length_of_mem (hi ▸ List.mem_append_right front List.mem_cons_self)
  have hchain := hl.chain i
  have hnodup := hl.bucket_nodup i
  rw [hi] at hchain hnodup
  have hsub : ((front ++ back).map Prod.fst).Sublist ((front ++ (a, n) :: back).map Prod.fst) :=
    ((List.Sublist.refl front).append (List.sublist_cons_self _ back)).map _
  have hown : ∀ b ∈ (front ++ back).map Prod.fst,
      b ∈ (Buckets.bucket t i).map Prod.fst ∨ b ∉ t.flatten.map Prod.fst := by
    intro b hb
    rw [hi]
    exact .inl (hsub.subset hb)
  have ha : a ∈ (Buckets.bucket t i).map Prod.fst := by simp [hi]
  have hne : ∀ b, b ∉ (Buckets.bucket t i).map Prod.fst → b ≠ a := by
    rintro b hb rfl
    exact hb ha
  rw [unlink.eq_def]
  obtain rfl | ⟨front, ⟨p, y⟩, rfl⟩ := List.eq_nil_or_concat' front
  · refine ⟨_, rfl, ?_, rfl, Function.update_self _ _ _⟩
    refine hl.setBucket hlt (hnodup.sublist hsub) hown (hchain.tail ?_) ?_ _
    · exact (List.nodup_cons.mp hnodup).1
    · exact fun b _ hb => Function.update_of_ne (hne b hb) _ _
  · have hp : p ∈ (Buckets.bucket t i).map Prod.fst := by simp [hi]
    have hload : h.heap p = some ⟨y, some a⟩ := by
      have hsplit := hchain
      rw [List.append_assoc] at hsplit
      obtain ⟨mid, -, hrest⟩ := hsplit.of_append
      exact hrest.load
    have hlast : last (front ++ [(p, y)]) = some p := by simp [last]
    rw [hlast]
    dsimp only
    rw [hload]
    refine ⟨_, rfl, ?_, rfl, Function.update_self _ _ _⟩
    have hlays := hl.setBucket hlt (hnodup.sublist hsub) hown (hchain.unlink hnodup) ?_ (h.nitems - 1)
    · rwa [hl.set_head hlt] at hlays
    · intro b _ hb
      have hbp : b ≠ p := by
        rintro rfl
        exact hb hp
      rw [Function.update_of_ne (hne b hb), Function.update_of_ne hbp]

theorem plain_set (t : List (List (ℕ × HashNode V))) (i : ℕ) (c : List (ℕ × HashNode V)) (nitems : ℕ) :
    plain (t.set i c) nitems =
      { hashtable := (plain t nitems).hashtable.set i (c.map Prod.snd), nitems } := by
  rw [plain, plain, List.map_set]

theorem deleteChain_append {front back : List (HashNode V)} {n : HashNode V} (hn : n.key = k)
    (hfront : ∀ n' ∈ front, n'.key ≠ k) : deleteChain k (front ++ n :: back) = some (front ++ back) := by
  induction front with
  | nil => rw [List.nil_append, deleteChain, if_pos (stringCmp_eq_zero_iff.mpr hn), List.nil_append]
  | cons n' front ih =>
      obtain ⟨hn', hrest⟩ := List.forall_mem_cons.mp hfront
      rw [List.cons_append, deleteChain, if_neg (mt stringCmp_eq_zero_iff.mp hn'), ih hrest, Option.map_some,
        List.cons_append]

theorem Holds.slot (hh : h.Holds t m) {i : ℕ} {c : ℕ × HashNode V} (hc : c ∈ Buckets.bucket t i) :
    stringHash c.2.key % h.hashsize = i := by
  have hplaced := hh.represents.placed i c.2
  rw [bucket_plain, hashsize_plain, ← hh.lays.hashsize_eq] at hplaced
  exact hplaced (List.mem_map_of_mem hc)

/-- A key stands once in a chain. -/
theorem Holds.key_ne (hh : h.Holds t m) {i a : ℕ} {n : HashNode V} {front back : List (ℕ × HashNode V)}
    (hi : Buckets.bucket t i = front ++ (a, n) :: back) : ∀ c ∈ front, c.2.key ≠ n.key := by
  have hlt : i < t.length := Buckets.lt_length_of_mem (hi ▸ List.mem_append_right front List.mem_cons_self)
  have hnodup := hh.represents.binds.nodup
  have hsub : (Buckets.bucket t i).Sublist t.flatten := by
    rw [Buckets.bucket_eq_getElem hlt]
    exact List.sublist_flatten_of_mem (List.getElem_mem hlt)
  rw [nodes_plain, List.map_map] at hnodup
  have hchain := hnodup.sublist (hsub.map _)
  rw [hi, List.map_append, List.map_cons] at hchain
  intro c hc heq
  exact (List.nodup_append.mp hchain).2.2 _ (List.mem_map_of_mem hc) _ List.mem_cons_self heq

/-- Deleting the key of a node frees that node and takes it out of its chain. -/
theorem delattr_spec (hh : h.Holds t m) {i a : ℕ} {n : HashNode V} {front back : List (ℕ × HashNode V)}
    (hi : Buckets.bucket t i = front ++ (a, n) :: back) : ∃ h', h.delattr n.key = some (1, h') ∧
      h'.Holds (t.set i (front ++ back)) (m.erase n.key) ∧ h'.heap a = none := by
  have hlt : i < t.length := Buckets.lt_length_of_mem (hi ▸ List.mem_append_right front List.mem_cons_self)
  have hslot : stringHash n.key % h.hashsize = i :=
    hh.slot (hi ▸ List.mem_append_right front List.mem_cons_self : (a, n) ∈ Buckets.bucket t i)
  have hfront := hh.key_ne hi
  have hchain := hh.lays.chain i
  have hlen := hh.bucket_length i
  rw [hi] at hchain hlen
  have hstart := hchain.start_eq
  rw [hstart] at hchain
  obtain ⟨h', hunlink, hlays, hnitems, hfreed⟩ := unlink_spec hh.lays hi
  refine ⟨h', ?_, ⟨hlays, ?_⟩, hfreed⟩
  · rw [delattr, hslot, hstart, delattrLoop_found none hchain hlen hfront, Option.or_none, hunlink]
    rfl
  · have hdelete := (hh.represents.deleteObject n.key).2
    have hchain' : deleteChain n.key ((front ++ (a, n) :: back).map Prod.snd) =
        some ((front ++ back).map Prod.snd) := by
      rw [List.map_append, List.map_cons, deleteChain_append rfl, List.map_append]
      intro n' hn'
      obtain ⟨c, hc, rfl⟩ := List.mem_map.mp hn'
      exact hfront c hc
    rw [deleteObject, hashsize_plain, ← hh.lays.hashsize_eq, hslot, bucket_plain, hi, hchain'] at hdelete
    rw [plain_set, hnitems]
    exact hdelete

/-! ### Setting -/

/-- A cell of the layout is allocated. -/
theorem Lays.heap_isSome (hl : h.Lays t) {a : ℕ} (ha : a ∈ t.flatten.map Prod.fst) : (h.heap a).isSome := by
  obtain ⟨⟨b, n⟩, hc, rfl⟩ := List.mem_map.mp ha
  obtain ⟨i, hi⟩ := Buckets.mem_bucket_iff.mp hc
  obtain ⟨front, back, hsplit⟩ := List.append_of_mem hi
  have hchain := hl.chain i
  rw [hsplit] at hchain
  obtain ⟨mid, -, hrest⟩ := hchain.of_append
  rw [hrest.load]
  rfl

theorem Lays.fresh (hl : h.Lays t) {a : ℕ} (ha : h.heap a = none) : a ∉ t.flatten.map Prod.fst := by
  intro hmem
  have hsome := hl.heap_isSome hmem
  rw [ha] at hsome
  cases hsome

theorem link_spec (hl : h.Lays t) {i new : ℕ} (hi : i < t.length) (hnew : h.heap new = none) (n : HashNode V) :
    ∃ h', h.link i (last (Buckets.bucket t i)) new n = some h' ∧
      h'.Lays (t.set i (Buckets.bucket t i ++ [(new, n)])) ∧ h'.nitems = h.nitems + 1 := by
  have hfresh := hl.fresh hnew
  have hchain := hl.chain i
  have hnodup := hl.bucket_nodup i
  have hbucket : ∀ b ∈ (Buckets.bucket t i).map Prod.fst, b ∈ t.flatten.map Prod.fst := by
    intro b hb
    obtain ⟨c, hc, rfl⟩ := List.mem_map.mp hb
    exact mem_addresses hc
  have hnotin : new ∉ (Buckets.bucket t i).map Prod.fst := fun hmem => hfresh (hbucket new hmem)
  have hall : ((Buckets.bucket t i ++ [(new, n)]).map Prod.fst).Nodup := by
    rw [List.map_append]
    refine hnodup.append (List.nodup_singleton _) fun b hb hb' => ?_
    obtain rfl := List.mem_singleton.mp hb'
    exact hnotin hb
  have hown : ∀ b ∈ (Buckets.bucket t i ++ [(new, n)]).map Prod.fst,
      b ∈ (Buckets.bucket t i).map Prod.fst ∨ b ∉ t.flatten.map Prod.fst := by
    intro b hb
    rw [List.map_append] at hb
    obtain hb | hb := List.mem_append.mp hb
    · exact .inl hb
    · exact .inr (List.mem_singleton.mp hb ▸ hfresh)
  have hne : ∀ b ∈ t.flatten.map Prod.fst, b ≠ new := by
    rintro b hb rfl
    exact hfresh hb
  rw [link.eq_def]
  obtain hempty | ⟨l, ⟨p, y⟩, hlast⟩ := List.eq_nil_or_concat' (Buckets.bucket t i)
  · rw [hempty] at hall hown hbucket ⊢
    refine ⟨_, rfl, hl.setBucket hi hall (hempty ▸ hown) ?_ ?_ _, rfl⟩
    · exact ⟨rfl, none, Function.update_self _ _ _, rfl⟩
    · exact fun b hb _ => Function.update_of_ne (hne b hb) _ _
  · have hp : p ∈ (Buckets.bucket t i).map Prod.fst := by simp [hlast]
    have hload : Function.update h.heap new (some ⟨n, none⟩) p = some ⟨y, none⟩ := by
      have hsplit := hchain
      rw [hlast] at hsplit
      obtain ⟨mid, -, hrest⟩ := hsplit.of_append
      rw [Function.update_of_ne (hne p (hbucket p hp))]
      exact hrest.load
    have hprev : last (Buckets.bucket t i) = some p := by simp [last, hlast]
    rw [hprev]
    dsimp only
    rw [hload]
    refine ⟨_, rfl, ?_, rfl⟩
    have hchain' : Segment (Function.update (Function.update h.heap new (some ⟨n, none⟩)) p (some ⟨y, some new⟩))
        (h.head i) (Buckets.bucket t i ++ [(new, n)]) none := by
      rw [hlast] at hchain hnodup hnotin ⊢
      refine hchain.snoc ?_ hnotin
      rw [List.map_append] at hnodup
      exact fun hmem => (List.nodup_append.mp hnodup).2.2 p hmem p List.mem_cons_self rfl
    have hframe : ∀ b ∈ t.flatten.map Prod.fst, b ∉ (Buckets.bucket t i).map Prod.fst →
        Function.update (Function.update h.heap new (some ⟨n, none⟩)) p (some ⟨y, some new⟩) b = h.heap b := by
      intro b hb hout
      have hbp : b ≠ p := by
        rintro rfl
        exact hout hp
      rw [Function.update_of_ne hbp, Function.update_of_ne (hne b hb)]
    have hlays := hl.setBucket hi hall hown hchain' hframe (h.nitems + 1)
    rwa [hl.set_head hi] at hlays

/-! ### The new table -/

/-- While `resize` works: `todo` are the old chains from the current one on, and the new chains
are the buckets of `t`. -/
structure Replacing (heap : ℕ → Option (Cell (HashNode V))) (table : List (Option ℕ))
    (todo t : List (List (ℕ × HashNode V))) : Prop where
  length_eq : table.length = t.length
  chain : ∀ i, Segment heap (table.getD i none) (Buckets.bucket t i) none
  old : ∀ l ∈ todo, Segment heap (first l) l none
  nodup : ((todo.flatten ++ t.flatten).map Prod.fst).Nodup

/-- The nodes of a chain in front of the chains of their keys. -/
def placeAll (newsize : ℕ) (t : List (List (ℕ × HashNode V))) (l : List (ℕ × HashNode V)) :
    List (List (ℕ × HashNode V)) :=
  Buckets.distribute (fun c => stringHash c.2.key % newsize) t l

theorem Replacing.place {heap : ℕ → Option (Cell (HashNode V))} {table : List (Option ℕ)}
    {l : List (ℕ × HashNode V)} {todo : List (List (ℕ × HashNode V))} {a : ℕ} {n : HashNode V} {newsize : ℕ}
    (hr : Replacing heap table (((a, n) :: l) :: todo) t) (hsize : t.length = newsize) (hpos : 0 < newsize) :
    Replacing (place newsize a n heap table).1 (place newsize a n heap table).2 (l :: todo)
      (Buckets.push t (stringHash n.key % newsize) (a, n)) := by
  have hlt : stringHash n.key % newsize < t.length := hsize.symm ▸ Nat.mod_lt _ hpos
  have hperm : ((((a, n) :: l) :: todo).flatten ++ t.flatten).Perm ((a, n) :: ((l :: todo).flatten ++ t.flatten)) :=
    List.Perm.refl _
  have hnodup := hr.nodup
  rw [(hperm.map Prod.fst).nodup_iff, List.map_cons, List.nodup_cons, List.map_append, List.mem_append,
    not_or] at hnodup
  obtain ⟨⟨holds, hnew⟩, hrest⟩ : (a ∉ (l :: todo).flatten.map Prod.fst ∧ a ∉ t.flatten.map Prod.fst) ∧ _ := hnodup
  have hbucket (i : ℕ) : a ∉ (Buckets.bucket t i).map Prod.fst := by
    intro hmem
    obtain ⟨⟨b, n'⟩, hc, rfl⟩ := List.mem_map.mp hmem
    exact hnew (mem_addresses hc)
  have hlist : ∀ l' ∈ l :: todo, a ∉ l'.map Prod.fst := by
    intro l' hl' hmem
    obtain ⟨⟨b, n'⟩, hc, rfl⟩ := List.mem_map.mp hmem
    exact holds (List.mem_map_of_mem (List.mem_flatten.mpr ⟨l', hl', hc⟩))
  obtain ⟨hcur, hothers⟩ := List.forall_mem_cons.mp hr.old
  obtain ⟨-, next, -, hl⟩ := hcur
  refine ⟨?_, fun i => ?_, ?_, ?_⟩
  · rw [LinkedHash.place, Buckets.length_push, List.length_set, hr.length_eq]
  · rw [LinkedHash.place, Buckets.push, Buckets.bucket_set hlt]
    dsimp only
    rw [getD_set (hr.length_eq.symm ▸ hlt)]
    by_cases hi : i = stringHash n.key % newsize
    · rw [if_pos hi, if_pos hi]
      exact (hr.chain _).cons (hbucket _)
    · rw [if_neg hi, if_neg hi]
      exact (hr.chain i).update (hbucket i) _
  · refine List.forall_mem_cons.mpr ⟨?_, fun l' hl' => ?_⟩
    · exact (hl.start_eq ▸ hl).update (hlist l List.mem_cons_self) _
    · exact (hothers l' hl').update (hlist l' (List.mem_cons_of_mem l hl')) _
  · have hpush := Buckets.flatten_push_perm hlt (a, n)
    have hmoved : ((l :: todo).flatten ++ (Buckets.push t (stringHash n.key % newsize) (a, n)).flatten).Perm
        ((a, n) :: ((l :: todo).flatten ++ t.flatten)) := (hpush.append_left _).trans List.perm_middle
    rw [(hmoved.map Prod.fst).nodup_iff, List.map_cons, List.nodup_cons, List.map_append, List.mem_append, not_or]
    exact ⟨⟨holds, hnew⟩, hrest⟩

theorem replaceChain_spec {heap : ℕ → Option (Cell (HashNode V))} {table : List (Option ℕ)}
    {l : List (ℕ × HashNode V)} {todo : List (List (ℕ × HashNode V))} {newsize fuel : ℕ}
    (hr : Replacing heap table (l :: todo) t) (hsize : t.length = newsize) (hpos : 0 < newsize)
    (hfuel : l.length ≤ fuel) : ∃ heap' table', replaceChain newsize fuel (heap, table) (first l) =
      some (heap', table') ∧ Replacing heap' table' todo (placeAll newsize t l) := by
  induction l generalizing heap table t fuel with
  | nil =>
      refine ⟨heap, table, by cases fuel <;> rfl, hr.length_eq, hr.chain, ?_, hr.nodup⟩
      exact (List.forall_mem_cons.mp hr.old).2
  | cons c l ih =>
      obtain ⟨a, n⟩ := c
      obtain ⟨fuel, rfl⟩ : ∃ f, fuel = f + 1 := Nat.exists_eq_succ_of_ne_zero (by rintro rfl; cases hfuel)
      have hcell := (hr.old _ List.mem_cons_self).load
      have hlen : (Buckets.push t (stringHash n.key % newsize) (a, n)).length = newsize := by
        rw [Buckets.length_push, hsize]
      obtain ⟨heap', table', hloop, hr'⟩ := ih (hr.place hsize hpos) hlen (Nat.le_of_succ_le_succ hfuel)
      refine ⟨heap', table', ?_, hr'⟩
      rw [first, List.head?_cons, Option.map_some, replaceChain, hcell]
      exact hloop

theorem replaceChains_spec {todo : List (List (ℕ × HashNode V))} {heap : ℕ → Option (Cell (HashNode V))}
    {table : List (Option ℕ)} {newsize fuel : ℕ} (hr : Replacing heap table todo t) (hsize : t.length = newsize)
    (hpos : 0 < newsize) (hfuel : ∀ l ∈ todo, l.length ≤ fuel) : ∃ heap' table',
      (todo.map first).foldlM (replaceChain newsize fuel) (heap, table) = some (heap', table') ∧
        Replacing heap' table' [] (todo.foldl (placeAll newsize) t) := by
  induction todo generalizing heap table t with
  | nil => exact ⟨heap, table, rfl, hr⟩
  | cons l todo ih =>
      obtain ⟨hl, hrest⟩ := List.forall_mem_cons.mp hfuel
      obtain ⟨heap₁, table₁, hchain, hr₁⟩ := replaceChain_spec hr hsize hpos hl
      have hlen : (placeAll newsize t l).length = newsize := by
        rw [placeAll, Buckets.length_distribute, hsize]
      obtain ⟨heap', table', hloop, hr'⟩ := ih hr₁ hlen hrest
      refine ⟨heap', table', ?_, hr'⟩
      rw [List.map_cons, List.foldlM_cons, hchain]
      exact hloop

/-- Putting in place commutes with leaving out the addresses. -/
theorem map_placeAll (newsize : ℕ) (t : List (List (ℕ × HashNode V))) (l : List (ℕ × HashNode V)) :
    (placeAll newsize t l).map (List.map Prod.snd) = (l.map Prod.snd).foldl
      (fun table n => Buckets.push table (stringHash n.key % newsize) n) (t.map (List.map Prod.snd)) := by
  induction l generalizing t with
  | nil => rfl
  | cons c l ih =>
      have hpush : (Buckets.push t (stringHash c.2.key % newsize) c).map (List.map Prod.snd) =
          Buckets.push (t.map (List.map Prod.snd)) (stringHash c.2.key % newsize) c.2 := by
        have hbucket := bucket_plain t 0 (stringHash c.2.key % newsize)
        rw [Buckets.push, List.map_set, List.map_cons, ← hbucket]
        rfl
      rw [List.map_cons, List.foldl_cons, ← hpush]
      exact ih _

theorem map_placeChains (newsize : ℕ) (todo t : List (List (ℕ × HashNode V))) :
    (todo.foldl (placeAll newsize) t).map (List.map Prod.snd) = (todo.map (List.map Prod.snd)).foldl
      (fun table chain => chain.foldl (fun table n => Buckets.push table (stringHash n.key % newsize) n) table)
      (t.map (List.map Prod.snd)) := by
  induction todo generalizing t with
  | nil => rfl
  | cons l todo ih => rw [List.foldl_cons, ih, map_placeAll, List.map_cons, List.foldl_cons]

theorem Lays.hashtable_eq (hl : h.Lays t) : h.hashtable = t.map first := by
  refine List.ext_getElem (by simpa [hashsize] using hl.hashsize_eq) fun i hi hi' => ?_
  have hlt : i < t.length := by simpa using hi'
  have hstart := (hl.chain i).start_eq
  rw [head, List.getD_eq_getElem?_getD, List.getElem?_eq_getElem hi, Option.getD_some,
    Buckets.bucket_eq_getElem hlt] at hstart
  rw [hstart, List.getElem_map]

/-- `resize` starts with the old chains and a table of empty ones. -/
theorem Lays.replacing (hl : h.Lays t) (newsize : ℕ) :
    Replacing h.heap (List.replicate newsize none) t (List.replicate newsize []) := by
  refine ⟨by simp, fun i => ?_, fun l hmem => ?_, ?_⟩
  · rw [Buckets.bucket_replicate, List.getD_eq_getElem?_getD, List.getElem?_replicate]
    split <;> rfl
  · obtain ⟨i, hi, rfl⟩ := List.getElem_of_mem hmem
    have hchain := hl.chain i
    rw [Buckets.bucket_eq_getElem hi] at hchain
    exact hchain.start_eq ▸ hchain
  · have hnone : (List.replicate newsize ([] : List (ℕ × HashNode V))).flatten = [] := by simp
    rw [hnone, List.append_nil]
    exact hl.nodup

/-- The table after `resize` holds the same bindings. -/
theorem resize_spec (hh : h.Holds t m) : ∃ h' t', h.resize = some h' ∧ h'.Holds t' m ∧
    (h.nitems < 2 * h.hashsize → h' = h ∧ t' = t) := by
  by_cases hsmall : h.nitems < 2 * h.hashsize
  · exact ⟨h, t, by rw [resize, if_pos hsmall], hh, fun _ => ⟨rfl, rfl⟩⟩
  · have hpos := newSize_pos h.hashsize
    have hstart := hh.lays.replacing (newSize h.hashsize)
    have hfuel : ∀ l ∈ t, l.length ≤ h.nitems := by
      intro l hl
      obtain ⟨i, hi, rfl⟩ := List.getElem_of_mem hl
      have hlen := hh.bucket_length i
      rwa [Buckets.bucket_eq_getElem hi] at hlen
    obtain ⟨heap, table, hloop, hr⟩ := replaceChains_spec hstart (List.length_replicate ..) hpos hfuel
    refine ⟨{ h with heap := heap, hashtable := table },
      t.foldl (placeAll (newSize h.hashsize)) (List.replicate (newSize h.hashsize) []), ?_, ⟨?_, ?_⟩,
      fun hlt => absurd hlt hsmall⟩
    · rw [← hh.lays.hashtable_eq] at hloop
      rw [resize, if_neg hsmall]
      dsimp only
      rw [hloop]
      rfl
    · exact ⟨hr.length_eq, hr.chain, hr.nodup⟩
    · have hresize := hh.represents.resize
      rw [DOH.resize, hashsize_plain, if_neg (hh.lays.hashsize_eq ▸ hsmall)] at hresize
      rw [plain, map_placeChains, List.map_replicate]
      rw [← hh.lays.hashsize_eq] at hresize
      exact hresize

/-! ### Setting attributes -/

variable {obj : V}

theorem setattrLoop_cons {l : List (ℕ × HashNode V)} {a : ℕ} {n : HashNode V} (k : List Byte) (obj : V)
    (hv new fuel : ℕ) (prev : Option ℕ) (hl : Segment h.heap (first ((a, n) :: l)) ((a, n) :: l) none) :
    h.setattrLoop k obj hv new (fuel + 1) prev (first ((a, n) :: l)) =
        (if n.key = k then some (1, { h with heap := Function.update h.heap a (some ⟨⟨n.key, obj⟩, first l⟩) })
          else h.setattrLoop k obj hv new fuel (some a) (first l)) ∧
      Segment h.heap (first l) l none := by
  have hcell := hl.load
  obtain ⟨-, next, -, hrest⟩ := hl
  refine ⟨?_, hrest.start_eq ▸ hrest⟩
  rw [first, List.head?_cons, Option.map_some, setattrLoop, hcell]
  simp only [← stringCmp_eq_zero_iff]
  rfl

theorem setattrLoop_found {front back : List (ℕ × HashNode V)} {hv new fuel a : ℕ} {n : HashNode V} (prev : Option ℕ)
    (hl : Segment h.heap (first (front ++ (a, n) :: back)) (front ++ (a, n) :: back) none)
    (hfuel : (front ++ (a, n) :: back).length ≤ fuel) (hfront : ∀ c ∈ front, c.2.key ≠ n.key) :
    h.setattrLoop n.key obj hv new fuel prev (first (front ++ (a, n) :: back)) =
      some (1, { h with heap := Function.update h.heap a (some ⟨⟨n.key, obj⟩, first back⟩) }) := by
  induction front generalizing fuel prev with
  | nil =>
      obtain ⟨fuel, rfl⟩ : ∃ f, fuel = f + 1 := Nat.exists_eq_succ_of_ne_zero (by rintro rfl; cases hfuel)
      rw [List.nil_append, (setattrLoop_cons n.key obj hv new fuel prev hl).1, if_pos rfl]
  | cons c front ih =>
      obtain ⟨fuel, rfl⟩ : ∃ f, fuel = f + 1 := Nat.exists_eq_succ_of_ne_zero (by rintro rfl; cases hfuel)
      obtain ⟨a', n'⟩ := c
      rw [List.cons_append] at hl hfuel ⊢
      obtain ⟨hc, hrest⟩ := List.forall_mem_cons.mp hfront
      obtain ⟨hstep, hl'⟩ := setattrLoop_cons n.key obj hv new fuel prev hl
      rw [hstep, if_neg hc, ih (some a') hl' (Nat.le_of_succ_le_succ hfuel) hrest]

theorem setattrLoop_missing {l : List (ℕ × HashNode V)} {hv new fuel : ℕ} (prev : Option ℕ)
    (hl : Segment h.heap (first l) l none) (hfuel : l.length ≤ fuel) (hkey : ∀ c ∈ l, c.2.key ≠ k) :
    h.setattrLoop k obj hv new fuel prev (first l) =
      (h.link hv ((last l).or prev) new ⟨k, obj⟩).bind fun h => h.resize.map (0, ·) := by
  induction l generalizing fuel prev with
  | nil => cases fuel <;> rfl
  | cons c l ih =>
      obtain ⟨fuel, rfl⟩ : ∃ f, fuel = f + 1 := Nat.exists_eq_succ_of_ne_zero (by rintro rfl; cases hfuel)
      obtain ⟨a', n'⟩ := c
      obtain ⟨hc, hrest⟩ := List.forall_mem_cons.mp hkey
      obtain ⟨hstep, hl'⟩ := setattrLoop_cons k obj hv new fuel prev hl
      rw [hstep, if_neg hc, ih (some a') hl' (Nat.le_of_succ_le_succ hfuel) hrest, last, last, List.getLast?_cons]
      cases l.getLast? <;> rfl

theorem setChain_append [DecidableEq V] {front back : List (HashNode V)} {n : HashNode V}
    (hfront : ∀ n' ∈ front, n'.key ≠ n.key) :
    setChain n.key obj (front ++ n :: back) = some (front ++ ⟨n.key, obj⟩ :: back) := by
  induction front with
  | nil =>
      rw [List.nil_append, setChain, if_pos (stringCmp_eq_zero_iff.mpr rfl)]
      split
      case isTrue heq => rw [← heq, List.nil_append]
      case isFalse => rfl
  | cons n' front ih =>
      obtain ⟨hn', hrest⟩ := List.forall_mem_cons.mp hfront
      rw [List.cons_append, setChain, if_neg (mt stringCmp_eq_zero_iff.mp hn'), ih hrest, Option.map_some,
        List.cons_append]

/-- The object of a node is replaced where the node is. -/
theorem setattr_found [DecidableEq V] (hh : h.Holds t m) {i a : ℕ} {n : HashNode V}
    {front back : List (ℕ × HashNode V)} (hi : Buckets.bucket t i = front ++ (a, n) :: back) (obj : V) (new : ℕ) :
    ∃ h', h.setattr n.key obj new = some (1, h') ∧
      h'.Holds (t.set i (front ++ (a, ⟨n.key, obj⟩) :: back)) (m.insert n.key obj) := by
  have hmem : (a, n) ∈ Buckets.bucket t i := hi ▸ List.mem_append_right front List.mem_cons_self
  have hlt : i < t.length := Buckets.lt_length_of_mem hmem
  have hslot : stringHash n.key % h.hashsize = i := hh.slot hmem
  have hfront := hh.key_ne hi
  have hchain := hh.lays.chain i
  have hlen := hh.bucket_length i
  have hnodup := hh.lays.bucket_nodup i
  rw [hi] at hchain hlen hnodup
  have hstart := hchain.start_eq
  refine ⟨{ h with heap := Function.update h.heap a (some ⟨⟨n.key, obj⟩, first back⟩) }, ?_, ?_, ?_⟩
  · rw [setattr, hslot, hstart, setattrLoop_found none (hstart ▸ hchain) hlen hfront]
  · have haddr : (front ++ (a, (⟨n.key, obj⟩ : HashNode V)) :: back).map Prod.fst =
        (front ++ (a, n) :: back).map Prod.fst := by
      rw [List.map_append, List.map_append, List.map_cons, List.map_cons]
    have hown : ∀ b ∈ (front ++ (a, (⟨n.key, obj⟩ : HashNode V)) :: back).map Prod.fst,
        b ∈ (Buckets.bucket t i).map Prod.fst ∨ b ∉ t.flatten.map Prod.fst := by
      intro b hb
      rw [hi]
      exact .inl (haddr ▸ hb)
    have hframe : ∀ b ∈ t.flatten.map Prod.fst, b ∉ (Buckets.bucket t i).map Prod.fst →
        Function.update h.heap a (some ⟨⟨n.key, obj⟩, first back⟩) b = h.heap b := by
      intro b _ hout
      refine Function.update_of_ne ?_ _ _
      rintro rfl
      exact hout (List.mem_map_of_mem hmem)
    have hlays := hh.lays.setBucket hlt (haddr.symm ▸ hnodup) hown (hchain.setData hnodup _) hframe h.nitems
    rwa [hh.lays.set_head hlt] at hlays
  · have hset := (hh.represents.setObject n.key obj).2
    have hfront' : ∀ n' ∈ front.map Prod.snd, n'.key ≠ n.key := by
      intro n' hn'
      obtain ⟨c, hc, rfl⟩ := List.mem_map.mp hn'
      exact hfront c hc
    have hchain' : setChain n.key obj ((front ++ (a, n) :: back).map Prod.snd) =
        some ((front ++ (a, (⟨n.key, obj⟩ : HashNode V)) :: back).map Prod.snd) := by
      rw [List.map_append, List.map_cons, setChain_append hfront', List.map_append, List.map_cons]
    rw [setObject, hashsize_plain, ← hh.lays.hashsize_eq, hslot, bucket_plain, hi, hchain'] at hset
    rw [plain_set]
    exact hset

/-- A node of a new key comes behind the last one of its chain, and then the table is resized. -/
theorem setattr_missing (hh : h.Holds t m) (hk : k ∉ m.keys) (obj : V) {new : ℕ} (hnew : h.heap new = none) :
    ∃ h₁ : LinkedHash V, h.setattr k obj new = h₁.resize.map (0, ·) ∧ h₁.nitems = h.nitems + 1 ∧
      h₁.hashsize = h.hashsize ∧ h₁.Holds (t.set (stringHash k % h.hashsize)
        (Buckets.bucket t (stringHash k % h.hashsize) ++ [(new, ⟨k, obj⟩)])) (m.insert k obj) := by
  have hsize := hh.lays.hashsize_eq
  have hlt : stringHash k % h.hashsize < t.length := by
    have hslot := hh.represents.slot_lt k
    rw [hashsize_plain] at hslot
    rwa [hsize]
  obtain ⟨h₁, hlink, hlays, hnitems⟩ := link_spec hh.lays hlt hnew ⟨k, obj⟩
  have hkeys : ∀ c ∈ Buckets.bucket t (stringHash k % h.hashsize), c.2.key ≠ k := by
    intro c hc
    have hnone := (hh.represents.forall_chain_iff k).mpr hk
    rw [hashsize_plain, ← hsize, bucket_plain] at hnone
    exact hnone c.2 (List.mem_map_of_mem hc)
  have hchain := hh.lays.chain (stringHash k % h.hashsize)
  have hstart := hchain.start_eq
  refine ⟨h₁, ?_, hnitems, ?_, hlays, ?_⟩
  · rw [setattr, hstart, setattrLoop_missing none (hstart ▸ hchain) (hh.bucket_length _) hkeys, Option.or_none, hlink]
    rfl
  · rw [hlays.hashsize_eq, List.length_set, hsize]
  · have happend := hh.represents.append hk obj
    rw [hashsize_plain, ← hsize, bucket_plain] at happend
    rw [plain_set, hnitems, List.map_append]
    exact happend

/-- Every attribute can be set. -/
theorem setattr_spec [DecidableEq V] (hh : h.Holds t m) (k : List Byte) (obj : V) {new : ℕ}
    (hnew : h.heap new = none) : ∃ r h' t', h.setattr k obj new = some (r, h') ∧ h'.Holds t' (m.insert k obj) := by
  by_cases hk : k ∈ m.keys
  · obtain ⟨n, hn, rfl⟩ := hh.represents.binds.mem_keys_iff.mp hk
    rw [nodes_plain] at hn
    obtain ⟨⟨a, n⟩, hc, rfl⟩ := List.mem_map.mp hn
    obtain ⟨i, hi⟩ := Buckets.mem_bucket_iff.mp hc
    obtain ⟨front, back, hsplit⟩ := List.append_of_mem hi
    obtain ⟨h', hset, hh'⟩ := setattr_found hh hsplit obj new
    exact ⟨1, h', _, hset, hh'⟩
  · obtain ⟨h₁, hset, -, -, hh₁⟩ := setattr_missing hh hk obj hnew
    obtain ⟨h', t', hresize, hh', -⟩ := resize_spec hh₁
    rw [hresize] at hset
    exact ⟨0, h', t', hset, hh'⟩

/-- Every attribute can be deleted, and one that is not there changes nothing. -/
theorem delattr_missing (hh : h.Holds t m) (hk : k ∉ m.keys) : h.delattr k = some (0, h) := by
  have hsize := hh.lays.hashsize_eq
  have hkeys : ∀ c ∈ Buckets.bucket t (stringHash k % h.hashsize), c.2.key ≠ k := by
    intro c hc
    have hnone := (hh.represents.forall_chain_iff k).mpr hk
    rw [hashsize_plain, ← hsize, bucket_plain] at hnone
    exact hnone c.2 (List.mem_map_of_mem hc)
  have hchain := hh.lays.chain (stringHash k % h.hashsize)
  have hstart := hchain.start_eq
  rw [delattr, hstart, delattrLoop_missing none (hstart ▸ hchain) (hh.bucket_length _) hkeys]

/-! ### Addresses that are free stay free -/

theorem replaceChain_none {newsize fuel b : ℕ} {s s' : (ℕ → Option (Cell (HashNode V))) × List (Option ℕ)}
    {start : Option ℕ} (hchain : replaceChain newsize fuel s start = some s') (hb : s.1 b = none) : s'.1 b = none := by
  induction fuel generalizing s start with
  | zero =>
      cases start with
      | none =>
          cases hchain
          exact hb
      | some a => cases hchain
  | succ fuel ih =>
      cases start with
      | none =>
          cases hchain
          exact hb
      | some a =>
          obtain ⟨n, hn, hrest⟩ := Option.bind_eq_some_iff.mp hchain
          refine ih hrest ?_
          have hne : b ≠ a := by
            rintro rfl
            rw [hb] at hn
            cases hn
          exact (Function.update_of_ne hne _ _).trans hb

theorem replaceChains_none {newsize fuel b : ℕ} {starts : List (Option ℕ)}
    {s s' : (ℕ → Option (Cell (HashNode V))) × List (Option ℕ)}
    (hchains : starts.foldlM (replaceChain newsize fuel) s = some s') (hb : s.1 b = none) : s'.1 b = none := by
  induction starts generalizing s with
  | nil =>
      cases hchains
      exact hb
  | cons start starts ih =>
      rw [List.foldlM_cons] at hchains
      obtain ⟨s₁, hs₁, hrest⟩ := Option.bind_eq_some_iff.mp hchains
      exact ih hrest (replaceChain_none hs₁ hb)

theorem resize_none {h' : LinkedHash V} {b : ℕ} (hresize : h.resize = some h') (hb : h.heap b = none) :
    h'.heap b = none := by
  rw [resize] at hresize
  split at hresize
  · cases hresize
    exact hb
  · obtain ⟨s, hs, hs'⟩ := Option.bind_eq_some_iff.mp hresize
    cases hs'
    exact replaceChains_none hs hb

theorem link_none {h' : LinkedHash V} {hv new b : ℕ} {prev : Option ℕ} {n : HashNode V}
    (hlink : h.link hv prev new n = some h') (hne : b ≠ new) (hb : h.heap b = none) : h'.heap b = none := by
  have hnew : Function.update h.heap new (some ⟨n, none⟩) b = none := (Function.update_of_ne hne _ _).trans hb
  cases prev with
  | none =>
      cases hlink
      exact hnew
  | some p =>
      obtain ⟨c, hc, hc'⟩ := Option.bind_eq_some_iff.mp hlink
      cases hc'
      have hbp : b ≠ p := by
        rintro rfl
        rw [hnew] at hc
        cases hc
      exact (Function.update_of_ne hbp _ _).trans hnew

theorem setattrLoop_none {h' : LinkedHash V} {obj : V} {hv new fuel b r : ℕ} {prev start : Option ℕ}
    (hset : h.setattrLoop k obj hv new fuel prev start = some (r, h')) (hne : r = 0 → b ≠ new) (hb : h.heap b = none) :
    h'.heap b = none := by
  have hend (prev : Option ℕ)
      (hnew : (h.link hv prev new ⟨k, obj⟩).bind (fun h => h.resize.map ((0 : ℕ), ·)) = some (r, h')) :
      h'.heap b = none := by
    obtain ⟨h₁, hlink, hresize⟩ := Option.bind_eq_some_iff.mp hnew
    obtain ⟨h₂, hresize, heq⟩ := Option.map_eq_some_iff.mp hresize
    cases heq
    exact resize_none hresize (link_none hlink (hne rfl) hb)
  induction fuel generalizing prev start with
  | zero =>
      cases start with
      | none => exact hend prev hset
      | some a => cases hset
  | succ fuel ih =>
      cases start with
      | none => exact hend prev hset
      | some a =>
          obtain ⟨n, hn, hrest⟩ := Option.bind_eq_some_iff.mp hset
          split at hrest
          · cases hrest
            have hba : b ≠ a := by
              rintro rfl
              rw [hb] at hn
              cases hn
            exact (Function.update_of_ne hba _ _).trans hb
          · exact ih hrest

/-- Setting an attribute takes no address but the one for a new node. -/
theorem setattr_none {h' : LinkedHash V} {obj : V} {new b r : ℕ} (hset : h.setattr k obj new = some (r, h'))
    (hne : r = 0 → b ≠ new) (hb : h.heap b = none) : h'.heap b = none :=
  setattrLoop_none hset hne hb

/-! ### Getting -/

theorem getattrLoop_eq {l : List (ℕ × HashNode V)} {fuel : ℕ} (hl : Segment h.heap (first l) l none)
    (hfuel : l.length ≤ fuel) (obj : Option V) :
    h.getattrLoop k fuel (first l) obj =
      some (l.foldl (fun obj c => if stringEqual k c.2.key then some c.2.object else obj) obj) := by
  induction l generalizing fuel obj with
  | nil => cases fuel <;> rfl
  | cons c l ih =>
      obtain ⟨fuel, rfl⟩ : ∃ f, fuel = f + 1 := Nat.exists_eq_succ_of_ne_zero (by rintro rfl; cases hfuel)
      obtain ⟨a, n⟩ := c
      have hcell := hl.load
      obtain ⟨-, next, -, hrest⟩ := hl
      rw [first, List.head?_cons, Option.map_some, getattrLoop, hcell]
      exact ih (hrest.start_eq ▸ hrest) (Nat.le_of_succ_le_succ hfuel) _

theorem getattr_spec (hh : h.Holds t m) (k : List Byte) : h.getattr k = some (m.lookup k) := by
  have hchain := hh.lays.chain (stringHash k % h.hashsize)
  have hstart := hchain.start_eq
  rw [getattr, hstart, getattrLoop_eq (hstart ▸ hchain) (hh.bucket_length _), ← hh.represents.getObject, getObject,
    hashsize_plain, ← hh.lays.hashsize_eq, bucket_plain, List.foldl_map]

theorem holds_new : (new : LinkedHash V).Holds (List.replicate 7 []) ∅ := by
  refine ⟨⟨rfl, fun i => ?_, by simp⟩, ?_⟩
  · rw [Buckets.bucket_replicate, head, new, List.getD_eq_getElem?_getD, List.getElem?_replicate]
    split <;> rfl
  · exact represents_newHash

theorem valid_new (V : Type) : (new : LinkedHash V).Valid ∅ := ⟨_, holds_new⟩

theorem Valid.setattr [DecidableEq V] (hv : h.Valid m) (k : List Byte) (obj : V) {new : ℕ} (hnew : h.heap new = none) :
    ∃ r h', h.setattr k obj new = some (r, h') ∧ h'.Valid (m.insert k obj) := by
  obtain ⟨t, hh⟩ := hv
  obtain ⟨r, h', t', hset, hh'⟩ := setattr_spec hh k obj hnew
  exact ⟨r, h', hset, t', hh'⟩

theorem Valid.delattr (hv : h.Valid m) (k : List Byte) : ∃ r h', h.delattr k = some (r, h') ∧ h'.Valid (m.erase k) := by
  obtain ⟨t, hh⟩ := hv
  by_cases hk : k ∈ m.keys
  · obtain ⟨n, hn, rfl⟩ := hh.represents.binds.mem_keys_iff.mp hk
    rw [nodes_plain] at hn
    obtain ⟨⟨a, n⟩, hc, rfl⟩ := List.mem_map.mp hn
    obtain ⟨i, hi⟩ := Buckets.mem_bucket_iff.mp hc
    obtain ⟨front, back, hsplit⟩ := List.append_of_mem hi
    obtain ⟨h', hdelete, hh', -⟩ := delattr_spec hh hsplit
    exact ⟨1, h', hdelete, _, hh'⟩
  · have herase : m.erase k = m := by
      refine Finmap.ext_lookup fun k' => ?_
      by_cases heq : k' = k
      · rw [heq, Finmap.lookup_erase, eq_comm, Finmap.lookup_eq_none, ← Finmap.mem_keys]
        exact hk
      · exact Finmap.lookup_erase_ne heq
    exact ⟨0, h, delattr_missing hh hk, t, herase.symm ▸ hh⟩

end LinkedHash

end Swig.DOH
