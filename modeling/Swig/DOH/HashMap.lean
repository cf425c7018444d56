import Mathlib.Data.Finmap
import Swig.DOH.Hash

/-!
The hash table as a finite map from string contents to objects.

`Binds` relates the nodes of a table, in any order, to a finite map.
`Represents` adds what the table owes to its layout: where a node is, and the
item count. Every method keeps it, and runs over any number of tables follow.
-/

namespace Swig.DOH

open Swig.Lib

/-! ### Keys -/

/-- The two equality tests of the table agree. -/
theorem stringCmp_eq_zero_iff {s1 s2 : List Byte} : stringCmp s1 s2 = 0 ↔ s1 = s2 := by
  induction s1 generalizing s2 with
  | nil => cases s2 <;> simp [stringCmp]
  | cons c1 s1 ih =>
      cases s2 with
      | nil => simp [stringCmp]
      | cons c2 s2 =>
          by_cases h : c1 = c2
          · simp [stringCmp, h, ih]
          · rw [stringCmp, if_pos h]
            split <;> simp [h]

theorem stringEqual_iff {s1 s2 : List Byte} : stringEqual s1 s2 = true ↔ s1 = s2 := by
  unfold stringEqual
  split
  · next h =>
      simp only [Bool.false_eq_true, false_iff]
      intro heq
      exact h (congrArg List.length heq)
  · simp

/-- Each interned string has the contents it was made of. -/
def KeyValue.Interned : KeyValue → Prop
  | .null => True
  | .node cstr sstr left right => sstr = cstr ∧ left.Interned ∧ right.Interned

theorem findKey_spec (c : List Byte) {root : KeyValue} (h : root.Interned) :
    (findKey c root).1 = c ∧ (findKey c root).2.Interned := by
  induction root with
  | null => exact ⟨rfl, rfl, trivial, trivial⟩
  | node cstr sstr left right ihl ihr =>
      obtain ⟨hs, hl, hr⟩ := h
      simp only [findKey]
      split
      · next heq => exact ⟨hs.trans (Std.LawfulEqOrd.eq_of_compare heq), hs, hl, hr⟩
      · exact ⟨(ihl hl).1, hs, (ihl hl).2, hr⟩
      · exact ⟨(ihr hr).1, hs, hl, (ihr hr).2⟩

theorem KeyArg.resolve_spec (k : KeyArg) {root : KeyValue} (h : root.Interned) :
    (k.resolve root).1 = k.contents ∧ (k.resolve root).2.Interned := by
  cases k with
  | cstr c => exact findKey_spec c h
  | str s => exact ⟨rfl, h⟩

/-! ### Nodes and finite maps -/

variable {V : Type}

abbrev StringMap (V : Type) := Finmap fun _ : List Byte => V

/-- The nodes are the bindings of the map, with one node for each key. -/
structure Binds (l : List (HashNode V)) (m : StringMap V) : Prop where
  nodup : (l.map HashNode.key).Nodup
  mem_iff : ∀ k v, ⟨k, v⟩ ∈ l ↔ m.lookup k = some v

namespace Binds

variable {l l' : List (HashNode V)} {m : StringMap V}

theorem perm (h : Binds l m) (hp : l.Perm l') : Binds l' m :=
  ⟨(hp.map _).nodup_iff.mp h.nodup, fun k v => hp.mem_iff.symm.trans (h.mem_iff k v)⟩

theorem nil : Binds ([] : List (HashNode V)) ∅ := ⟨List.nodup_nil, by simp⟩

theorem mem_keys_iff (h : Binds l m) {k : List Byte} : k ∈ m.keys ↔ ∃ n ∈ l, n.key = k := by
  rw [Finmap.mem_keys, Finmap.mem_iff]
  constructor
  · rintro ⟨v, hv⟩
    exact ⟨⟨k, v⟩, (h.mem_iff k v).mpr hv, rfl⟩
  · rintro ⟨n, hn, rfl⟩
    exact ⟨n.object, (h.mem_iff n.key n.object).mp hn⟩

theorem unique {m' : StringMap V} (h : Binds l m) (h' : Binds l m') : m = m' := by
  refine Finmap.ext_lookup fun k => Option.ext fun v => ?_
  rw [← h.mem_iff, h'.mem_iff]

theorem length_eq (h : Binds l m) : l.length = m.keys.card := by
  classical
  have hkeys : (l.map HashNode.key).toFinset = m.keys := by
    ext k
    simp [h.mem_keys_iff]
  rw [← hkeys, List.toFinset_card_of_nodup h.nodup, List.length_map]

theorem lookup_eq_none (h : Binds l m) {k : List Byte} (hk : ∀ n ∈ l, n.key ≠ k) :
    m.lookup k = none := by
  rw [Finmap.lookup_eq_none, ← Finmap.mem_keys, h.mem_keys_iff]
  rintro ⟨n, hn, hnk⟩
  exact hk n hn hnk

/-- A new key. -/
theorem insert (h : Binds l m) {k : List Byte} {v : V} (hk : ∀ n ∈ l, n.key ≠ k) :
    Binds (⟨k, v⟩ :: l) (m.insert k v) := by
  refine ⟨?_, fun k' v' => ?_⟩
  · simpa [h.nodup] using hk
  · by_cases hkk : k' = k
    · subst hkk
      have hnot : ⟨k', v'⟩ ∉ l := fun hmem => hk _ hmem rfl
      simp [hnot, Finmap.lookup_insert, eq_comm]
    · simp [hkk, Finmap.lookup_insert_of_ne m hkk, h.mem_iff]

/-- The key of a node is deleted with the node. -/
theorem erase {n : HashNode V} (h : Binds (n :: l) m) : Binds l (m.erase n.key) := by
  have hnodup := h.nodup
  rw [List.map_cons, List.nodup_cons] at hnodup
  refine ⟨hnodup.2, fun k v => ?_⟩
  by_cases hk : k = n.key
  · subst hk
    have hnot : ⟨n.key, v⟩ ∉ l := fun hmem => hnodup.1 (List.mem_map.mpr ⟨_, hmem, rfl⟩)
    simp [hnot, Finmap.lookup_erase]
  · rw [Finmap.lookup_erase_ne hk, ← h.mem_iff]
    have hne : (⟨k, v⟩ : HashNode V) ≠ n := fun heq => hk (congrArg HashNode.key heq)
    simp [hne]

/-- The object of a node is replaced. -/
theorem replace {n : HashNode V} (h : Binds (n :: l) m) (v : V) :
    Binds ({ n with object := v } :: l) (m.insert n.key v) := by
  have hnodup := h.nodup
  rw [List.map_cons, List.nodup_cons] at hnodup
  have hrest := (h.erase).insert (v := v) (k := n.key)
    (fun n' hn' heq => hnodup.1 (List.mem_map.mpr ⟨n', hn', heq⟩))
  refine ⟨hrest.nodup, fun k v' => (hrest.mem_iff k v').trans ?_⟩
  by_cases hk : k = n.key
  · subst hk
    rw [Finmap.lookup_insert, Finmap.lookup_insert]
  · rw [Finmap.lookup_insert_of_ne _ hk, Finmap.lookup_insert_of_ne _ hk,
      Finmap.lookup_erase_ne hk]

end Binds

/-! ### Chains -/

theorem setChain_eq_none_iff [DecidableEq V] {k : List Byte} (v : V)
    {chain : List (HashNode V)} :
    setChain k v chain = none ↔ ∀ n ∈ chain, n.key ≠ k := by
  induction chain with
  | nil => simp [setChain]
  | cons n rest ih =>
      rw [setChain]
      simp only [stringCmp_eq_zero_iff, List.forall_mem_cons, ← ih]
      split
      · next h => split <;> simp [h]
      · next h => simp [h]

theorem setChain_eq_some [DecidableEq V] {k : List Byte} {obj : V}
    {chain chain' : List (HashNode V)} (h : setChain k obj chain = some chain') :
    ∃ A n B, chain = A ++ n :: B ∧ n.key = k ∧ chain' = A ++ { n with object := obj } :: B := by
  induction chain generalizing chain' with
  | nil => simp [setChain] at h
  | cons n rest ih =>
      rw [setChain] at h
      simp only [stringCmp_eq_zero_iff] at h
      split at h
      · next hk =>
          refine ⟨[], n, rest, rfl, hk, ?_⟩
          split at h
          · next hobj =>
              subst hobj
              exact (Option.some.inj h).symm
          · exact (Option.some.inj h).symm
      · simp only [Option.map_eq_some_iff] at h
        obtain ⟨rest', hrest, rfl⟩ := h
        obtain ⟨A, n', B, rfl, hk, rfl⟩ := ih hrest
        exact ⟨n :: A, n', B, rfl, hk, rfl⟩

theorem deleteChain_eq_none_iff {k : List Byte} {chain : List (HashNode V)} :
    deleteChain k chain = none ↔ ∀ n ∈ chain, n.key ≠ k := by
  induction chain with
  | nil => simp [deleteChain]
  | cons n rest ih =>
      rw [deleteChain]
      simp only [stringCmp_eq_zero_iff, List.forall_mem_cons, ← ih]
      split <;> simp [*]

theorem deleteChain_eq_some {k : List Byte} {chain chain' : List (HashNode V)}
    (h : deleteChain k chain = some chain') :
    ∃ A n B, chain = A ++ n :: B ∧ n.key = k ∧ chain' = A ++ B := by
  induction chain generalizing chain' with
  | nil => simp [deleteChain] at h
  | cons n rest ih =>
      rw [deleteChain] at h
      simp only [stringCmp_eq_zero_iff] at h
      split at h
      · next hk => exact ⟨[], n, rest, rfl, hk, (Option.some.inj h).symm⟩
      · simp only [Option.map_eq_some_iff] at h
        obtain ⟨rest', hrest, rfl⟩ := h
        obtain ⟨A, n', B, rfl, hk, rfl⟩ := ih hrest
        exact ⟨n :: A, n', B, rfl, hk, rfl⟩

/-- The scan of `Hash_getattr` keeps the last match. -/
theorem foldl_getObject {k : List Byte} {chain : List (HashNode V)}
    (hk : ∀ n ∈ chain, n.key ≠ k) (obj : Option V) :
    chain.foldl (fun obj n => if stringEqual k n.key then some n.object else obj) obj = obj := by
  induction chain generalizing obj with
  | nil => rfl
  | cons n rest ih =>
      rw [List.forall_mem_cons] at hk
      have hn : stringEqual k n.key = false := by
        rw [Bool.eq_false_iff, ne_eq, stringEqual_iff]
        exact fun h => hk.1 h.symm
      rw [List.foldl_cons, hn]
      exact ih hk.2 obj

/-! ### Tables -/

/-- The table holds the bindings of `m`: every node is in the bucket of its
hash value, each key has one node, and the count is right. -/
structure Represents (h : Hash V) (m : StringMap V) : Prop where
  hashsize_pos : 0 < h.hashsize
  placed : Buckets.Placed (fun n => stringHash n.key % h.hashsize) h.hashtable
  nitems_eq : h.nitems = h.nodes.length
  binds : Binds h.nodes m

theorem represents_replicate {n : ℕ} (hn : 0 < n) :
    Represents (V := V) { hashtable := List.replicate n [], nitems := 0 } ∅ := by
  have hnodes : (List.replicate n ([] : List (HashNode V))).flatten = [] := by simp
  refine ⟨by simpa [Hash.hashsize] using hn, Buckets.placed_replicate n, ?_, ?_⟩
  · simp [Hash.nodes]
  · rw [Hash.nodes, hnodes]
    exact Binds.nil

theorem represents_newHash : Represents (newHash : Hash V) ∅ := represents_replicate (by omega)

theorem le_sizeSearch (newsize p : ℕ) (hn : Odd newsize) (hp : 3 ≤ p) :
    newsize ≤ sizeSearch newsize p hn hp := by
  induction newsize, p, hn, hp using sizeSearch.induct with
  | case1 newsize p hn hp h hdiv ih =>
      rw [sizeSearch, if_pos h, if_pos hdiv]
      omega
  | case2 newsize p hn hp h hdiv ih =>
      rw [sizeSearch, if_pos h, if_neg hdiv]
      exact ih
  | case3 newsize p hn hp h => rw [sizeSearch, if_neg h]

theorem newSize_pos (oldsize : ℕ) : 0 < newSize oldsize := by
  have := le_sizeSearch (2 * oldsize + 1) 3 ⟨oldsize, rfl⟩ (Nat.le_refl 3)
  rw [newSize]
  omega

namespace Represents

variable {h : Hash V} {m : StringMap V}

theorem len_eq (hr : Represents h m) : hashLen h = m.keys.card :=
  hr.nitems_eq.trans hr.binds.length_eq

theorem slot_lt (hr : Represents h m) (k : List Byte) : stringHash k % h.hashsize < h.hashsize :=
  Nat.mod_lt _ hr.hashsize_pos

/-- A key is looked for in the one bucket that can hold it. -/
theorem forall_chain_iff (hr : Represents h m) (k : List Byte) :
    (∀ n ∈ Buckets.bucket h.hashtable (stringHash k % h.hashsize), n.key ≠ k) ↔ k ∉ m.keys := by
  rw [hr.binds.mem_keys_iff]
  constructor
  · rintro hk ⟨n, hn, rfl⟩
    exact hk n (hr.placed.mem_bucket.mpr ⟨hn, rfl⟩) rfl
  · intro hk n hn hnk
    exact hk ⟨n, (hr.placed.mem_bucket.mp hn).1, hnk⟩

theorem clear (hr : Represents h m) : Represents (hashClear h) ∅ :=
  represents_replicate hr.hashsize_pos

/-- Replacing the chain of a bucket, with the nodes and the count adjusted. -/
theorem setBucket (hr : Represents h m) {i : ℕ} (hi : i < h.hashsize) {c : List (HashNode V)}
    (hc : ∀ n ∈ c, stringHash n.key % h.hashsize = i) {nitems : ℕ} {m' : StringMap V}
    (hcount : nitems + (Buckets.bucket h.hashtable i).length = h.nitems + c.length)
    (hbinds : ∀ rest, h.nodes.Perm (Buckets.bucket h.hashtable i ++ rest) → Binds (c ++ rest) m') :
    Represents { hashtable := h.hashtable.set i c, nitems } m' := by
  obtain ⟨rest, hnodes, hset⟩ := Buckets.exists_flatten_set_perm (t := h.hashtable) hi
  have hsize : ({ hashtable := h.hashtable.set i c, nitems } : Hash V).hashsize = h.hashsize := by
    simp [Hash.hashsize]
  refine ⟨by rw [hsize]; exact hr.hashsize_pos, ?_, ?_, (hbinds rest hnodes).perm (hset c).symm⟩
  · rw [hsize]
    exact hr.placed.set hi hc
  · have hlen := hnodes.length_eq
    have hlen' := (hset c).length_eq
    rw [List.length_append] at hlen hlen'
    have hold : h.nitems = h.hashtable.flatten.length := hr.nitems_eq
    change nitems = (h.hashtable.set i c).flatten.length
    omega

theorem resize (hr : Represents h m) : Represents (resize h) m := by
  unfold DOH.resize
  split
  · exact hr
  · set slot : HashNode V → ℕ := fun n => stringHash n.key % newSize h.hashsize with hslot
    have htable : h.hashtable.foldl (fun table chain => chain.foldl
          (fun table n => Buckets.push table (slot n) n) table)
          (List.replicate (newSize h.hashsize) []) =
        Buckets.distribute slot (List.replicate (newSize h.hashsize) []) h.nodes := by
      rw [Buckets.distribute, Hash.nodes, List.foldl_flatten]
    have hlt (n : HashNode V) :
        slot n < (List.replicate (newSize h.hashsize) ([] : List (HashNode V))).length := by
      rw [List.length_replicate]
      exact Nat.mod_lt _ (newSize_pos _)
    have hperm := Buckets.flatten_distribute_perm hlt h.nodes
    rw [List.flatten_replicate_nil, List.append_nil] at hperm
    simp only
    rw [htable]
    refine ⟨?_, ?_, ?_, hr.binds.perm hperm.symm⟩
    · simpa [Hash.hashsize] using newSize_pos _
    · simpa [Hash.hashsize, hslot] using (Buckets.placed_replicate _).distribute hlt h.nodes
    · exact hr.nitems_eq.trans hperm.length_eq.symm

/-- A node of a new key comes behind the others of its bucket. -/
theorem append (hr : Represents h m) {k : List Byte} (hk : k ∉ m.keys) (v : V) :
    Represents ⟨h.hashtable.set (stringHash k % h.hashsize)
      (Buckets.bucket h.hashtable (stringHash k % h.hashsize) ++ [⟨k, v⟩]), h.nitems + 1⟩ (m.insert k v) := by
  refine hr.setBucket (hr.slot_lt k) (fun n hn => ?_) ?_ fun rest hp => ?_
  · rcases List.mem_append.mp hn with hn | hn
    · exact hr.placed _ n hn
    · rw [List.mem_singleton.mp hn]
  · simp
    omega
  · have hnew : ∀ n ∈ h.nodes, n.key ≠ k := by
      intro n hn hnk
      exact hk (hr.binds.mem_keys_iff.mpr ⟨n, hn, hnk⟩)
    rw [List.append_assoc, List.singleton_append]
    exact (hr.binds.insert hnew).perm ((hp.cons _).trans List.perm_middle.symm)

theorem setObject [DecidableEq V] (hr : Represents h m) (k : List Byte) (v : V) :
    (setObject h k v).1 = (if k ∈ m.keys then 1 else 0) ∧
      Represents (setObject h k v).2 (m.insert k v) := by
  have hslot := hr.slot_lt k
  unfold DOH.setObject
  simp only
  cases hset : setChain k v (Buckets.bucket h.hashtable (stringHash k % h.hashsize)) with
  | some chain' =>
      obtain ⟨A, n, B, hchain, hk, rfl⟩ := setChain_eq_some hset
      have hmem : k ∈ m.keys := by
        by_contra hnot
        rw [← hr.forall_chain_iff, ← setChain_eq_none_iff v, hset] at hnot
        cases hnot
      subst hk
      refine ⟨by rw [if_pos hmem], hr.setBucket hslot (fun n' hn' => ?_) ?_ fun rest hp => ?_⟩
      · have hplaced (b) (hb : b ∈ A ++ n :: B) := hr.placed _ b (hchain ▸ hb)
        rcases List.mem_append.mp hn' with hA | hB
        · exact hplaced n' (List.mem_append_left _ hA)
        · rcases List.mem_cons.mp hB with rfl | hB
          · rfl
          · exact hplaced n' (List.mem_append_right _ (List.mem_cons_of_mem _ hB))
      · rw [hchain]
        simp
      · rw [hchain, List.append_assoc, List.cons_append] at hp
        have hold : Binds (n :: (A ++ (B ++ rest))) m := hr.binds.perm (hp.trans List.perm_middle)
        rw [List.append_assoc, List.cons_append]
        exact (hold.replace v).perm List.perm_middle.symm
  | none =>
      rw [setChain_eq_none_iff v] at hset
      have hmem := (hr.forall_chain_iff k).mp hset
      exact ⟨by rw [if_neg hmem], (hr.append hmem v).resize⟩

theorem deleteObject (hr : Represents h m) (k : List Byte) :
    (deleteObject h k).1 = (if k ∈ m.keys then 1 else 0) ∧
      Represents (deleteObject h k).2 (m.erase k) := by
  have hslot := hr.slot_lt k
  unfold DOH.deleteObject
  simp only
  cases hdel : deleteChain k (Buckets.bucket h.hashtable (stringHash k % h.hashsize)) with
  | some chain' =>
      obtain ⟨A, n, B, hchain, hk, rfl⟩ := deleteChain_eq_some hdel
      have hmem : k ∈ m.keys := by
        by_contra hnot
        rw [← hr.forall_chain_iff, ← deleteChain_eq_none_iff, hdel] at hnot
        cases hnot
      subst hk
      have hcount : 0 < h.nitems := by
        rw [hr.nitems_eq, hr.binds.length_eq]
        exact Finset.card_pos.mpr ⟨_, hmem⟩
      refine ⟨by rw [if_pos hmem], hr.setBucket hslot (fun n' hn' => ?_) ?_ fun rest hp => ?_⟩
      · refine hr.placed _ n' (hchain ▸ ?_)
        rcases List.mem_append.mp hn' with hA | hB
        · exact List.mem_append_left _ hA
        · exact List.mem_append_right _ (List.mem_cons_of_mem _ hB)
      · rw [hchain]
        simp
        omega
      · rw [hchain, List.append_assoc, List.cons_append] at hp
        have hold : Binds (n :: (A ++ (B ++ rest))) m := hr.binds.perm (hp.trans List.perm_middle)
        rw [List.append_assoc]
        exact hold.erase
  | none =>
      rw [deleteChain_eq_none_iff, hr.forall_chain_iff] at hdel
      refine ⟨by rw [if_neg hdel], ?_⟩
      have herase : m.erase k = m := by
        refine Finmap.ext_lookup fun k' => ?_
        by_cases hk : k' = k
        · subst hk
          rw [Finmap.lookup_erase, eq_comm, Finmap.lookup_eq_none]
          exact hdel
        · exact Finmap.lookup_erase_ne hk
      rw [herase]
      exact hr

theorem getObject (hr : Represents h m) (k : List Byte) : getObject h k = m.lookup k := by
  unfold DOH.getObject
  cases hlook : m.lookup k with
  | none =>
      refine foldl_getObject ((hr.forall_chain_iff k).mpr ?_) none
      rwa [Finmap.mem_keys, ← Finmap.lookup_eq_none]
  | some v =>
      have hmem : (⟨k, v⟩ : HashNode V) ∈
          Buckets.bucket h.hashtable (stringHash k % h.hashsize) :=
        hr.placed.mem_bucket.mpr ⟨(hr.binds.mem_iff k v).mpr hlook, rfl⟩
      obtain ⟨A, B, hchain⟩ := List.append_of_mem hmem
      obtain ⟨rest, hnodes, -⟩ := Buckets.exists_flatten_set_perm (hr.slot_lt k)
      have hnodup : ((A ++ ⟨k, v⟩ :: B).map HashNode.key).Nodup := by
        have := (hnodes.map HashNode.key).nodup_iff.mp hr.binds.nodup
        rw [List.map_append] at this
        exact hchain ▸ this.of_append_left
      have hB : ∀ n ∈ B, n.key ≠ k := by
        intro n hn hnk
        rw [List.map_append, List.map_cons] at hnodup
        exact (List.nodup_cons.mp hnodup.of_append_right).1 (List.mem_map.mpr ⟨n, hn, hnk⟩)
      rw [hchain, List.foldl_append, List.foldl_cons, if_pos (stringEqual_iff.mpr rfl)]
      exact foldl_getObject hB _

/-- Setting the bindings in `l` one after the other in a table that has those in `done`. -/
theorem foldl_setObject [DecidableEq V] {l done : List (HashNode V)} {m₀ : StringMap V}
    (hr : Represents h m₀) (hdone : Binds done m₀) (hall : Binds (l ++ done) m) :
    Represents (l.foldl (fun nh n => (DOH.setObject nh n.key n.object).2) h) m := by
  induction l generalizing h done m₀ with
  | nil => rwa [← hdone.unique hall]
  | cons n l ih =>
      have hnew : ∀ n' ∈ done, n'.key ≠ n.key := by
        intro n' hn' heq
        have hnodup := hall.nodup
        rw [List.cons_append, List.map_cons, List.nodup_cons] at hnodup
        exact hnodup.1 (List.mem_map.mpr ⟨n', List.mem_append_right _ hn', heq⟩)
      exact ih (hr.setObject n.key n.object).2 (hdone.insert hnew)
        (hall.perm List.perm_middle.symm)

theorem copy [DecidableEq V] (hr : Represents h m) : Represents (copyHash h) m := by
  refine foldl_setObject (represents_replicate hr.hashsize_pos) Binds.nil ?_
  rw [List.append_nil]
  exact hr.binds

end Represents

/-! ### Iteration -/

/-- The nodes an iterator has still to visit. -/
def Iterator.remaining (iter : Iterator V) (h : Hash V) : List (HashNode V) :=
  iter.current ++ (h.hashtable.drop (iter.index + 1)).flatten

/-- What an iterator shows of the node it stands on. -/
def Iterator.shows (iter : Iterator V) (n : Option (HashNode V)) : Prop :=
  iter.key = n.map HashNode.key ∧ iter.item = n.map HashNode.object

/-- Skipping the empty buckets from index `i` on reaches the next node. -/
theorem load_skipEmpty (h : Hash V) (i : ℕ) :
    let index := skipEmpty i (h.hashtable.drop i)
    let iter := Iterator.load index (Buckets.bucket h.hashtable index)
    iter.shows (h.hashtable.drop i).flatten[0]? ∧
      iter.remaining h = (h.hashtable.drop i).flatten.tail := by
  generalize ht : h.hashtable.drop i = t
  induction t generalizing i with
  | nil =>
      have hi : h.hashtable.length ≤ i := List.drop_eq_nil_iff.mp ht
      have hbucket : Buckets.bucket h.hashtable i = [] := by simp [Buckets.bucket, hi]
      have hdrop : h.hashtable.drop (i + 1) = [] := List.drop_eq_nil_iff.mpr (by omega)
      simp [skipEmpty, hbucket, Iterator.load, Iterator.shows, Iterator.remaining, hdrop]
  | cons chain t ih =>
      have hnext : h.hashtable.drop (i + 1) = t := by
        rw [← List.tail_drop, ht, List.tail_cons]
      have hi : i < h.hashtable.length := by
        by_contra hle
        rw [List.drop_eq_nil_iff.mpr (by omega)] at ht
        cases ht
      cases chain with
      | nil =>
          rw [skipEmpty, List.flatten_cons, List.nil_append]
          exact ih (i + 1) hnext
      | cons n rest =>
          have hbucket : Buckets.bucket h.hashtable i = n :: rest := by
            rw [List.drop_eq_getElem_cons hi, List.cons.injEq] at ht
            rw [Buckets.bucket_eq_getElem hi, ht.1]
          simp [skipEmpty, hbucket, Iterator.load, Iterator.shows, Iterator.remaining, hnext]

theorem hashFirstiter_spec (h : Hash V) :
    (hashFirstiter h).shows h.nodes[0]? ∧ (hashFirstiter h).remaining h = h.nodes.tail :=
  load_skipEmpty h 0

theorem hashNextiter_spec (h : Hash V) (iter : Iterator V) :
    (hashNextiter h iter).shows (iter.remaining h)[0]? ∧
      (hashNextiter h iter).remaining h = (iter.remaining h).tail := by
  unfold hashNextiter
  split
  · next hcur =>
      have hrem : iter.remaining h = (h.hashtable.drop (iter.index + 1)).flatten := by
        rw [Iterator.remaining, hcur, List.nil_append]
      rw [hrem]
      exact load_skipEmpty h (iter.index + 1)
  · next n rest hcur => simp [Iterator.remaining, hcur, Iterator.load, Iterator.shows]

/-- After `j` calls of `Next` the iterator stands on node number `j`, or is at its end. -/
theorem iterate_shows (h : Hash V) (j : ℕ) :
    ((hashNextiter h)^[j] (hashFirstiter h)).shows h.nodes[j]? := by
  have hall : ∀ j, ((hashNextiter h)^[j] (hashFirstiter h)).shows h.nodes[j]? ∧
      ((hashNextiter h)^[j] (hashFirstiter h)).remaining h = h.nodes.drop (j + 1) := by
    intro j
    induction j with
    | zero => simpa using hashFirstiter_spec h
    | succ j ih =>
        rw [Function.iterate_succ_apply']
        obtain ⟨hshow, hrem⟩ := hashNextiter_spec h ((hashNextiter h)^[j] (hashFirstiter h))
        rw [ih.2] at hshow hrem
        refine ⟨by simpa using hshow, ?_⟩
        rw [hrem, List.tail_drop]
  exact (hall j).1

theorem keysLoop_eq (h : Hash V) {fuel : ℕ} {iter : Iterator V} {l : List (HashNode V)}
    (hshow : iter.shows l[0]?) (hrem : iter.remaining h = l.tail) (hfuel : l.length < fuel) :
    keysLoop h fuel iter = some (l.map HashNode.key) := by
  induction fuel generalizing iter l with
  | zero => omega
  | succ fuel ih =>
      obtain ⟨hnext, hnextrem⟩ := hashNextiter_spec h iter
      rw [hrem] at hnext hnextrem
      cases l with
      | nil => simp [keysLoop, hshow.1]
      | cons n l =>
          simp only [List.tail_cons] at hnext hnextrem
          have hrest := ih hnext hnextrem (by simpa using hfuel)
          simp [keysLoop, hshow.1, hrest]

/-- `Keys` terminates and lists every key. -/
theorem hashKeys_eq (h : Hash V) {fuel : ℕ} (hfuel : h.nodes.length < fuel) :
    hashKeys h fuel = some (h.nodes.map HashNode.key) := by
  obtain ⟨hshow, hrem⟩ := hashFirstiter_spec h
  exact keysLoop_eq h hshow hrem hfuel

/-! ### Runs -/

/-- A method call; the tables are held by variables, and the result of `Copy`
is assigned to one. -/
inductive Op (V : Type)
  | setattr (h : ℕ) (k : KeyArg) (obj : Option V)
  | delattr (h : ℕ) (k : KeyArg)
  | getattr (h : ℕ) (k : KeyArg)
  | clear (h : ℕ)
  | copy (dst src : ℕ)

/-- The value a call returns. -/
inductive Result (V : Type)
  | int (n : ℕ)
  | object (obj : Option V)
  | void

/-- The interned keys and the tables. -/
structure Heap (V : Type) where
  root : KeyValue
  vars : ℕ → Hash V

def Heap.initial : Heap V := { root := .null, vars := fun _ => newHash }

def Heap.step [DecidableEq V] (s : Heap V) : Op V → Result V × Heap V
  | .setattr i k obj =>
      let (r, root, h) := hashSetattr s.root (s.vars i) k obj
      (.int r, { root, vars := Function.update s.vars i h })
  | .delattr i k =>
      let (r, root, h) := hashDelattr s.root (s.vars i) k
      (.int r, { root, vars := Function.update s.vars i h })
  | .getattr i k =>
      let (obj, root) := hashGetattr s.root (s.vars i) k
      (.object obj, { s with root })
  | .clear i => (.void, { s with vars := Function.update s.vars i (hashClear (s.vars i)) })
  | .copy dst src => (.void, { s with vars := Function.update s.vars dst (copyHash (s.vars src)) })

def Heap.run [DecidableEq V] (s : Heap V) : List (Op V) → List (Result V) × Heap V
  | [] => ([], s)
  | op :: ops =>
      let (r, s) := s.step op
      let (rs, s) := s.run ops
      (r :: rs, s)

/-- The abstract counterpart of a heap: a finite map in each variable. -/
abbrev Maps (V : Type) := ℕ → StringMap V

def Maps.step (s : Maps V) : Op V → Result V × Maps V
  | .setattr i k none | .delattr i k =>
      (.int (if k.contents ∈ (s i).keys then 1 else 0),
        Function.update s i ((s i).erase k.contents))
  | .setattr i k (some obj) =>
      (.int (if k.contents ∈ (s i).keys then 1 else 0),
        Function.update s i ((s i).insert k.contents obj))
  | .getattr i k => (.object ((s i).lookup k.contents), s)
  | .clear i => (.void, Function.update s i ∅)
  | .copy dst src => (.void, Function.update s dst (s src))

def Maps.run (s : Maps V) : List (Op V) → List (Result V) × Maps V
  | [] => ([], s)
  | op :: ops =>
      let (r, s) := s.step op
      let (rs, s) := s.run ops
      (r :: rs, s)

/-- The simulation: every table represents the map in its variable. -/
structure Simulates (s : Heap V) (t : Maps V) : Prop where
  interned : s.root.Interned
  represents : ∀ i, Represents (s.vars i) (t i)

theorem simulates_initial : Simulates (Heap.initial : Heap V) fun _ => ∅ :=
  ⟨trivial, fun _ => represents_newHash⟩

theorem forall_update {P : Hash V → StringMap V → Prop} {f : ℕ → Hash V} {g : ℕ → StringMap V}
    (hfg : ∀ i, P (f i) (g i)) {i : ℕ} {h : Hash V} {m : StringMap V} (hi : P h m) (j : ℕ) :
    P (Function.update f i h j) (Function.update g i m j) := by
  by_cases hj : j = i
  · subst hj
    simpa using hi
  · simpa [hj] using hfg j

theorem Simulates.step [DecidableEq V] {s : Heap V} {t : Maps V} (hs : Simulates s t) (op : Op V) :
    (s.step op).1 = (t.step op).1 ∧ Simulates (s.step op).2 (t.step op).2 := by
  have hkey (k : KeyArg) := k.resolve_spec hs.interned
  have hdel (i : ℕ) (k : KeyArg) :
      (s.step (.delattr i k)).1 = (t.step (.delattr i k)).1 ∧
        Simulates (s.step (.delattr i k)).2 (t.step (.delattr i k)).2 := by
    obtain ⟨hret, hrep⟩ := (hs.represents i).deleteObject k.contents
    simp only [Heap.step, hashDelattr, (hkey k).1, hret]
    exact ⟨rfl, (hkey k).2, forall_update hs.represents hrep⟩
  cases op with
  | setattr i k obj =>
      cases obj with
      | none => exact hdel i k
      | some obj =>
          obtain ⟨hret, hrep⟩ := (hs.represents i).setObject k.contents obj
          simp only [Heap.step, hashSetattr, (hkey k).1, hret]
          exact ⟨rfl, (hkey k).2, forall_update hs.represents hrep⟩
  | delattr i k => exact hdel i k
  | getattr i k =>
      simp only [Heap.step, hashGetattr, (hkey k).1, (hs.represents i).getObject]
      exact ⟨rfl, (hkey k).2, hs.represents⟩
  | clear i => exact ⟨rfl, hs.interned, forall_update hs.represents (hs.represents i).clear⟩
  | copy dst src => exact ⟨rfl, hs.interned, forall_update hs.represents (hs.represents src).copy⟩

theorem Simulates.run [DecidableEq V] {s : Heap V} {t : Maps V} (hs : Simulates s t)
    (ops : List (Op V)) :
    (s.run ops).1 = (t.run ops).1 ∧ Simulates (s.run ops).2 (t.run ops).2 := by
  induction ops generalizing s t with
  | nil => exact ⟨rfl, hs⟩
  | cons op ops ih =>
      obtain ⟨hret, hstep⟩ := hs.step op
      obtain ⟨hrets, hrun⟩ := ih hstep
      exact ⟨congrArg₂ List.cons hret hrets, hrun⟩

/-- Over every sequence of calls on any number of tables, the calls return what
they return on finite maps, and afterwards each table holds the bindings of its
map: every node is in its bucket, no key occurs twice, `Len` is the number of
keys, and iterating meets the bindings one after the other, each once. -/
theorem run_refines_maps [DecidableEq V] (ops : List (Op V)) :
    let s := (Heap.initial : Heap V).run ops
    let t := Maps.run (V := V) (fun _ => ∅) ops
    s.1 = t.1 ∧ ∀ i,
      (∀ b, ∀ n ∈ Buckets.bucket (s.2.vars i).hashtable b,
        stringHash n.key % (s.2.vars i).hashsize = b) ∧
      ((s.2.vars i).nodes.map HashNode.key).Nodup ∧
      hashLen (s.2.vars i) = (t.2 i).keys.card ∧
      (∀ k v, ⟨k, v⟩ ∈ (s.2.vars i).nodes ↔ (t.2 i).lookup k = some v) ∧
      ∀ j, ((hashNextiter (s.2.vars i))^[j] (hashFirstiter (s.2.vars i))).shows
        (s.2.vars i).nodes[j]? := by
  obtain ⟨hret, hsim⟩ := (simulates_initial (V := V)).run ops
  refine ⟨hret, fun i => ?_⟩
  have hr := hsim.represents i
  exact ⟨hr.placed, hr.binds.nodup, hr.len_eq, hr.binds.mem_iff, iterate_shows _⟩

end Swig.DOH
