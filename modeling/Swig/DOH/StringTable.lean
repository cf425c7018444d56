import Swig.DOH.HashMap

/-!
Hash tables that hold a map, with the methods of `hash.c` on string keys.
-/

namespace Swig.DOH

/-- A hash in which every key has one node in its bucket. -/
structure StringTable (V : Type) where
  hash : Hash V
  represents : ∃ m : StringMap V, Represents hash m

namespace StringTable

variable {V : Type}

deriving instance DecidableEq for Hash

instance [DecidableEq V] : DecidableEq (StringTable V) := fun t t' =>
  decidable_of_iff (t.hash = t'.hash) ⟨fun h => by cases t; cases t'; cases h; rfl, fun h => h ▸ rfl⟩

/-- `NewHash`. -/
def new : StringTable V := ⟨newHash, ∅, represents_newHash⟩

/-- `Setattr`. -/
def set [DecidableEq V] (t : StringTable V) (k : List Byte) (v : V) : StringTable V :=
  ⟨(setObject t.hash k v).2, t.represents.elim fun m hm => ⟨m.insert k v, (hm.setObject k v).2⟩⟩

/-- `Getattr`. -/
def get (t : StringTable V) (k : List Byte) : Option V := getObject t.hash k

/-- The keys and items in the order of `First` and `Next`. -/
def items (t : StringTable V) : List (List Byte × V) := t.hash.nodes.map fun n => (n.key, n.object)

/-- `Keys`. -/
def keys (t : StringTable V) : List (List Byte) := t.hash.nodes.map HashNode.key

@[simp]
theorem get_new (k : List Byte) : (new : StringTable V).get k = none := by
  rw [get, new, represents_newHash.getObject]
  rfl

theorem get_set [DecidableEq V] (t : StringTable V) (k k' : List Byte) (v : V) :
    (t.set k v).get k' = if k' = k then some v else t.get k' := by
  obtain ⟨m, hm⟩ := t.represents
  rw [get, set, get, (hm.setObject k v).2.getObject, hm.getObject]
  split
  · rename_i hk
    rw [hk, Finmap.lookup_insert]
  · rename_i hk
    rw [Finmap.lookup_insert_of_ne m hk]

theorem mem_items_iff {t : StringTable V} {k : List Byte} {v : V} :
    (k, v) ∈ t.items ↔ t.get k = some v := by
  obtain ⟨m, hm⟩ := t.represents
  rw [get, hm.getObject, ← hm.binds.mem_iff, items, List.mem_map]
  constructor
  · rintro ⟨n, hn, heq⟩
    cases heq
    exact hn
  · exact fun hn => ⟨_, hn, rfl⟩

theorem mem_keys_iff {t : StringTable V} {k : List Byte} : k ∈ t.keys ↔ (t.get k).isSome := by
  obtain ⟨m, hm⟩ := t.represents
  rw [get, hm.getObject, keys, List.mem_map, ← hm.binds.mem_keys_iff, Finmap.mem_keys,
    Finmap.lookup_isSome]

theorem nodup_keys (t : StringTable V) : t.keys.Nodup :=
  t.represents.elim fun _ hm => hm.binds.nodup

theorem mem_keys_set [DecidableEq V] {t : StringTable V} {k k' : List Byte} {v : V} :
    k' ∈ (t.set k v).keys ↔ k' = k ∨ k' ∈ t.keys := by
  rw [mem_keys_iff, mem_keys_iff, get_set]
  split <;> simp [*]

@[simp]
theorem keys_new : (new : StringTable V).keys = [] := by
  refine List.eq_nil_iff_forall_not_mem.mpr fun k hk => ?_
  simp [mem_keys_iff] at hk

end StringTable

end Swig.DOH
