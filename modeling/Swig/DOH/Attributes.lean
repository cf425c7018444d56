import Swig.DOH.HashMap

/-!
Attributes of a node (`base.c`): a hash table read through `DohGetattr`, which takes the
`None` object for a null pointer.
-/

namespace Swig.DOH

variable {V : Type}

/-- The table is laid out as the methods leave it. -/
def Hash.Valid (h : Hash V) : Prop := ∃ m, Represents h m

variable {h : Hash V} {k k' : List Byte} {v : V}

theorem valid_newHash : (newHash : Hash V).Valid := ⟨∅, represents_newHash⟩

theorem Hash.Valid.delete (hv : h.Valid) (k : List Byte) : (deleteObject h k).2.Valid := by
  obtain ⟨m, hr⟩ := hv
  exact ⟨m.erase k, (hr.deleteObject k).2⟩

theorem getObject_delete (hv : h.Valid) (k k' : List Byte) :
    getObject (deleteObject h k).2 k' = if k' = k then none else getObject h k' := by
  obtain ⟨m, hr⟩ := hv
  rw [(hr.deleteObject k).2.getObject, hr.getObject]
  split
  case isTrue heq => rw [heq, Finmap.lookup_erase]
  case isFalse hne => rw [Finmap.lookup_erase_ne hne]

/-- `Keys` lists every key of the table once. -/
theorem Hash.Valid.keys (hv : h.Valid) : ∃ keys, hashKeys h (h.nodes.length + 1) = some keys ∧ keys.Nodup ∧
    ∀ k, k ∈ keys ↔ (getObject h k).isSome := by
  obtain ⟨m, hr⟩ := hv
  refine ⟨_, hashKeys_eq h (Nat.lt_succ_self _), hr.binds.nodup, fun k => ?_⟩
  rw [hr.getObject, Finmap.lookup_isSome, ← Finmap.mem_keys, hr.binds.mem_keys_iff, List.mem_map]

section Set

variable [DecidableEq V]

theorem Hash.Valid.set (hv : h.Valid) (k : List Byte) (v : V) : (setObject h k v).2.Valid := by
  obtain ⟨m, hr⟩ := hv
  exact ⟨m.insert k v, (hr.setObject k v).2⟩

theorem getObject_set (hv : h.Valid) (k k' : List Byte) (v : V) :
    getObject (setObject h k v).2 k' = if k' = k then some v else getObject h k' := by
  obtain ⟨m, hr⟩ := hv
  rw [(hr.setObject k v).2.getObject, hr.getObject]
  split
  case isTrue heq => rw [heq, Finmap.lookup_insert]
  case isFalse hne => rw [Finmap.lookup_insert_of_ne m hne]

/-- `DohSetattr`, where a null value deletes the attribute. -/
def setattr (h : Hash V) (k : List Byte) : Option V → ℕ × Hash V
  | some v => setObject h k v
  | none => deleteObject h k

theorem Hash.Valid.setattr (hv : h.Valid) (k : List Byte) (v : Option V) : (DOH.setattr h k v).2.Valid := by
  cases v with
  | some v => exact hv.set k v
  | none => exact hv.delete k

theorem getObject_setattr (hv : h.Valid) (k k' : List Byte) (v : Option V) :
    getObject (setattr h k v).2 k' = if k' = k then v else getObject h k' := by
  cases v with
  | some v => exact getObject_set hv k k' v
  | none => exact getObject_delete hv k k'

end Set

end Swig.DOH
