import Mathlib.Logic.Function.Basic
import Mathlib.Data.List.Nodup
import Mathlib.Tactic.Common

/-!
Binary search trees in a memory of cells.

A tree knows the address of each of its nodes. `Lays` says that it is what the memory holds
from a pointer on. The order is a comparison `cmp` of a node's key with the key looked for, and
what is less goes to the left: the keys on the left of a node are those it is less than.
-/

namespace SearchTree

structure Cell (κ β : Type*) where
  key : κ
  value : β
  left : Option ℕ
  right : Option ℕ

inductive KeyedTree (κ β : Type*)
  | nil
  | node (a : ℕ) (key : κ) (value : β) (left right : KeyedTree κ β)

variable {κ β : Type*} {mem mem' : ℕ → Option (Cell κ β)} {cmp : κ → κ → Ordering} {r : Option ℕ}
  {t : KeyedTree κ β} {a : ℕ} {k : κ} {v : β}

/-! ### Trees -/

namespace KeyedTree

def addresses : KeyedTree κ β → List ℕ
  | nil => []
  | node a _ _ l r => a :: (l.addresses ++ r.addresses)

def bindings : KeyedTree κ β → List (κ × β)
  | nil => []
  | node _ k v l r => (k, v) :: (l.bindings ++ r.bindings)

def keys (t : KeyedTree κ β) : List κ := t.bindings.map Prod.fst

/-- A search tree. -/
def Ordered (cmp : κ → κ → Ordering) : KeyedTree κ β → Prop
  | nil => True
  | node _ k _ l r =>
      (∀ x ∈ l.keys, cmp k x = .lt) ∧ (∀ x ∈ r.keys, cmp k x = .gt) ∧ l.Ordered cmp ∧ r.Ordered cmp

/-- A new node at `a`, where the search for its key ends. -/
def insert (cmp : κ → κ → Ordering) (a : ℕ) (k : κ) (v : β) : KeyedTree κ β → KeyedTree κ β
  | nil => node a k v nil nil
  | node b k' v' l r =>
      match cmp k' k with
      | .eq => node b k' v' l r
      | .lt => node b k' v' (l.insert cmp a k v) r
      | .gt => node b k' v' l (r.insert cmp a k v)

@[simp]
theorem keys_nil : (nil : KeyedTree κ β).keys = [] := rfl

@[simp]
theorem keys_node (a : ℕ) (k : κ) (v : β) (l r : KeyedTree κ β) : (node a k v l r).keys = k :: (l.keys ++ r.keys) := by
  rw [keys, bindings, List.map_cons, List.map_append]
  rfl

theorem length_addresses (t : KeyedTree κ β) : t.addresses.length = t.bindings.length := by
  induction t with
  | nil => rfl
  | node a k v l r ihl ihr => simp [addresses, bindings, ihl, ihr]

theorem mem_bindings_node {a : ℕ} {k : κ} {v : β} {l r : KeyedTree κ β} {c : κ × β} :
    c ∈ (node a k v l r).bindings ↔ c = (k, v) ∨ c ∈ l.bindings ∨ c ∈ r.bindings := by
  rw [bindings, List.mem_cons, List.mem_append]

theorem Ordered.nodup_keys [Std.LawfulEqCmp cmp] (h : t.Ordered cmp) : t.keys.Nodup := by
  induction t with
  | nil => exact List.nodup_nil
  | node a k v l r ihl ihr =>
      obtain ⟨hl, hr, hol, hor⟩ := h
      have hself : cmp k k = .eq := Std.ReflCmp.compare_self
      rw [keys_node, List.nodup_cons, List.mem_append]
      refine ⟨?_, (ihl hol).append (ihr hor) fun x hx hx' => ?_⟩
      · rintro (hk | hk)
        · cases hself.symm.trans (hl k hk)
        · cases hself.symm.trans (hr k hk)
      · cases (hl x hx).symm.trans (hr x hx')

/-- A search goes to the side where the key is. -/
theorem Ordered.not_mem_lt {l r : KeyedTree κ β} (h : (node a k v l r).Ordered cmp) {x : κ} (hx : cmp k x = .lt) :
    x ∉ r.keys := fun hmem => by cases hx.symm.trans (h.2.1 x hmem)

theorem Ordered.not_mem_gt {l r : KeyedTree κ β} (h : (node a k v l r).Ordered cmp) {x : κ} (hx : cmp k x = .gt) :
    x ∉ l.keys := fun hmem => by cases hx.symm.trans (h.1 x hmem)

/-! ### Insertion -/

section Insert

variable [Std.LawfulEqCmp cmp]

theorem insert_of_mem (h : t.Ordered cmp) (hk : k ∈ t.keys) : t.insert cmp a k v = t := by
  induction t with
  | nil => cases hk
  | node b k' v' l r ihl ihr =>
      rw [insert]
      obtain rfl | hk := List.mem_cons.mp (keys_node .. ▸ hk)
      · rw [show cmp k k = .eq from Std.ReflCmp.compare_self]
      · cases hcmp : cmp k' k with
        | eq => rfl
        | lt =>
            dsimp only
            rw [ihl h.2.2.1 ((List.mem_append.mp hk).resolve_right (h.not_mem_lt hcmp))]
        | gt =>
            dsimp only
            rw [ihr h.2.2.2 ((List.mem_append.mp hk).resolve_left (h.not_mem_gt hcmp))]

theorem insert_perm (hk : k ∉ t.keys) :
    (t.insert cmp a k v).addresses.Perm (a :: t.addresses) ∧
      (t.insert cmp a k v).bindings.Perm ((k, v) :: t.bindings) := by
  induction t with
  | nil => exact ⟨List.Perm.refl _, List.Perm.refl _⟩
  | node b k' v' l r ihl ihr =>
      rw [keys_node, List.mem_cons, List.mem_append, not_or, not_or] at hk
      obtain ⟨hne, hkl, hkr⟩ := hk
      rw [insert]
      cases hcmp : cmp k' k with
      | eq => exact absurd (Std.LawfulEqCmp.eq_of_compare hcmp).symm hne
      | lt =>
          obtain ⟨haddr, hbind⟩ := ihl hkl
          exact ⟨((haddr.append_right _).cons b).trans (List.Perm.swap ..),
            ((hbind.append_right _).cons _).trans (List.Perm.swap ..)⟩
      | gt =>
          obtain ⟨haddr, hbind⟩ := ihr hkr
          exact ⟨(((haddr.append_left _).trans List.perm_middle).cons b).trans (List.Perm.swap ..),
            (((hbind.append_left _).trans List.perm_middle).cons _).trans (List.Perm.swap ..)⟩

theorem mem_keys_insert (hk : k ∉ t.keys) {x : κ} : x ∈ (t.insert cmp a k v).keys ↔ x = k ∨ x ∈ t.keys := by
  rw [keys, ((insert_perm hk).2.map Prod.fst).mem_iff, List.map_cons, List.mem_cons]
  rfl

theorem Ordered.insert (h : t.Ordered cmp) (hk : k ∉ t.keys) : (t.insert cmp a k v).Ordered cmp := by
  induction t with
  | nil => exact ⟨nofun, nofun, trivial, trivial⟩
  | node b k' v' l r ihl ihr =>
      obtain ⟨hl, hr, hol, hor⟩ := h
      rw [keys_node, List.mem_cons, List.mem_append, not_or, not_or] at hk
      obtain ⟨hne, hkl, hkr⟩ := hk
      rw [KeyedTree.insert]
      cases hcmp : cmp k' k with
      | eq => exact ⟨hl, hr, hol, hor⟩
      | lt =>
          refine ⟨fun x hx => ?_, hr, ihl hol hkl, hor⟩
          obtain rfl | hx := (mem_keys_insert hkl).mp hx
          · exact hcmp
          · exact hl x hx
      | gt =>
          refine ⟨hl, fun x hx => ?_, hol, ihr hor hkr⟩
          obtain rfl | hx := (mem_keys_insert hkr).mp hx
          · exact hcmp
          · exact hr x hx

end Insert

end KeyedTree

/-! ### Trees in memory -/

/-- The memory holds the tree from the pointer `r` on. -/
def Lays (mem : ℕ → Option (Cell κ β)) : Option ℕ → KeyedTree κ β → Prop
  | r, .nil => r = none
  | p, .node a k v l r =>
      p = some a ∧ ∃ left right, mem a = some ⟨k, v, left, right⟩ ∧ Lays mem left l ∧ Lays mem right r

/-- Only the cells of the tree matter. -/
theorem Lays.congr (h : Lays mem r t) (hmem : ∀ a ∈ t.addresses, mem' a = mem a) : Lays mem' r t := by
  induction t generalizing r with
  | nil => exact h
  | node a k v l r' ihl ihr =>
      obtain ⟨hr, left, right, hcell, hl, hright⟩ := h
      refine ⟨hr, left, right, (hmem a List.mem_cons_self).trans hcell, ihl hl fun b hb => ?_,
        ihr hright fun b hb => ?_⟩
      · exact hmem b (List.mem_cons_of_mem a (List.mem_append_left _ hb))
      · exact hmem b (List.mem_cons_of_mem a (List.mem_append_right _ hb))

/-- A cell with a new child on the side of the last comparison. -/
def Cell.graft (c : Cell κ β) (d : Ordering) (a : ℕ) : Cell κ β :=
  if d = .lt then { c with left := some a } else { c with right := some a }

end SearchTree
