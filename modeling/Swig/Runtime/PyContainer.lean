import Mathlib.Algebra.Order.Ring.Int
import Mathlib.Data.List.Basic
import Mathlib.Tactic.NormNum.Basic

/-!
Slices of the Python container wrapper (`pycontainer.swg`).

`ptrdiff_t` is a bit vector, so that the conversions to `size_t` wrap around. A sequence is
the list of its elements, and an iterator into it the number of elements in front.
-/

namespace Swig.Runtime

/-- `std::out_of_range`. -/
inductive OutOfRange
  | outOfRange
  deriving DecidableEq

/-- `check_index`. -/
def checkIndex (i : BitVec 64) (size : ℕ) (insert : Bool) : Except OutOfRange ℕ :=
  if i.toInt < 0 then
    if (-i).toNat ≤ size then .ok (i + BitVec.ofNat 64 size).toNat else .error .outOfRange
  else if i.toNat < size then .ok i.toNat
  else if insert && i.toNat == size then .ok size
  else .error .outOfRange

/-- `slice_index`. -/
def sliceIndex (i : BitVec 64) (size : ℕ) : Except OutOfRange ℕ :=
  if i.toInt < 0 then
    if (-i).toNat ≤ size then .ok (i + BitVec.ofNat 64 size).toNat else .error .outOfRange
  else .ok (if i.toNat < size then i.toNat else size)

/-- A sequence that is worked on, where an exception can leave the work undone. -/
abbrev OnSequence (α β : Type) := ExceptT OutOfRange (StateM (List α)) β

/-- What an operation returns, and the sequence afterwards. -/
def OnSequence.on {α β : Type} (op : OnSequence α β) (self : List α) : Except OutOfRange β × List α :=
  StateT.run (ExceptT.run op) self

variable {α : Type}

namespace OnSequence

variable {β γ : Type} {self : List α}

theorem on_bind (op : OnSequence α β) (f : β → OnSequence α γ) : (op >>= f).on self =
    match op.on self with
    | (.ok b, self) => (f b).on self
    | (.error e, self) => (.error e, self) := by
  change StateT.run (op.run >>= ExceptT.bindCont f) self = _
  rw [StateT.run_bind, OnSequence.on]
  cases (op.run).run self with
  | mk r self =>
      cases r with
      | ok b => rfl
      | error e => rfl

theorem on_pure (b : β) : (pure b : OnSequence α β).on self = (.ok b, self) := rfl

theorem on_get : (get : OnSequence α (List α)).on self = (.ok self, self) := rfl

theorem on_modify (f : List α → List α) : (modify f : OnSequence α Unit).on self = (.ok (), f self) := rfl

theorem on_lift (r : Except OutOfRange β) : (liftM r : OnSequence α β).on self = (r, self) := rfl

end OnSequence

/-- `std::copy` of `v` to `sb`. -/
def copyTo (sb : ℕ) (v self : List α) : List α := self.take sb ++ v ++ self.drop (sb + v.length)

/-- `self->insert(sb, v.begin(), v.end())`. -/
def insertAt (sb : ℕ) (v self : List α) : List α := self.take sb ++ v ++ self.drop sb

/-- `self->erase(sb, se)`. -/
def eraseRange (sb se : ℕ) (self : List α) : List α := self.take sb ++ self.drop se

def getslice (i j : BitVec 64) : OnSequence α (List α) := do
  let self ← get
  let ii ← checkIndex i self.length false
  let jj ← sliceIndex j self.length
  if jj > ii then return (self.drop ii).take (jj - ii) else return []

def setslice (i j : BitVec 64) (v : List α) : OnSequence α Unit := do
  let size := (← get).length
  let ii ← checkIndex i size true
  let jj ← sliceIndex j size
  let jj := if jj < ii then ii else jj
  let ssize := jj - ii
  if ssize ≤ v.length then
    modify (copyTo ii (v.take ssize))
    modify (insertAt (ii + ssize) (v.drop ssize))
  else
    modify (eraseRange ii jj)
    modify (insertAt ii v)

def delslice (i j : BitVec 64) : OnSequence α Unit := do
  let size := (← get).length
  let ii ← checkIndex i size true
  let jj ← sliceIndex j size
  if jj > ii then modify (eraseRange ii jj)

/-! ### Slices of Python lists -/

namespace PyList

/-- The position a slice index of a list of `n` elements stands for. -/
def position (n : ℕ) (i : ℤ) : ℕ := if i < 0 then (i + n).toNat else min i.toNat n

/-- `l[i:j]`. -/
def slice (l : List α) (i j : ℤ) : List α :=
  (l.drop (position l.length i)).take (position l.length j - position l.length i)

/-- `l[i:j] = v`; a slice that ends before it starts is empty. -/
def assign (l : List α) (i j : ℤ) (v : List α) : List α :=
  l.take (position l.length i) ++ v ++ l.drop (max (position l.length i) (position l.length j))

/-- `del l[i:j]`. -/
def delete (l : List α) (i j : ℤ) : List α := assign l i j []

end PyList

/-- A vector: its size is a difference of pointers. -/
structure Sequence (α : Type) where
  items : List α
  size_lt : items.length < 2 ^ 63

/-- The operations at `i` and `j` either throw and change nothing, or are those of a Python list,
and they do not throw on a slice that starts in the list or at its end. -/
structure SlicesAsPython (l : List α) (i j : BitVec 64) (v : List α) : Prop where
  get : (getslice i j).on l = (.error .outOfRange, l) ∨
    (getslice i j).on l = (.ok (PyList.slice l i.toInt j.toInt), l)
  set : (setslice i j v).on l = (.error .outOfRange, l) ∨
    (setslice i j v).on l = (.ok (), PyList.assign l i.toInt j.toInt v)
  del : (delslice i j).on l = (.error .outOfRange, l) ∨
    (delslice i j).on l = (.ok (), PyList.delete l i.toInt j.toInt)
  total : -(l.length : ℤ) ≤ i.toInt → i.toInt ≤ l.length → -(l.length : ℤ) ≤ j.toInt →
    ((getslice i j).on l).1 ≠ .error .outOfRange ∧ ((setslice i j v).on l).1 ≠ .error .outOfRange ∧
      ((delslice i j).on l).1 ≠ .error .outOfRange

/-! ### Indices -/

variable {size : ℕ} {i j : BitVec 64} {insert : Bool}

theorem toNat_of_nonneg (h : 0 ≤ i.toInt) : (i.toNat : ℤ) = i.toInt := by
  rw [BitVec.toInt_eq_toNat_cond] at h ⊢
  split <;> omega

/-- Negative indices count from the end, and those in front of the list are refused. -/
theorem negative_index (hsize : size < 2 ^ 63) (h : i.toInt < 0) :
    ((-i).toNat ≤ size ↔ -(size : ℤ) ≤ i.toInt) ∧
      (-(size : ℤ) ≤ i.toInt → (i + BitVec.ofNat 64 size).toNat = PyList.position size i.toInt) := by
  have hi := i.isLt
  rw [BitVec.toInt_eq_toNat_cond] at h
  split at h
  · omega
  · have hval : i.toInt = (i.toNat : ℤ) - 2 ^ 64 := by
      rw [BitVec.toInt_eq_toNat_cond, if_neg (by omega)]
      norm_num
    have hneg : (-i).toNat = 2 ^ 64 - i.toNat := by
      rw [BitVec.toNat_neg, Nat.mod_eq_of_lt (by omega)]
    rw [hneg, hval, BitVec.toNat_add, BitVec.toNat_ofNat, PyList.position, if_pos (by omega)]
    constructor <;> omega

theorem checkIndex_eq (hsize : size < 2 ^ 63) : checkIndex i size insert =
    if -(size : ℤ) ≤ i.toInt ∧ (i.toInt < size ∨ insert = true ∧ i.toInt = size) then
      .ok (PyList.position size i.toInt)
    else .error .outOfRange := by
  rw [checkIndex]
  by_cases hneg : i.toInt < 0
  · obtain ⟨hle, hpos⟩ := negative_index hsize hneg
    rw [if_pos hneg]
    by_cases hlow : -(size : ℤ) ≤ i.toInt
    · rw [if_pos (hle.mpr hlow), if_pos ⟨hlow, .inl (by omega)⟩, hpos hlow]
    · rw [if_neg (mt hle.mp hlow), if_neg fun h => hlow h.1]
  · have hnat := toNat_of_nonneg (not_lt.mp hneg)
    rw [if_neg hneg, PyList.position, if_neg hneg, ← hnat, Int.toNat_natCast]
    by_cases hlt : i.toNat < size
    · rw [if_pos hlt, if_pos ⟨by omega, .inl (by omega)⟩, min_eq_left hlt.le]
    · rw [if_neg hlt]
      by_cases hend : insert = true ∧ i.toNat = size
      · rw [if_pos (by simpa using hend), if_pos ⟨by omega, .inr ⟨hend.1, by omega⟩⟩, hend.2, min_self]
      · rw [if_neg (by simpa using hend), if_neg]
        rintro ⟨-, h | ⟨hinsert, h⟩⟩
        · omega
        · exact hend ⟨hinsert, by omega⟩

theorem sliceIndex_eq (hsize : size < 2 ^ 63) : sliceIndex i size =
    if -(size : ℤ) ≤ i.toInt then .ok (PyList.position size i.toInt) else .error .outOfRange := by
  rw [sliceIndex]
  by_cases hneg : i.toInt < 0
  · obtain ⟨hle, hpos⟩ := negative_index hsize hneg
    rw [if_pos hneg]
    by_cases hlow : -(size : ℤ) ≤ i.toInt
    · rw [if_pos (hle.mpr hlow), if_pos hlow, hpos hlow]
    · rw [if_neg (mt hle.mp hlow), if_neg hlow]
  · have hnat := toNat_of_nonneg (not_lt.mp hneg)
    have hlow : -(size : ℤ) ≤ i.toInt := by omega
    rw [if_neg hneg, if_pos hlow, PyList.position, if_neg hneg, ← hnat, Int.toNat_natCast]
    by_cases hlt : i.toNat < size
    · rw [if_pos hlt, min_eq_left hlt.le]
    · rw [if_neg hlt, min_eq_right (not_lt.mp hlt)]

theorem position_le (size : ℕ) (i : ℤ) : PyList.position size i ≤ size := by
  rw [PyList.position]
  split
  · omega
  · exact min_le_right _ _

/-! ### Elements -/

theorem setslice_items (self v : List α) {ii jj : ℕ} (hii : ii ≤ self.length) (hle : ii ≤ jj) :
    (if jj - ii ≤ v.length then insertAt (ii + (jj - ii)) (v.drop (jj - ii)) (copyTo ii (v.take (jj - ii)) self)
      else insertAt ii v (eraseRange ii jj self)) = self.take ii ++ v ++ self.drop jj := by
  have hstart : (self.take ii).length = ii := List.length_take_of_le hii
  split
  case isTrue hlen =>
    -- what is copied ends where the rest of `v` is inserted
    have hcopied : (v.take (jj - ii)).length = jj - ii := List.length_take_of_le hlen
    have hfront : (self.take ii ++ v.take (jj - ii)).length = ii + (jj - ii) := by
      rw [List.length_append, hstart, hcopied]
    rw [copyTo, insertAt, hcopied, ← hfront, List.take_left, List.drop_left, hfront, List.append_assoc (self.take ii),
      List.take_append_drop, Nat.add_sub_cancel' hle]
  case isFalse =>
    have htake : (eraseRange ii jj self).take ii = self.take ii := by
      rw [eraseRange]
      exact List.take_left' hstart
    have hdrop : (eraseRange ii jj self).drop ii = self.drop jj := by
      rw [eraseRange]
      exact List.drop_left' hstart
    rw [insertAt, htake, hdrop]

/-! ### The operations -/

open OnSequence

theorem getslice_run (self : List α) : (getslice i j).on self =
    match checkIndex i self.length false, sliceIndex j self.length with
    | .ok ii, .ok jj => (.ok (if jj > ii then (self.drop ii).take (jj - ii) else []), self)
    | _, _ => (.error .outOfRange, self) := by
  simp only [getslice, on_bind, on_get, on_lift]
  cases checkIndex i self.length false with
  | error e => rfl
  | ok ii =>
      cases sliceIndex j self.length with
      | error e => rfl
      | ok jj =>
          dsimp only
          split <;> rfl

theorem setslice_run (self v : List α) : (setslice i j v).on self =
    match checkIndex i self.length true, sliceIndex j self.length with
    | .ok ii, .ok jj => (.ok (), if max ii jj - ii ≤ v.length then
        insertAt (ii + (max ii jj - ii)) (v.drop (max ii jj - ii)) (copyTo ii (v.take (max ii jj - ii)) self)
      else insertAt ii v (eraseRange ii (max ii jj) self))
    | _, _ => (.error .outOfRange, self) := by
  simp only [setslice, on_bind, on_get, on_lift]
  cases checkIndex i self.length true with
  | error e => rfl
  | ok ii =>
      cases sliceIndex j self.length with
      | error e => rfl
      | ok jj =>
          have hmax : (if jj < ii then ii else jj) = max ii jj := by
            rw [max_def]
            split <;> split <;> omega
          dsimp only
          rw [hmax]
          split <;> rfl

theorem delslice_run (self : List α) : (delslice i j).on self =
    match checkIndex i self.length true, sliceIndex j self.length with
    | .ok ii, .ok jj => (.ok (), if jj > ii then eraseRange ii jj self else self)
    | _, _ => (.error .outOfRange, self) := by
  simp only [delslice, on_bind, on_get, on_lift]
  cases checkIndex i self.length true with
  | error e => rfl
  | ok ii =>
      cases sliceIndex j self.length with
      | error e => rfl
      | ok jj =>
          dsimp only
          split <;> rfl

/-! ### The laws -/

theorem getslice_eq {self : List α} (hsize : self.length < 2 ^ 63) (i j : BitVec 64) : (getslice i j).on self =
    if (-(self.length : ℤ) ≤ i.toInt ∧ i.toInt < self.length) ∧ -(self.length : ℤ) ≤ j.toInt then
      (.ok (PyList.slice self i.toInt j.toInt), self)
    else (.error .outOfRange, self) := by
  rw [getslice_run, checkIndex_eq hsize, sliceIndex_eq hsize]
  simp only [Bool.false_eq_true, false_and, or_false]
  by_cases hi : -(self.length : ℤ) ≤ i.toInt ∧ i.toInt < self.length
  · by_cases hj : -(self.length : ℤ) ≤ j.toInt
    · rw [if_pos hi, if_pos hj, if_pos ⟨hi, hj⟩]
      dsimp only
      split
      case isTrue => rfl
      case isFalse hle => rw [PyList.slice, Nat.sub_eq_zero_of_le (not_lt.mp hle), List.take_zero]
    · have hno : ¬((-(self.length : ℤ) ≤ i.toInt ∧ i.toInt < self.length) ∧ -(self.length : ℤ) ≤ j.toInt) :=
        fun h => hj h.2
      rw [if_pos hi, if_neg hj, if_neg hno]
  · have hno : ¬((-(self.length : ℤ) ≤ i.toInt ∧ i.toInt < self.length) ∧ -(self.length : ℤ) ≤ j.toInt) :=
      fun h => hi h.1
    rw [if_neg hi, if_neg hno]

theorem setslice_eq {self : List α} (hsize : self.length < 2 ^ 63) (i j : BitVec 64) (v : List α) :
    (setslice i j v).on self =
      if (-(self.length : ℤ) ≤ i.toInt ∧ i.toInt ≤ self.length) ∧ -(self.length : ℤ) ≤ j.toInt then
        (.ok (), PyList.assign self i.toInt j.toInt v)
      else (.error .outOfRange, self) := by
  rw [setslice_run, checkIndex_eq hsize, sliceIndex_eq hsize]
  simp only [true_and, ← le_iff_lt_or_eq]
  by_cases hi : -(self.length : ℤ) ≤ i.toInt ∧ i.toInt ≤ self.length
  · by_cases hj : -(self.length : ℤ) ≤ j.toInt
    · rw [if_pos hi, if_pos hj, if_pos ⟨hi, hj⟩]
      dsimp only
      rw [setslice_items self v (position_le self.length i.toInt) (le_max_left _ _)]
      rfl
    · have hno : ¬((-(self.length : ℤ) ≤ i.toInt ∧ i.toInt ≤ self.length) ∧ -(self.length : ℤ) ≤ j.toInt) :=
        fun h => hj h.2
      rw [if_pos hi, if_neg hj, if_neg hno]
  · have hno : ¬((-(self.length : ℤ) ≤ i.toInt ∧ i.toInt ≤ self.length) ∧ -(self.length : ℤ) ≤ j.toInt) :=
      fun h => hi h.1
    rw [if_neg hi, if_neg hno]

theorem delslice_eq {self : List α} (hsize : self.length < 2 ^ 63) (i j : BitVec 64) : (delslice i j).on self =
    if (-(self.length : ℤ) ≤ i.toInt ∧ i.toInt ≤ self.length) ∧ -(self.length : ℤ) ≤ j.toInt then
      (.ok (), PyList.delete self i.toInt j.toInt)
    else (.error .outOfRange, self) := by
  rw [delslice_run, checkIndex_eq hsize, sliceIndex_eq hsize]
  simp only [true_and, ← le_iff_lt_or_eq]
  by_cases hi : -(self.length : ℤ) ≤ i.toInt ∧ i.toInt ≤ self.length
  · by_cases hj : -(self.length : ℤ) ≤ j.toInt
    · rw [if_pos hi, if_pos hj, if_pos ⟨hi, hj⟩]
      dsimp only
      rw [PyList.delete, PyList.assign, List.append_nil]
      split
      case isTrue hlt => rw [eraseRange, max_eq_right (le_of_lt hlt)]
      case isFalse hle => rw [max_eq_left (not_lt.mp hle), List.take_append_drop]
    · have hno : ¬((-(self.length : ℤ) ≤ i.toInt ∧ i.toInt ≤ self.length) ∧ -(self.length : ℤ) ≤ j.toInt) :=
        fun h => hj h.2
      rw [if_pos hi, if_neg hj, if_neg hno]
  · have hno : ¬((-(self.length : ℤ) ≤ i.toInt ∧ i.toInt ≤ self.length) ∧ -(self.length : ℤ) ≤ j.toInt) :=
      fun h => hi h.1
    rw [if_neg hi, if_neg hno]

/-- The slices are those of Python, except that a slice cannot be read from the end of the list on. -/
theorem slicesAsPython_iff (self : Sequence α) (i j : BitVec 64) (v : List α) :
    SlicesAsPython self.items i j v ↔
      (i.toInt = self.items.length → j.toInt < -(self.items.length : ℤ)) := by
  have hget := getslice_eq self.size_lt i j
  have hset := setslice_eq self.size_lt i j v
  have hdel := delslice_eq self.size_lt i j
  constructor
  · intro h hend
    by_contra hj
    refine (h.total (by omega) (by omega) (not_lt.mp hj)).1 ?_
    rw [hget, if_neg (by omega)]
  · intro hend
    refine ⟨?_, ?_, ?_, ?_⟩
    · rw [hget]
      split
      · exact .inr rfl
      · exact .inl rfl
    · rw [hset]
      split
      · exact .inr rfl
      · exact .inl rfl
    · rw [hdel]
      split
      · exact .inr rfl
      · exact .inl rfl
    · intro hlow hhigh hj
      have hne : i.toInt ≠ self.items.length := fun h => absurd hj (not_le.mpr (hend h))
      rw [hget, hset, hdel, if_pos ⟨⟨hlow, lt_of_le_of_ne hhigh hne⟩, hj⟩, if_pos ⟨⟨hlow, hhigh⟩, hj⟩,
        if_pos ⟨⟨hlow, hhigh⟩, hj⟩]
      exact ⟨nofun, nofun, nofun⟩

/-- `l[0:0]` of an empty list is refused. -/
theorem slicesAsPython_empty : ¬SlicesAsPython ([] : List ℕ) 0 0 [] := by
  intro h
  exact (h.total (by decide) (by decide) (by decide)).1 rfl

end Swig.Runtime
