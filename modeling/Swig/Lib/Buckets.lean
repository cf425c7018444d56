import Mathlib.Data.List.Basic

/-!
Tables of buckets: the elements of a bucket are those whose slot is its
number. The operations of a chained hash table replace one bucket or
redistribute all elements; up to order this changes the elements as a whole
(`List.flatten`) in the same way as the one bucket.
-/

namespace Swig.Lib.Buckets

variable {α : Type*}

/-- The bucket with number `i`; empty when there is none. -/
def bucket (t : List (List α)) (i : ℕ) : List α := t[i]?.getD []

theorem bucket_eq_getElem {t : List (List α)} {i : ℕ} (h : i < t.length) : bucket t i = t[i] := by
  simp [bucket, h]

@[simp]
theorem bucket_replicate (n i : ℕ) : bucket (List.replicate n ([] : List α)) i = [] := by
  rw [bucket, List.getElem?_replicate]
  split <;> rfl

theorem bucket_set {t : List (List α)} {i : ℕ} (h : i < t.length) (c : List α) (j : ℕ) :
    bucket (t.set i c) j = if j = i then c else bucket t j := by
  rw [bucket, List.getElem?_set]
  by_cases hj : j = i
  · simp [hj, h]
  · rw [if_neg (Ne.symm hj), if_neg hj, bucket]

theorem mem_bucket_iff {t : List (List α)} {a : α} :
    a ∈ t.flatten ↔ ∃ i, a ∈ bucket t i := by
  rw [List.mem_flatten]
  constructor
  · rintro ⟨c, hc, ha⟩
    obtain ⟨i, hi, rfl⟩ := List.getElem_of_mem hc
    exact ⟨i, by rwa [bucket_eq_getElem hi]⟩
  · rintro ⟨i, ha⟩
    rcases Nat.lt_or_ge i t.length with hi | hi
    · rw [bucket_eq_getElem hi] at ha
      exact ⟨t[i], List.getElem_mem hi, ha⟩
    · simp [bucket, hi] at ha

/-- Besides bucket `i` the table holds some other elements, and replacing the
bucket leaves them. -/
theorem exists_flatten_set_perm {t : List (List α)} {i : ℕ} (h : i < t.length) :
    ∃ rest, t.flatten.Perm (bucket t i ++ rest) ∧
      ∀ c, (t.set i c).flatten.Perm (c ++ rest) := by
  refine ⟨(t.take i).flatten ++ (t.drop (i + 1)).flatten, ?_, fun c => ?_⟩
  · conv_lhs => rw [← List.take_append_drop i t, List.drop_eq_getElem_cons h]
    rw [List.flatten_append, List.flatten_cons, bucket_eq_getElem h]
    exact List.perm_append_comm_assoc _ _ _
  · rw [List.set_eq_take_append_cons_drop, if_pos h, List.flatten_append, List.flatten_cons]
    exact List.perm_append_comm_assoc _ _ _

theorem lt_length_of_mem {t : List (List α)} {i : ℕ} {a : α} (h : a ∈ bucket t i) : i < t.length := by
  by_contra hi
  rw [bucket, List.getElem?_eq_none (Nat.le_of_not_lt hi)] at h
  cases h

/-- Where a label is used once, different buckets have different labels. -/
theorem label_ne {β : Type*} {f : α → β} {t : List (List α)} (h : (t.flatten.map f).Nodup) {i j : ℕ} (hij : j ≠ i)
    {a b : α} (ha : a ∈ bucket t i) (hb : b ∈ bucket t j) : f a ≠ f b := by
  have hi := lt_length_of_mem ha
  obtain ⟨rest, hperm, hset⟩ := exists_flatten_set_perm hi
  have hrest : b ∈ rest := by
    have hb' : b ∈ bucket (t.set i []) j := by rwa [bucket_set hi, if_neg hij]
    exact (hset []).mem_iff.mp (mem_bucket_iff.mpr ⟨j, hb'⟩)
  have hnodup := (hperm.map f).nodup_iff.mp h
  rw [List.map_append] at hnodup
  exact (List.nodup_append.mp hnodup).2.2 _ (List.mem_map_of_mem ha) _ (List.mem_map_of_mem hrest)

/-- Put `a` in front of bucket `i`. -/
def push (t : List (List α)) (i : ℕ) (a : α) : List (List α) := t.set i (a :: bucket t i)

@[simp]
theorem length_push (t : List (List α)) (i : ℕ) (a : α) : (push t i a).length = t.length := by
  simp [push]

theorem flatten_push_perm {t : List (List α)} {i : ℕ} (h : i < t.length) (a : α) :
    (push t i a).flatten.Perm (a :: t.flatten) := by
  obtain ⟨rest, ht, hset⟩ := exists_flatten_set_perm h
  exact (hset _).trans (ht.symm.cons a)

/-- Every element is in the bucket its slot names. -/
def Placed (slot : α → ℕ) (t : List (List α)) : Prop := ∀ i, ∀ a ∈ bucket t i, slot a = i

variable {slot : α → ℕ}

theorem placed_replicate (n : ℕ) : Placed slot (List.replicate n []) := by
  intro i a ha
  simp at ha

theorem Placed.mem_bucket {t : List (List α)} (h : Placed slot t) {a : α} {i : ℕ} :
    a ∈ bucket t i ↔ a ∈ t.flatten ∧ slot a = i := by
  constructor
  · intro ha
    exact ⟨mem_bucket_iff.mpr ⟨i, ha⟩, h i a ha⟩
  · rintro ⟨ha, hi⟩
    obtain ⟨j, hj⟩ := mem_bucket_iff.mp ha
    rwa [← hi, h j a hj]

theorem Placed.set {t : List (List α)} (h : Placed slot t) {i : ℕ} (hi : i < t.length)
    {c : List α} (hc : ∀ a ∈ c, slot a = i) : Placed slot (t.set i c) := by
  intro j a ha
  rw [bucket_set hi] at ha
  split at ha
  · next hj => exact (hc a ha).trans hj.symm
  · exact h j a ha

theorem Placed.push {t : List (List α)} (h : Placed slot t) {a : α} (ha : slot a < t.length) :
    Placed slot (push t (slot a) a) := by
  refine h.set ha fun b hb => ?_
  rcases List.mem_cons.mp hb with rfl | hb
  · rfl
  · exact h _ b hb

/-- Push the elements of `xs` one after the other. -/
def distribute (slot : α → ℕ) (t : List (List α)) (xs : List α) : List (List α) :=
  xs.foldl (fun t a => push t (slot a) a) t

@[simp]
theorem length_distribute (t : List (List α)) (xs : List α) :
    (distribute slot t xs).length = t.length := by
  induction xs generalizing t with
  | nil => rfl
  | cons x xs ih => simpa [distribute] using ih (Buckets.push t (slot x) x)

theorem flatten_distribute_perm {t : List (List α)} (hslot : ∀ a, slot a < t.length)
    (xs : List α) : (distribute slot t xs).flatten.Perm (xs ++ t.flatten) := by
  induction xs generalizing t with
  | nil => exact List.Perm.refl _
  | cons x xs ih =>
      have hpush : ∀ a, slot a < (Buckets.push t (slot x) x).length := by simpa using hslot
      have hx := flatten_push_perm (hslot x) x
      exact (ih hpush).trans ((hx.append_left xs).trans List.perm_middle)

theorem Placed.distribute {t : List (List α)} (h : Placed slot t) (hslot : ∀ a, slot a < t.length)
    (xs : List α) : Placed slot (distribute slot t xs) := by
  induction xs generalizing t with
  | nil => exact h
  | cons x xs ih => exact ih (h.push (hslot x)) (by simpa using hslot)

end Swig.Lib.Buckets
