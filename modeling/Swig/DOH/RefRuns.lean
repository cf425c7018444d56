import Swig.DOH.PoolHash

/-!
Runs of the list and hash operations by a caller that deletes only references it
owns and uses only objects it holds.
-/

namespace Swig.DOH

open RefCount

/-- The objects, and the number of references to each that the caller owns. -/
structure World where
  pool : Pool
  owned : ℕ → ℕ

inductive PoolOp
  | newString (c : List Byte)
  | newList
  | newHash
  | incref (o : ℕ)
  | delete (o : ℕ)
  | copy (o : ℕ)
  | clear (o : ℕ)
  | insertitem (lo : ℕ) (pos : ℤ) (item : Option Value)
  | setitem (lo : ℕ) (n : ℤ) (val : Option Value)
  | delitem (lo : ℕ) (pos : ℤ)
  | setattr (ho : ℕ) (k : Value) (obj : Option Value)
  | delattr (ho : ℕ) (k : Value)

namespace World

/-- The caller owns one more reference to the object. -/
def gain (owned : ℕ → ℕ) (o : ℕ) : ℕ → ℕ := Function.update owned o (owned o + 1)

/-- The caller has given one reference away. -/
def lose (owned : ℕ → ℕ) (o : ℕ) : ℕ → ℕ := Function.update owned o (owned o - 1)

def init : World := ⟨⟨[], .null⟩, fun _ => 0⟩

def step (w : World) : PoolOp → Option World
  | .newString c =>
      let (o, p) := w.pool.newString c
      some ⟨p, gain w.owned o⟩
  | .newList =>
      let (o, p) := w.pool.newList
      some ⟨p, gain w.owned o⟩
  | .newHash =>
      let (o, p) := w.pool.newHash
      some ⟨p, gain w.owned o⟩
  | .incref o => do
      let p ← w.pool.incref o
      return ⟨p, gain w.owned o⟩
  | .delete o => do
      let p ← w.pool.delete o
      return ⟨p, lose w.owned o⟩
  | .copy o => do
      let (no, p) ← w.pool.copy o
      return ⟨p, gain w.owned no⟩
  | .clear o => do
      let p ← w.pool.clear o
      return ⟨p, w.owned⟩
  | .insertitem lo pos item => do
      let (_, p) ← w.pool.listInsert lo pos item
      return ⟨p, w.owned⟩
  | .setitem lo n val => do
      let (_, p) ← w.pool.listSet lo n val
      -- the list takes over the reference to the object
      match val with
      | some (.obj o) => return ⟨p, lose w.owned o⟩
      | _ => return ⟨p, w.owned⟩
  | .delitem lo pos => do
      let (_, p) ← w.pool.listRemove lo pos
      return ⟨p, w.owned⟩
  | .setattr ho k obj => do
      let (_, p) ← w.pool.hashSetattr ho k obj
      return ⟨p, w.owned⟩
  | .delattr ho k => do
      let (_, p) ← w.pool.hashDelattr ho k
      return ⟨p, w.owned⟩

/-- What the caller sees to. An index passes the assertion of the code, and
`Setitem` is given an object with a reference of the caller's. -/
def Allowed (w : World) : PoolOp → Prop
  | .newString _ | .newList | .newHash => True
  | .incref o | .copy o => Held w.owned w.pool.slots o
  | .delete o => 0 < w.owned o
  | .clear o => Held w.owned w.pool.slots o ∧
      ((∃ l, w.pool.items o = some l) ∨ ∃ t, w.pool.table o = some t)
  | .insertitem lo _ item => Held w.owned w.pool.slots lo ∧ (∃ l, w.pool.items lo = some l) ∧
      ∀ v ∈ item, v.Given w.owned w.pool.slots
  | .setitem lo n val => Held w.owned w.pool.slots lo ∧
      ∃ l, w.pool.items lo = some l ∧
        ∀ v ∈ val, (0 ≤ n ∧ n < l.length) ∧ ∃ o, v = .obj o ∧ 0 < w.owned o
  | .delitem lo pos => Held w.owned w.pool.slots lo ∧
      ∃ l, w.pool.items lo = some l ∧
        0 ≤ Pool.removeIndex pos l.length ∧ Pool.removeIndex pos l.length < l.length
  | .setattr ho k obj => Held w.owned w.pool.slots ho ∧ (∃ t, w.pool.table ho = some t) ∧
      k.Given w.owned w.pool.slots ∧
      ∀ v ∈ obj, v.Given w.owned w.pool.slots ∧ w.pool.HeldWithout w.owned ho k v
  | .delattr ho k => Held w.owned w.pool.slots ho ∧ (∃ t, w.pool.table ho = some t) ∧
      k.Given w.owned w.pool.slots

/-- The worlds that runs of allowed operations lead to. -/
inductive Reachable : World → Prop
  | init : Reachable init
  | step {w w' : World} (h : Reachable w) (op : PoolOp) (ha : w.Allowed op)
      (hs : w.step op = some w') : Reachable w'

/-- Every object that is not interned counts the references the caller owns and
the slots that hold it, and no slot refers to a freed object. -/
structure Conserved (w : World) : Prop where
  refcount : ∀ o b, w.pool.get o = some b → b.flag_intern = false →
    b.refcount = w.owned o + slotCount w.pool.slots w.pool.objs.length o
  slots : ∀ c o, o ∈ w.pool.slots c → ∃ b, w.pool.get o = some b
  owned : ∀ o, 0 < w.owned o → ∃ b, w.pool.get o = some b

variable {w w' : World} {op : PoolOp}

theorem conserved_of_sound (h : w.pool.Sound w.owned) : w.Conserved := by
  refine ⟨fun o b hb hi => ?_, fun c o ho => ?_, fun o ho => ?_⟩
  · simpa using h.counted.refcount o b hb hi
  · exact h.counted.exists_of_ref o (.inr (.inl ⟨c, ho⟩))
  · exact h.counted.exists_of_ref o (.inl ho)

theorem sound_init : init.pool.Sound init.owned := by
  have hnone (o : ℕ) : init.pool.get o = none := rfl
  have hnil (o : ℕ) : init.pool.slots o = [] := rfl
  refine ⟨⟨fun o b hb => ?_, fun o ho => ?_, fun c b hb => ?_, fun c _ => hnil c, fun o b hb => ?_⟩,
    fun o b hb => ?_, fun c b t n hb => ?_, fun c k hk => ?_⟩
  · rw [hnone] at hb
    cases hb
  · rcases ho with ho | ⟨c, hc⟩ | ho
    · exact absurd ho (Nat.lt_irrefl 0)
    · rw [hnil] at hc
      cases hc
    · cases ho
  · rw [hnone] at hb
    cases hb
  · rw [hnone] at hb
    cases hb
  · rw [hnone] at hb
    cases hb
  · rw [hnone] at hb
    cases hb
  · cases hk

/-! ### One operation -/

theorem sound_new (h : w.pool.Sound w.owned) (data : ObjData) (hdata : data.slots = [])
    (htable : ∀ t n, data = .hash t n → 0 < t.length) :
    (w.pool.objMalloc data).2.Sound (gain w.owned (w.pool.objMalloc data).1) := by
  have h₁ := Pool.Ready.objMalloc h data [] (fun x => by rw [hdata]; rfl) htable
  exact h₁.own

theorem sound_copy (h : w.pool.Sound w.owned) {o : ℕ} (ho : Held w.owned w.pool.slots o) :
    ∃ no p, w.pool.copy o = some (no, p) ∧ p.Sound (gain w.owned no) := by
  obtain ⟨b, hb, -⟩ := h.counted.live_of_held ho
  cases hdata : b.data with
  | string s =>
      refine ⟨_, _, ?_, sound_new h (.string s) rfl (by simp)⟩
      simp [Pool.copy, hb, hdata]
  | list l =>
      obtain ⟨no, p, hp, h'⟩ := h.copyList (Pool.items_eq hb hdata)
      exact ⟨no, p, by simp [Pool.copy, hb, hdata, hp], h'⟩
  | hash t n =>
      obtain ⟨no, p, hp, h'⟩ := h.copyHash (Pool.table_eq hb hdata) ho
      exact ⟨no, p, by simp [Pool.copy, hb, hdata, hp], h'⟩

theorem sound_clear (h : w.pool.Sound w.owned) {o : ℕ} (ho : Held w.owned w.pool.slots o)
    (hdata : (∃ l, w.pool.items o = some l) ∨ ∃ t, w.pool.table o = some t) :
    ∃ p, w.pool.clear o = some p ∧ p.Sound w.owned := by
  rcases hdata with ⟨l, hl⟩ | ⟨⟨t, n⟩, ht⟩
  · obtain ⟨p, hp, h'⟩ := h.listClear hl ho
    obtain ⟨b, hb, hdata⟩ := Pool.items_eq_some hl
    exact ⟨p, by simp [Pool.clear, hb, hdata, hp], h'⟩
  · obtain ⟨p, hp, h'⟩ := h.hashClear ht ho
    obtain ⟨b, hb, hdata⟩ := Pool.table_eq_some ht
    exact ⟨p, by simp [Pool.clear, hb, hdata, hp], h'⟩

theorem sound_incref (h : w.pool.Sound w.owned) {o : ℕ} (ho : Held w.owned w.pool.slots o) :
    ∃ p, w.pool.incref o = some p ∧ p.Sound (gain w.owned o) := by
  obtain ⟨b, hb, -⟩ := h.counted.live_of_held ho
  obtain ⟨hp, h'⟩ := Pool.Ready.incref h hb none (by simp)
  exact ⟨_, hp, h'.own⟩

theorem sound_delete (h : w.pool.Sound w.owned) {o : ℕ} (ho : 0 < w.owned o) :
    ∃ p, w.pool.delete o = some p ∧ p.Sound (lose w.owned o) := by
  obtain ⟨p, S, hp, h', -⟩ := (Pool.Ready.disown h ho).delete (by simp)
  exact ⟨p, hp, h'.sound⟩

/-- An allowed operation goes through and keeps the counts. -/
theorem step_sound (h : w.pool.Sound w.owned) (ha : w.Allowed op) :
    ∃ w', w.step op = some w' ∧ w'.pool.Sound w'.owned := by
  cases op with
  | newString c => exact ⟨_, rfl, sound_new h (.string c) rfl (by simp)⟩
  | newList => exact ⟨_, rfl, sound_new h (.list []) rfl (by simp)⟩
  | newHash =>
      refine ⟨_, rfl, sound_new h (.hash (List.replicate 7 []) 0) rfl fun t n heq => ?_⟩
      cases heq
      exact Nat.succ_pos 6
  | incref o =>
      obtain ⟨p, hp, h'⟩ := sound_incref h ha
      exact ⟨⟨p, gain w.owned o⟩, by simp [step, hp], h'⟩
  | delete o =>
      obtain ⟨p, hp, h'⟩ := sound_delete h ha
      exact ⟨⟨p, lose w.owned o⟩, by simp [step, hp], h'⟩
  | copy o =>
      obtain ⟨no, p, hp, h'⟩ := sound_copy h ha
      exact ⟨⟨p, gain w.owned no⟩, by simp [step, hp], h'⟩
  | clear o =>
      obtain ⟨p, hp, h'⟩ := sound_clear h ha.1 ha.2
      exact ⟨⟨p, w.owned⟩, by simp [step, hp], h'⟩
  | insertitem lo pos item =>
      obtain ⟨hlo, ⟨l, hl⟩, hitem⟩ := ha
      cases item with
      | none => exact ⟨_, rfl, h⟩
      | some v =>
          obtain ⟨p, hp, h'⟩ := h.listInsert hl hlo (hitem v rfl) pos
          exact ⟨⟨p, w.owned⟩, by simp [step, hp], h'⟩
  | setitem lo n val =>
      obtain ⟨hlo, l, hl, hval⟩ := ha
      cases val with
      | none => exact ⟨_, rfl, h⟩
      | some v =>
          obtain ⟨⟨hn, hlt⟩, o, rfl, ho⟩ := hval v rfl
          obtain ⟨p, hp, h'⟩ := h.listSet hl hlo hn hlt ho
          exact ⟨⟨p, lose w.owned o⟩, by simp [step, hp], h'⟩
  | delitem lo pos =>
      obtain ⟨hlo, l, hl, hpos, hlt⟩ := ha
      obtain ⟨p, hp, h'⟩ := h.listRemove hl hlo hpos hlt
      exact ⟨⟨p, w.owned⟩, by simp [step, hp], h'⟩
  | setattr ho k obj =>
      obtain ⟨hho, ⟨⟨t, n⟩, ht⟩, hk, hobj⟩ := ha
      cases obj with
      | none =>
          obtain ⟨r, p, hp, h'⟩ := h.hashDelattr ht hho hk
          exact ⟨⟨p, w.owned⟩, by simp [step, Pool.hashSetattr, hp], h'⟩
      | some v =>
          obtain ⟨r, p, hp, h', -⟩ := h.hashSetattr ht hho hk (hobj v rfl).1 (hobj v rfl).2
          exact ⟨⟨p, w.owned⟩, by simp [step, hp], h'⟩
  | delattr ho k =>
      obtain ⟨hho, ⟨⟨t, n⟩, ht⟩, hk⟩ := ha
      obtain ⟨r, p, hp, h'⟩ := h.hashDelattr ht hho hk
      exact ⟨⟨p, w.owned⟩, by simp [step, hp], h'⟩

/-! ### Runs -/

theorem Reachable.sound (h : Reachable w) : w.pool.Sound w.owned := by
  induction h with
  | init => exact sound_init
  | step h op ha hs ih =>
      obtain ⟨w', hw', h'⟩ := step_sound ih ha
      rw [hs] at hw'
      cases hw'
      exact h'

/-- In every run the counts are the references, no slot refers to a freed object,
and no allowed operation goes wrong. -/
theorem Reachable.conserved (h : Reachable w) :
    w.Conserved ∧ ∀ op, w.Allowed op → ∃ w', w.step op = some w' := by
  refine ⟨conserved_of_sound h.sound, fun op ha => ?_⟩
  obtain ⟨w', hw', -⟩ := step_sound h.sound ha
  exact ⟨w', hw'⟩

/-- The key `"a"` has been set in a new hash and deleted again. -/
def keyDeleted : World where
  pool :=
    { objs := [some ⟨.hash (List.replicate 7 []) 0, false, 1⟩, some ⟨.string [118], false, 1⟩,
        some ⟨.string [97], true, 2⟩]
      root := .node [97] 2 .null .null }
  owned := gain (gain (fun _ => 0) 0) 1

theorem reachable_keyDeleted : Reachable keyDeleted := by
  have h₁ : Reachable _ := .step .init .newHash trivial rfl
  have h₂ : Reachable _ := .step h₁ (.newString [118]) trivial rfl
  have h₃ : Reachable _ := .step h₂ (.setattr 0 (.cstr [97]) (some (.obj 1))) ?_ rfl
  · exact .step h₃ (.delattr 0 (.cstr [97]))
      ⟨.owner (by decide), ⟨_, rfl⟩, trivial⟩ rfl
  · refine ⟨.owner (by decide), ⟨_, rfl⟩, trivial, fun v hv => ?_⟩
    cases hv
    refine ⟨.owner (by decide), fun old hold _ => ?_⟩
    cases hold

/-- An interned key keeps the references that are deleted. -/
theorem not_conserved_interned : ¬∀ w, Reachable w → ∀ o b, w.pool.get o = some b →
    b.refcount = w.owned o + slotCount w.pool.slots w.pool.objs.length o := by
  intro h
  exact absurd (h keyDeleted reachable_keyDeleted 2 ⟨.string [97], true, 2⟩ rfl) (by decide)

/-- The run in which the key `"a"` is set and deleted. -/
theorem conserved_keyDeleted : keyDeleted.Conserved ∧
    ∀ op, keyDeleted.Allowed op → ∃ w', keyDeleted.step op = some w' :=
  reachable_keyDeleted.conserved

end World

end Swig.DOH
