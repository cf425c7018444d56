import Swig.DOH.PoolSteps

/-!
The counts through the list and hash operations. Each operation is a chain of
steps that hand references over: a slot is given up, a reference deleted, another
one taken and put into the slot.
-/

namespace Swig.DOH

open RefCount Swig.Lib

/-- What the caller may pass: a C string, or an object that it holds. -/
def Value.Given (owned : ℕ → ℕ) (S : ℕ → List ℕ) : Value → Prop
  | .cstr _ => True
  | .obj o => Held owned S o

/-- Interning a string adds its object to the tree. -/
theorem KeyTree.find_add {s c : List Byte} {k x : ℕ} {t : KeyTree} (h : (t.add c k).find s = some x) :
    t.find s = some x ∨ x = k := by
  induction t with
  | null =>
      simp only [add, find] at h
      split at h
      · exact .inr (Option.some.inj h).symm
      · cases h
      · cases h
  | node cstr sstr left right ihl ihr =>
      simp only [add] at h
      split at h
      · exact .inl h
      · simp only [find] at h ⊢
        split at h
        · exact .inl h
        · exact ihl h
        · exact .inl h
      · simp only [find] at h ⊢
        split at h
        · exact .inl h
        · exact .inl h
        · exact ihr h

namespace Pool

variable {p p' : Pool} {owned : ℕ → ℕ} {S S' : ℕ → List ℕ} {hand : List ℕ} {fresh : Option ℕ}
  {o c : ℕ} {b : DohBase}

/-! ### Finding the parts -/

theorem items_eq_some {l : List ℕ} (h : p.items o = some l) :
    ∃ b, p.get o = some b ∧ b.data = .list l := by
  unfold items at h
  split at h
  · rename_i hb
    cases h
    exact ⟨_, hb, rfl⟩
  · cases h

theorem items_eq {l : List ℕ} (hb : p.get o = some b) (hdata : b.data = .list l) :
    p.items o = some l := by
  obtain ⟨data, intern, count⟩ := b
  cases hdata
  rw [items, hb]

theorem table_eq_some {t : List (List Node)} {n : ℕ} (h : p.table o = some (t, n)) :
    ∃ b, p.get o = some b ∧ b.data = .hash t n := by
  unfold table at h
  split at h
  · rename_i hb
    cases h
    exact ⟨_, hb, rfl⟩
  · cases h

theorem table_eq {t : List (List Node)} {n : ℕ} (hb : p.get o = some b) (hdata : b.data = .hash t n) :
    p.table o = some (t, n) := by
  obtain ⟨data, intern, count⟩ := b
  cases hdata
  rw [table, hb]

/-- The pool has got more objects. -/
def Extends (p' p : Pool) : Prop := ∀ c b, p.get c = some b → p'.get c = some b

theorem Extends.refl (p : Pool) : p.Extends p := fun _ _ => id

theorem Extends.trans {p'' : Pool} (h : p''.Extends p') (h' : p'.Extends p) : p''.Extends p :=
  fun c b hb => h c b (h' c b hb)

theorem extends_append (p : Pool) (b : DohBase) (root : KeyTree) :
    Extends ⟨p.objs ++ [some b], root⟩ p := by
  intro c b' hb'
  rw [get_append, if_neg (Nat.ne_of_lt (get_lt hb'))]
  exact hb'

theorem data_put_refcount {b' : DohBase} {r : ℕ} (hb : p.get o = some b) (hc : p.get c = some b') :
    ∃ b'', (p.put o { b with refcount := r }).get c = some b'' ∧ b''.data = b'.data := by
  rw [get_put hb]
  split
  · subst c
    rw [hb] at hc
    cases hc
    exact ⟨_, rfl, rfl⟩
  · exact ⟨b', hc, rfl⟩

/-- Storing an object in a slot and taking the reference for it are done in
either order. -/
theorem setData_incref {p₁ p₂ : Pool} {data : ObjData} (h₁ : p.incref o = some p₁)
    (h₂ : p₁.setData c data = some p₂) :
    ∃ p', p.setData c data = some p' ∧ p'.incref o = some p₂ := by
  obtain ⟨b, hb, rfl⟩ : ∃ b, p.get o = some b ∧ p.put o { b with refcount := b.refcount + 1 } = p₁ := by
    simpa [incref, Option.bind_eq_some_iff] using h₁
  obtain ⟨b₁, hb₁, rfl⟩ : ∃ b₁, (p.put o { b with refcount := b.refcount + 1 }).get c = some b₁ ∧
      (p.put o { b with refcount := b.refcount + 1 }).put c { b₁ with data := data } = p₂ := by
    simpa [setData, Option.bind_eq_some_iff] using h₂
  rw [get_put hb] at hb₁
  split at hb₁
  · rename_i hco
    subst hco
    cases hb₁
    refine ⟨p.put c { b with data := data }, by rw [setData, hb]; rfl, ?_⟩
    rw [incref, get_put hb, if_pos rfl]
    simp [put]
  · rename_i hco
    refine ⟨p.put c { b₁ with data := data }, by rw [setData, hb₁]; rfl, ?_⟩
    rw [incref, get_put hb₁, if_neg (Ne.symm hco), hb]
    simp [put, List.set_comm _ _ hco]

/-! ### Steps on the whole state -/

/-- The objects the slots of `c` refer to. -/
def slots (p : Pool) (c : ℕ) : List ℕ :=
  match p.get c with
  | some b => b.data.slots
  | none => []

theorem slots_eq (hb : p.get c = some b) : p.slots c = b.data.slots := by
  rw [slots, hb]

/-- Between operations nothing is in hand. -/
def Sound (p : Pool) (owned : ℕ → ℕ) : Prop := Ready p owned p.slots [] none none

theorem Ready.slots_eq (h : Ready p owned S hand none none) : S = p.slots := by
  ext1 c
  cases hb : p.get c with
  | none =>
      rw [slots, hb]
      exact h.counted.slots_dead c fun b hb' => by simp [hb] at hb'
  | some b =>
      rw [Pool.slots_eq hb]
      exact h.counted.slots c b hb ((h.live c b hb).resolve_right (by simp)) (by simp)

theorem Ready.sound (h : Ready p owned S [] none none) : Sound p owned := by
  rw [Sound, ← h.slots_eq]
  exact h

/-- The container gets its new items. -/
theorem Ready.store (h : Ready p owned S hand (some c) fresh) (hc : Held owned S c)
    (hb : p.get c = some b) (hstring : ∀ s, b.data ≠ .string s) (data : ObjData)
    (hdata : S c = data.slots) (htable : ∀ t n, data = .hash t n → 0 < t.length) :
    ∃ p', p.setData c data = some p' ∧ Ready p' owned S hand none fresh ∧
      ∀ x, p'.get x = if x = c then some { b with data := data } else p.get x := by
  obtain ⟨b', hb', hlive⟩ := h.counted.live_of_held hc
  rw [hb] at hb'
  cases hb'
  obtain ⟨hp', h'⟩ := h.setData hb hlive hstring hdata htable
  exact ⟨_, hp', h', fun x => get_put hb _⟩

/-- The data of an object that is held stays when references are deleted. -/
theorem Kept.data {busy : Option ℕ} (h : Kept owned S p S' p') (h' : Counted p' owned S' hand busy)
    (hc : Held owned S c) (hb : p.get c = some b) : ∃ b', p'.get c = some b' ∧ b'.data = b.data := by
  obtain ⟨b', hb', -⟩ := h'.live_of_held (h.mono hc)
  obtain ⟨b₀, hb₀, hdata, -⟩ := h.get c b' hb'
  rw [hb] at hb₀
  cases hb₀
  exact ⟨b', hb', hdata⟩

/-- A container gives up references. -/
theorem Ready.drop (h : Ready p owned S hand none fresh) (hc : Held owned S c)
    (hb : p.get c = some b) (l os : List ℕ) (heq : ∀ x, l.count x + os.count x = (S c).count x) :
    ∃ p' S' b', os.foldlM Pool.delete p = some p' ∧ Ready p' owned S' hand (some c) fresh ∧
      Kept owned (Function.update S c l) p S' p' ∧ Held owned S' c ∧ S' c = l ∧
      p'.get c = some b' ∧ b'.data = b.data := by
  obtain ⟨b₀, hb₀, hlive⟩ := h.counted.live_of_held hc
  have h₁ := (h.weaken (some c)).place hb₀ hlive l (os ++ hand) fun x => by
    have := heq x
    rw [List.count_append]
    omega
  have hheld := hc.update_self l
  have hbusy : ∀ x ∈ some c, Held owned (Function.update S c l) x := fun x hx => by
    cases hx
    exact hheld
  obtain ⟨p', S', hp', h', hkept⟩ := h₁.deleteList hbusy
  obtain ⟨b', hb', hdata⟩ := hkept.data h'.counted hheld hb
  refine ⟨p', S', b', hp', h', hkept, hkept.mono hheld, ?_, hb', hdata⟩
  rw [hkept.held c hheld, Function.update_self]

/-- An object is put into a slot of a container: first stored, then counted. -/
theorem Ready.insert (h : Ready p owned S [] (some c) fresh) (hc : Held owned S c)
    (hb : p.get c = some b) (hstring : ∀ s, b.data ≠ .string s) (hget : ∃ b', p.get o = some b')
    (hfresh : ∀ x ∈ fresh, x = o) (data : ObjData)
    (hdata : ∀ x, data.slots.count x = (o :: S c).count x)
    (htable : ∀ t n, data = .hash t n → 0 < t.length) :
    ∃ p' p'', p.setData c data = some p' ∧ p'.incref o = some p'' ∧
      Ready p'' owned (Function.update S c data.slots) [] none none ∧
      ∃ b'', p''.get c = some b'' ∧ b''.data = data := by
  obtain ⟨b', hb'⟩ := hget
  obtain ⟨hp₁, h₁⟩ := h.incref hb' none fun x hx => .inl (hfresh x hx)
  obtain ⟨b₁, hb₁, hd₁⟩ := data_put_refcount (r := b'.refcount + 1) hb' hb
  obtain ⟨b₀, hb₀, hlive⟩ := h₁.counted.live_of_held hc
  have h₂ := h₁.place hb₀ hlive data.slots [] fun x => by
    rw [hdata x, List.count_cons, List.count_cons]
    simp only [List.count_nil]
    omega
  obtain ⟨p₂, hp₂, h₃, hget₃⟩ := h₂.store (hc.update_self _) hb₁ (by rwa [hd₁])
    data (by rw [Function.update_self]) htable
  obtain ⟨p', hp', hp''⟩ := setData_incref hp₁ hp₂
  exact ⟨p', p₂, hp', hp'', h₃, _, by rw [hget₃, if_pos rfl], rfl⟩

/-! ### Arguments -/

theorem Ready.objMalloc (h : Ready p owned S hand none fresh) (data : ObjData) (hand' : List ℕ)
    (heq : ∀ x, data.slots.count x + hand'.count x = hand.count x)
    (htable : ∀ t n, data = .hash t n → 0 < t.length) :
    Ready (p.objMalloc data).2 owned (Function.update S p.objs.length data.slots)
      (p.objs.length :: hand') none fresh :=
  h.append ⟨data, false, 1⟩ p.root 1 hand' fresh heq (fun _ => rfl) (.inl (.inr Nat.one_pos))
    (fun _ => id) (fun hi => by cases hi) htable fun _ _ => .inl

/-- A new object without slots changes no slots. -/
theorem Ready.update_nil (h : Ready p owned S hand none fresh) :
    Function.update S p.objs.length [] = S := by
  refine Function.update_eq_self_iff.mpr (h.counted.slots_dead _ fun b hb => ?_).symm
  exact absurd (get_lt hb) (Nat.lt_irrefl _)

/-- An object passed as such, or the string made of a C string. -/
theorem Ready.wrap (h : Ready p owned S hand none none) {v : Value} (hv : v.Given owned S) :
    ∃ o p' fresh b, p.wrap v = some (o, p') ∧ Ready p' owned S hand none fresh ∧ p'.Extends p ∧
      (∀ x ∈ fresh, x = o) ∧ p'.get o = some b ∧ (v = .obj o ∧ Held owned S o ∨ ¬b.Live) := by
  cases v with
  | obj o =>
      obtain ⟨b, hb, -⟩ := h.counted.live_of_held hv
      exact ⟨o, p, none, b, rfl, h, Extends.refl p, by simp, hb, .inl ⟨rfl, hv⟩⟩
  | cstr s =>
      have h' := h.append ⟨.string s, false, 0⟩ p.root 0 hand (some p.objs.length)
        (fun x => by simp [ObjData.slots]) (fun _ => rfl)
        (.inr ⟨rfl, rfl⟩) (by simp) (fun hi => by cases hi) (by simp) (fun _ _ => .inl)
      rw [ObjData.slots, h.update_nil] at h'
      refine ⟨p.objs.length, _, some p.objs.length, ⟨.string s, false, 0⟩, ?_, h',
        extends_append p _ _, fun x hx => (Option.some.inj hx).symm, ?_, .inr ?_⟩
      · have hget := get_append p ⟨.string s, false, 1⟩ p.root p.objs.length
        rw [if_pos rfl] at hget
        simp only [Pool.wrap, newString, Pool.objMalloc, Pool.decref, hget]
        simp [put]
      · rw [get_append, if_pos rfl]
      · simp [DohBase.Live]

/-- An interned key is there for good. -/
theorem Ready.resolve (h : Ready p owned S hand none none) {k : Value} (hk : k.Given owned S) :
    ∃ ko p' b, p.resolve k = (ko, p') ∧ Ready p' owned S hand none none ∧ p'.Extends p ∧
      p'.get ko = some b := by
  cases k with
  | obj ko =>
      obtain ⟨b, hb, -⟩ := h.counted.live_of_held hk
      exact ⟨ko, p, b, rfl, h, Extends.refl p, hb⟩
  | cstr s =>
      cases hfind : p.root.find s with
      | some ko =>
          obtain ⟨b, hb, -⟩ := h.keys s ko hfind
          exact ⟨ko, p, b, by simp only [Pool.resolve, findKey, hfind], h, Extends.refl p, hb⟩
      | none =>
          have h' := h.append ⟨.string s, true, 1⟩ (p.root.add s p.objs.length) 0 hand none
            (fun x => by simp [ObjData.slots]) (fun hi => by cases hi) (.inl (.inl rfl)) (by simp)
            (fun _ => ⟨s, rfl⟩) (by simp)
            (fun _ _ hf => (KeyTree.find_add hf).imp_right fun hx => ⟨hx, rfl⟩)
          rw [ObjData.slots, h.update_nil] at h'
          refine ⟨p.objs.length, _, ⟨.string s, true, 1⟩, ?_, h', extends_append p _ _, ?_⟩
          · simp only [Pool.resolve, findKey, hfind]
          · rw [get_append, if_pos rfl]

/-! ### Lists -/

theorem Extends.items {l : List ℕ} (h : p'.Extends p) (hl : p.items o = some l) :
    p'.items o = some l := by
  obtain ⟨b, hb, hdata⟩ := items_eq_some hl
  exact items_eq (h o b hb) hdata

theorem slots_of_items {l : List ℕ} (hl : p.items o = some l) : p.slots o = l := by
  obtain ⟨b, hb, hdata⟩ := items_eq_some hl
  rw [Pool.slots_eq hb, hdata, ObjData.slots]

variable {lo : ℕ} {l : List ℕ} {v : Value}

theorem count_eraseIdx_add {i : ℕ} (hi : i < l.length) (x : ℕ) :
    (l.eraseIdx i).count x + [l[i]].count x = l.count x := by
  have hperm := (List.getElem_cons_eraseIdx_perm hi).count_eq x
  rw [List.count_cons] at hperm
  rw [List.count_singleton]
  exact hperm

theorem Sound.listInsert (h : Sound p owned) (hl : p.items lo = some l)
    (hlo : Held owned p.slots lo) (hv : v.Given owned p.slots) (pos : ℤ) :
    ∃ p', p.listInsert lo pos (some v) = some (0, p') ∧ Sound p' owned := by
  obtain ⟨o, p₁, fresh, b, hp₁, h₁, hext, hfresh, hb, -⟩ := Ready.wrap h hv
  obtain ⟨bl, hbl, hdata⟩ := items_eq_some hl
  obtain ⟨i, hi, hle⟩ : ∃ i : ℕ, (let pos := if pos = -2 then (l.length : ℤ) else pos
      if pos < 0 then 0 else if pos > l.length then (l.length : ℤ) else pos).toNat = i ∧
      i ≤ l.length := ⟨_, rfl, by dsimp only; split <;> split <;> omega⟩
  obtain ⟨p₂, p₃, hp₂, hp₃, h₃, -⟩ := (h₁.weaken (some lo)).insert hlo (hext lo bl hbl)
    (by simp [hdata]) ⟨b, hb⟩ hfresh (.list (l.insertIdx i o))
    (fun x => by rw [slots_of_items hl]; exact (List.perm_insertIdx o l hle).count_eq x) (by simp)
  refine ⟨p₃, ?_, h₃.sound⟩
  simp only [Pool.listInsert, hp₁, Option.bind_eq_bind, Option.bind_some, hext.items hl, hi, hp₂, hp₃]
  rfl

theorem Sound.listRemove (h : Sound p owned) (hl : p.items lo = some l)
    (hlo : Held owned p.slots lo) {pos : ℤ} (hpos : 0 ≤ removeIndex pos l.length)
    (hlt : removeIndex pos l.length < l.length) :
    ∃ p', p.listRemove lo pos = some (0, p') ∧ Sound p' owned := by
  obtain ⟨i, hi⟩ := Int.eq_ofNat_of_zero_le hpos
  have hil : i < l.length := by omega
  obtain ⟨b, hb, hdata⟩ := items_eq_some hl
  obtain ⟨p₁, S₁, b₁, hp₁, h₁, -, hheld, hS₁, hb₁, hd₁⟩ := Ready.drop h hlo hb
    (l.eraseIdx i) [l[i]] fun x => by
      rw [slots_of_items hl]
      exact count_eraseIdx_add hil x
  obtain ⟨p₂, hp₂, h₂, -⟩ := h₁.store hheld hb₁ (by simp [hd₁, hdata]) (.list (l.eraseIdx i))
    hS₁ (by simp)
  have hdel : p.delete l[i] = some p₁ := by simpa using hp₁
  refine ⟨p₂, ?_, h₂.sound⟩
  simp [Pool.listRemove, hl, hi, guard, hil, hdel, items_eq hb₁ (hd₁.trans hdata), hp₂]

theorem Sound.listClear (h : Sound p owned) (hl : p.items lo = some l)
    (hlo : Held owned p.slots lo) : ∃ p', p.listClear lo = some p' ∧ Sound p' owned := by
  obtain ⟨b, hb, hdata⟩ := items_eq_some hl
  obtain ⟨p₁, S₁, b₁, hp₁, h₁, -, hheld, hS₁, hb₁, hd₁⟩ := Ready.drop h hlo hb
    [] l fun x => by
      rw [slots_of_items hl, List.count_nil, Nat.zero_add]
  obtain ⟨p₂, hp₂, h₂, -⟩ := h₁.store hheld hb₁ (by simp [hd₁, hdata]) (.list []) hS₁ (by simp)
  refine ⟨p₂, ?_, h₂.sound⟩
  simp [Pool.listClear, hl, hp₁, hp₂]

/-- A reference of the caller's passes into the hand. -/
theorem Ready.disown (h : Ready p owned S hand none fresh) (ho : 0 < owned o) :
    Ready p (Function.update owned o (owned o - 1)) S (o :: hand) none fresh := by
  refine h.exchange fun x => ?_
  by_cases hx : x = o
  · subst hx
    rw [Function.update_self, List.count_cons_self]
    omega
  · rw [Function.update_of_ne hx, List.count_cons_of_ne (Ne.symm hx)]

/-- The value comes with a reference of the caller's, which the list takes over. -/
theorem Sound.listSet (h : Sound p owned) (hl : p.items lo = some l) (hlo : Held owned p.slots lo)
    {n : ℤ} (hn : 0 ≤ n) (hlt : n < l.length) (ho : 0 < owned o) :
    ∃ p', p.listSet lo n (some (.obj o)) = some (0, p') ∧
      Sound p' (Function.update owned o (owned o - 1)) := by
  obtain ⟨i, rfl⟩ := Int.eq_ofNat_of_zero_le hn
  have hil : i < l.length := by omega
  obtain ⟨b, hb, hdata⟩ := items_eq_some hl
  obtain ⟨p₁, S₁, b₁, hp₁, h₁, -, hheld, hS₁, hb₁, hd₁⟩ := Ready.drop h hlo hb
    (l.eraseIdx i) [l[i]] fun x => by
      rw [slots_of_items hl]
      exact count_eraseIdx_add hil x
  obtain ⟨p₂, p₃, hp₂, hp₃, h₃, -⟩ := h₁.insert hheld hb₁ (by simp [hd₁, hdata])
    (h₁.counted.exists_of_ref o (.inl ho)) (by simp) (.list (l.set i o))
    (fun x => by rw [hS₁]; exact (List.set_perm_cons_eraseIdx hil o).count_eq x) (by simp)
  obtain ⟨p₅, S₅, hp₅, h₅, -⟩ := (h₃.disown ho).delete (by simp)
  have hdel : p.delete l[i] = some p₁ := by simpa using hp₁
  refine ⟨p₅, ?_, h₅.sound⟩
  simp [Pool.listSet, Pool.wrap, hl, guard, hil, hdel, items_eq hb₁ (hd₁.trans hdata), hp₂, hp₃, hp₅]

theorem Ready.increfList (h : Ready p owned S hand none none) {os : List ℕ}
    (hos : ∀ o ∈ os, ∃ b, p.get o = some b) :
    ∃ p', os.foldlM Pool.incref p = some p' ∧ Ready p' owned S (os ++ hand) none none := by
  induction os generalizing p hand with
  | nil => exact ⟨p, rfl, h⟩
  | cons o os ih =>
      obtain ⟨b, hb⟩ := hos o List.mem_cons_self
      obtain ⟨hp₁, h₁⟩ := h.incref hb none (by simp)
      obtain ⟨p₂, hp₂, h₂⟩ := ih h₁ fun x hx => by
        rw [get_put hb]
        split
        · exact ⟨_, rfl⟩
        · exact hos x (List.mem_cons_of_mem o hx)
      refine ⟨p₂, ?_, h₂.exchange fun x => ?_⟩
      · rw [List.foldlM_cons, hp₁]
        exact hp₂
      · rw [List.count_append, List.count_append, List.count_cons, List.count_cons]
        omega

/-- The caller owns the reference to the new object. -/
theorem Ready.own (h : Ready p owned S [o] none none) :
    Sound p (Function.update owned o (owned o + 1)) := by
  refine Ready.sound (S := S) (h.exchange fun x => ?_)
  by_cases hx : x = o
  · subst hx
    rw [Function.update_self, List.count_cons_self, List.count_nil]
  · rw [Function.update_of_ne hx, List.count_cons_of_ne (Ne.symm hx)]

theorem Sound.copyList (h : Sound p owned) (hl : p.items lo = some l) :
    ∃ no p', p.copyList lo = some (no, p') ∧
      Sound p' (Function.update owned no (owned no + 1)) := by
  have hos : ∀ o ∈ l, ∃ b, p.get o = some b := fun o ho =>
    h.counted.exists_of_ref o (.inr (.inl ⟨lo, by rwa [slots_of_items hl]⟩))
  obtain ⟨p₁, hp₁, h₁⟩ := Ready.increfList h hos
  have h₂ := h₁.objMalloc (.list l) [] (fun x => by simp [ObjData.slots]) (by simp)
  exact ⟨_, _, by simp [Pool.copyList, hl, hp₁, Pool.objMalloc], h₂.own⟩

end Pool

end Swig.DOH
