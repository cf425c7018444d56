import Swig.DOH.HashMap
import Swig.DOH.PoolCounts

/-!
The counts through the list and hash operations. Each operation is a chain of
steps that hand references over: a slot is given up, a reference deleted, another
one taken and put into the slot.
-/

namespace Swig.DOH.Pool

open RefCount Swig.Lib

variable {p p' : Pool} {owned : ℕ → ℕ} {S : ℕ → List ℕ} {hand : List ℕ} {busy fresh : Option ℕ}
  {o c : ℕ} {b : DohBase}

/-- The pool amid an operation. `fresh` is the string made of a C string, which
has a count of zero until it is put somewhere. -/
structure Ready (p : Pool) (owned : ℕ → ℕ) (S : ℕ → List ℕ) (hand : List ℕ)
    (busy fresh : Option ℕ) : Prop where
  counted : Counted p owned S hand busy
  live : ∀ o b, p.get o = some b → b.Live ∨ o ∈ fresh ∧ b.data.slots = []
  table_pos : ∀ c b t n, p.get c = some b → b.data = .hash t n → 0 < t.length
  keys : ∀ c k, p.root.find c = some k → ∃ b, p.get k = some b ∧ b.flag_intern = true

/-! ### Steps -/

theorem Ready.weaken (h : Ready p owned S hand none fresh) (busy : Option ℕ) :
    Ready p owned S hand busy fresh :=
  { h with counted := { h.counted with
      slots := fun c b hb hlive _ => h.counted.slots c b hb hlive (by simp) } }

theorem Ready.exchange (h : Ready p owned S hand busy fresh) {owned' : ℕ → ℕ} {hand' : List ℕ}
    (heq : ∀ o, owned' o + hand'.count o = owned o + hand.count o) :
    Ready p owned' S hand' busy fresh :=
  { h with counted := h.counted.exchange heq }

theorem Ready.delete (h : Ready p owned S (o :: hand) busy fresh)
    (hbusy : ∀ c ∈ busy, Held owned S c) :
    ∃ p' S', p.delete o = some p' ∧ Ready p' owned S' hand busy fresh ∧ Kept owned S p S' p' := by
  obtain ⟨p', S', hp', h', hkept⟩ := h.counted.delete hbusy
  refine ⟨p', S', hp', ⟨h', fun x b' hb' => ?_, fun c b' t n hb' hdata => ?_, fun c k hk => ?_⟩, hkept⟩
  · obtain ⟨b, hb, hdata, hi, hle, hzero⟩ := hkept.get x b' hb'
    rcases h.live x b hb with (hintern | hpos) | ⟨hfresh, hnil⟩
    · exact .inl (.inl (hi.trans hintern))
    · exact .inl (.inr (Nat.pos_of_ne_zero fun h0 => absurd (hzero h0) (by omega)))
    · exact .inr ⟨hfresh, by rw [hdata, hnil]⟩
  · obtain ⟨b, hb, hdata', -⟩ := hkept.get c b' hb'
    exact h.table_pos c b t n hb (hdata'.symm.trans hdata)
  · rw [hkept.root] at hk
    obtain ⟨b, hb, hi⟩ := h.keys c k hk
    exact ⟨b, hkept.same k b hb (.inl hi), hi⟩

theorem Ready.deleteList {os : List ℕ} (h : Ready p owned S (os ++ hand) busy fresh)
    (hbusy : ∀ c ∈ busy, Held owned S c) :
    ∃ p' S', os.foldlM Pool.delete p = some p' ∧ Ready p' owned S' hand busy fresh ∧
      Kept owned S p S' p' := by
  induction os generalizing p S with
  | nil => exact ⟨p, S, rfl, h, Kept.refl _ _ _⟩
  | cons o os ih =>
      obtain ⟨p₁, S₁, hp₁, h₁, hkept₁⟩ := h.delete hbusy
      obtain ⟨p₂, S₂, hp₂, h₂, hkept₂⟩ := ih h₁ fun c hc => hkept₁.mono (hbusy c hc)
      refine ⟨p₂, S₂, ?_, h₂, hkept₁.trans hkept₂⟩
      rw [List.foldlM_cons, hp₁]
      exact hp₂

/-- A pool in which one object has another count. -/
theorem Ready.put_refcount (h : Ready p owned S hand busy fresh) (hb : p.get o = some b) {r : ℕ}
    {hand' : List ℕ} {fresh' : Option ℕ}
    (hcounted : Counted (p.put o { b with refcount := r }) owned S hand' busy)
    (hlive : DohBase.Live { b with refcount := r } ∨ o ∈ fresh' ∧ b.data.slots = [])
    (hfresh : ∀ x ∈ fresh, x = o ∨ x ∈ fresh') :
    Ready (p.put o { b with refcount := r }) owned S hand' busy fresh' := by
  refine ⟨hcounted, fun x b' hb' => ?_, fun c b' t n hb' hdata => ?_, fun c k hk => ?_⟩
  · rw [get_put hb] at hb'
    split at hb'
    · cases hb'
      subst x
      exact hlive
    · rename_i hxo
      rcases h.live x b' hb' with hl | ⟨hx, hnil⟩
      · exact .inl hl
      · exact .inr ⟨(hfresh x hx).resolve_left hxo, hnil⟩
  · rw [get_put hb] at hb'
    split at hb'
    · cases hb'
      exact h.table_pos o b t n hb hdata
    · exact h.table_pos c b' t n hb' hdata
  · obtain ⟨b', hb', hi⟩ := h.keys c k hk
    rw [get_put hb]
    split
    · subst k
      rw [hb] at hb'
      cases hb'
      exact ⟨_, rfl, hi⟩
    · exact ⟨b', hb', hi⟩

/-- A reference is taken. -/
theorem Ready.incref (h : Ready p owned S hand busy fresh) (hb : p.get o = some b)
    (fresh' : Option ℕ) (hfresh : ∀ x ∈ fresh, x = o ∨ x ∈ fresh') :
    p.incref o = some (p.put o { b with refcount := b.refcount + 1 }) ∧
      Ready (p.put o { b with refcount := b.refcount + 1 }) owned S (o :: hand) busy fresh' := by
  have hlive : DohBase.Live { b with refcount := b.refcount + 1 } := .inr (Nat.succ_pos _)
  refine ⟨by rw [Pool.incref, hb]; rfl, h.put_refcount hb ?_ (.inl hlive) hfresh⟩
  refine h.counted.recount hb (fun x hx => List.count_cons_of_ne (Ne.symm hx)) ?_ (fun _ => hlive) ?_
  · intro _
    rw [List.count_cons_self]
    omega
  · intro _
    exact (h.live o b hb).imp_right And.right

/-- References pass between the slots of the busy object and the hand. -/
theorem Ready.place (h : Ready p owned S hand (some c) fresh) (hb : p.get c = some b)
    (hlive : b.Live) (l hand' : List ℕ)
    (heq : ∀ x, l.count x + hand'.count x = (S c).count x + hand.count x) :
    Ready p owned (Function.update S c l) hand' (some c) fresh := by
  have hcounts (x : ℕ) : slotCount (Function.update S c l) p.objs.length x + hand'.count x =
      slotCount S p.objs.length x + hand.count x := by
    have := slotCount_update (S := S) (o := x) (get_lt hb) l
    have := heq x
    omega
  refine { h with counted := ⟨fun x b' hb' hi => ?_, fun x hx => ?_, fun d b' hb' hl hd => ?_,
    fun d hd => ?_, h.counted.string_of_intern⟩ }
  · have := h.counted.refcount x b' hb' hi
    have := hcounts x
    omega
  · rcases hx with hx | ⟨d, hd⟩ | hx
    · exact h.counted.exists_of_ref x (.inl hx)
    · by_cases hdc : d = c
      · subst hdc
        rw [Function.update_self] at hd
        have := heq x
        have := List.count_pos_iff.mpr hd
        by_cases hS : x ∈ S d
        · exact h.counted.exists_of_ref x (.inr (.inl ⟨d, hS⟩))
        · rw [List.count_eq_zero_of_not_mem hS] at *
          exact h.counted.exists_of_ref x (.inr (.inr (List.count_pos_iff.mp (by omega))))
      · rw [Function.update_of_ne hdc] at hd
        exact h.counted.exists_of_ref x (.inr (.inl ⟨d, hd⟩))
    · have := heq x
      have := List.count_pos_iff.mpr hx
      by_cases hS : x ∈ S c
      · exact h.counted.exists_of_ref x (.inr (.inl ⟨c, hS⟩))
      · rw [List.count_eq_zero_of_not_mem hS] at *
        exact h.counted.exists_of_ref x (.inr (.inr (List.count_pos_iff.mp (by omega))))
  · have hdc : d ≠ c := fun hdc => hd (by rw [hdc]; rfl)
    rw [Function.update_of_ne hdc]
    exact h.counted.slots d b' hb' hl hd
  · have hdc : d ≠ c := fun hdc => hd b (by rw [hdc, hb]) hlive
    rw [Function.update_of_ne hdc]
    exact h.counted.slots_dead d hd

/-- The busy object gets the slots that were counted for it. -/
theorem Ready.setData (h : Ready p owned S hand (some c) fresh) (hb : p.get c = some b)
    (hlive : b.Live) (hstring : ∀ s, b.data ≠ .string s) {data : ObjData} (hdata : S c = data.slots)
    (htable : ∀ t n, data = .hash t n → 0 < t.length) :
    p.setData c data = some (p.put c { b with data := data }) ∧
      Ready (p.put c { b with data := data }) owned S hand none fresh := by
  have hintern : b.flag_intern ≠ true := fun hi =>
    (h.counted.string_of_intern c b hb hi).elim fun s hs => hstring s hs
  refine ⟨by rw [Pool.setData, hb]; rfl, ⟨⟨fun x b' hb' hi => ?_, fun x hx => ?_,
    fun d b' hb' hl _ => ?_, fun d hd => ?_, fun x b' hb' hi => ?_⟩, fun x b' hb' => ?_,
    fun d b' t n hb' hd => ?_, fun s k hk => ?_⟩⟩
  · rw [get_put hb] at hb'
    rw [length_put]
    split at hb'
    · cases hb'
      subst x
      exact h.counted.refcount c b hb hi
    · exact h.counted.refcount x b' hb' hi
  · rw [get_put hb]
    split
    · exact ⟨_, rfl⟩
    · exact h.counted.exists_of_ref x hx
  · rw [get_put hb] at hb'
    split at hb'
    · cases hb'
      subst d
      exact hdata
    · rename_i hdc
      exact h.counted.slots d b' hb' hl fun hd => hdc (Option.some.inj hd).symm
  · refine h.counted.slots_dead d fun b' hb' hl => ?_
    by_cases hdc : d = c
    · subst hdc
      exact hd { b with data := data } (by rw [get_put hb, if_pos rfl]) hlive
    · exact hd b' (by rw [get_put hb, if_neg hdc, hb']) hl
  · rw [get_put hb] at hb'
    split at hb'
    · cases hb'
      exact absurd hi hintern
    · exact h.counted.string_of_intern x b' hb' hi
  · rw [get_put hb] at hb'
    split at hb'
    · cases hb'
      exact .inl hlive
    · exact h.live x b' hb'
  · rw [get_put hb] at hb'
    split at hb'
    · cases hb'
      exact htable t n hd
    · exact h.table_pos d b' t n hb' hd
  · obtain ⟨b', hb', hi⟩ := h.keys s k hk
    rw [get_put hb]
    split
    · subst k
      rw [hb] at hb'
      cases hb'
      exact absurd hi hintern
    · exact ⟨b', hb', hi⟩

/-- A new object with `r` references in hand takes others into its slots. -/
theorem Ready.append (h : Ready p owned S hand busy fresh) (b : DohBase) (root : KeyTree) (r : ℕ)
    (hand' : List ℕ) (fresh' : Option ℕ)
    (heq : ∀ x, b.data.slots.count x + hand'.count x = hand.count x)
    (hcount : b.flag_intern = false → b.refcount = r)
    (hlive : b.Live ∨ p.objs.length ∈ fresh' ∧ b.data.slots = []) (hfresh : ∀ x ∈ fresh, x ∈ fresh')
    (hstring : b.flag_intern = true → ∃ s, b.data = .string s)
    (htable : ∀ t n, b.data = .hash t n → 0 < t.length)
    (hkeys : ∀ s k, root.find s = some k →
      p.root.find s = some k ∨ k = p.objs.length ∧ b.flag_intern = true) :
    Ready ⟨p.objs ++ [some b], root⟩ owned (Function.update S p.objs.length b.data.slots)
      (List.replicate r p.objs.length ++ hand') busy fresh' := by
  have hnone : p.get p.objs.length = none := by
    rw [get, List.getElem?_eq_none (Nat.le_refl _)]
    rfl
  have hunref (x : ℕ) (hx : 0 < owned x ∨ (∃ c, x ∈ S c) ∨ x ∈ hand) : x ≠ p.objs.length := by
    rintro rfl
    obtain ⟨b, hb⟩ := h.counted.exists_of_ref _ hx
    simp [hnone] at hb
  have hcounts (x : ℕ) : slotCount (Function.update S p.objs.length b.data.slots)
      (p.objs ++ [some b]).length x = slotCount S p.objs.length x + b.data.slots.count x := by
    rw [List.length_append, List.length_singleton, slotCount_succ, Function.update_self,
      slotCount_congr fun c hc => ?_]
    rw [Function.update_of_ne (by omega)]
  have hhand {x : ℕ} (hx : x ∈ b.data.slots ∨ x ∈ hand') : x ∈ hand := by
    rw [← List.count_pos_iff, ← heq x]
    rcases hx with hx | hx
    · have := List.count_pos_iff.mpr hx
      omega
    · have := List.count_pos_iff.mpr hx
      omega
  refine ⟨⟨fun x b' hb' hi => ?_, fun x hx => ?_, fun c b' hb' hl hc => ?_, fun c hc => ?_,
    fun x b' hb' hi => ?_⟩, fun x b' hb' => ?_, fun c b' t n hb' hd => ?_, fun s k hk => ?_⟩
  · rw [get_append] at hb'
    rw [hcounts, List.count_append]
    have hx := heq x
    split at hb'
    · rename_i hxn
      cases hb'
      subst hxn
      have hown : owned p.objs.length = 0 := Nat.eq_zero_of_not_pos fun hp => hunref _ (.inl hp) rfl
      have hslot : slotCount S p.objs.length p.objs.length = 0 := by
        refine Nat.eq_zero_of_not_pos fun hp => ?_
        obtain ⟨c, -, hc⟩ := slotCount_pos_iff.mp hp
        exact hunref _ (.inr (.inl ⟨c, hc⟩)) rfl
      have hnil : hand.count p.objs.length = 0 :=
        List.count_eq_zero_of_not_mem fun hm => hunref _ (.inr (.inr hm)) rfl
      rw [hcount hi, List.count_replicate_self]
      omega
    · rename_i hxn
      have := h.counted.refcount x b' hb' hi
      rw [List.count_replicate, if_neg (by simpa using Ne.symm hxn)]
      omega
  · rw [get_append]
    split
    · exact ⟨_, rfl⟩
    · rename_i hxn
      apply h.counted.exists_of_ref x
      rcases hx with hx | ⟨c, hc⟩ | hx
      · exact .inl hx
      · by_cases hcn : c = p.objs.length
        · subst hcn
          rw [Function.update_self] at hc
          exact .inr (.inr (hhand (.inl hc)))
        · rw [Function.update_of_ne hcn] at hc
          exact .inr (.inl ⟨c, hc⟩)
      · have hx := (List.mem_append.mp hx).resolve_left fun hm => hxn (List.eq_of_mem_replicate hm)
        exact .inr (.inr (hhand (.inr hx)))
  · rw [get_append] at hb'
    split at hb'
    · rename_i hcn
      cases hb'
      rw [hcn, Function.update_self]
    · rename_i hcn
      rw [Function.update_of_ne hcn]
      exact h.counted.slots c b' hb' hl hc
  · by_cases hcn : c = p.objs.length
    · subst hcn
      rw [Function.update_self]
      refine (hlive.resolve_left ?_).2
      exact hc b (by rw [get_append, if_pos rfl])
    · rw [Function.update_of_ne hcn]
      exact h.counted.slots_dead c fun b' hb' => hc b' (by rw [get_append, if_neg hcn, hb'])
  · rw [get_append] at hb'
    split at hb'
    · cases hb'
      exact hstring hi
    · exact h.counted.string_of_intern x b' hb' hi
  · rw [get_append] at hb'
    split at hb'
    · cases hb'
      subst x
      exact hlive
    · exact (h.live x b' hb').imp_right fun hx => ⟨hfresh x hx.1, hx.2⟩
  · rw [get_append] at hb'
    split at hb'
    · cases hb'
      exact htable t n hd
    · exact h.table_pos c b' t n hb' hd
  · rw [get_append]
    rcases hkeys s k hk with hk | ⟨rfl, hi⟩
    · obtain ⟨b', hb', hi⟩ := h.keys s k hk
      have hkn : k ≠ p.objs.length := by
        rintro rfl
        simp [hnone] at hb'
      exact ⟨b', by rw [if_neg hkn, hb'], hi⟩
    · exact ⟨b, by rw [if_pos rfl], hi⟩

end Swig.DOH.Pool
