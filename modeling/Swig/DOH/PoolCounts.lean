import Swig.DOH.Pool
import Swig.Lib.RefCount
import Mathlib.Data.Finset.Card

/-!
What deleting a reference does to the counts. While an operation is under way
some references are in hand: counted, but held neither by the caller nor by a
slot.
-/

namespace Swig.DOH

open RefCount

namespace Pool

/-! ### Reading a changed pool -/

variable {p p' : Pool} {o c : ℕ} {b : DohBase}

theorem get_lt (h : p.get o = some b) : o < p.objs.length := by
  by_contra hge
  rw [get, List.getElem?_eq_none (by omega)] at h
  cases h

theorem get_put (h : p.get o = some b) (b' : DohBase) :
    (p.put o b').get c = if c = o then some b' else p.get c := by
  have hlt := get_lt h
  unfold get put
  rw [List.getElem?_set]
  by_cases hc : o = c
  · subst hc
    simp [hlt]
  · rw [if_neg hc, if_neg (Ne.symm hc)]

@[simp]
theorem length_put (p : Pool) (o : ℕ) (b : DohBase) : (p.put o b).objs.length = p.objs.length :=
  List.length_set

theorem get_objFree (p : Pool) (o c : ℕ) : (p.objFree o).get c = if c = o then none else p.get c := by
  unfold get objFree
  rw [List.getElem?_set]
  by_cases hc : o = c
  · subst hc
    by_cases hlt : o < p.objs.length <;> simp [hlt]
  · rw [if_neg hc, if_neg (Ne.symm hc)]

@[simp]
theorem length_objFree (p : Pool) (o : ℕ) : (p.objFree o).objs.length = p.objs.length :=
  List.length_set

theorem get_append (p : Pool) (b : DohBase) (root : KeyTree) (c : ℕ) :
    get ⟨p.objs ++ [some b], root⟩ c = if c = p.objs.length then some b else p.get c := by
  unfold get
  dsimp only
  by_cases hc : c = p.objs.length
  · subst hc
    simp
  · rw [if_neg hc, List.getElem?_append]
    split
    · rfl
    · rw [List.getElem?_eq_none (by simp only [List.length_singleton]; omega),
        List.getElem?_eq_none (by omega)]

end Pool

/-- The object is interned, or referred to. -/
def DohBase.Live (b : DohBase) : Prop := b.flag_intern = true ∨ 0 < b.refcount

namespace Pool

/-! ### The counts -/

/-- Every count is the number of references: those the caller owns, those in the
slots `S` of the live objects, and those in hand. The slots of the object that
is `busy` are about to be changed to what `S` says. -/
structure Counted (p : Pool) (owned : ℕ → ℕ) (S : ℕ → List ℕ) (hand : List ℕ)
    (busy : Option ℕ) : Prop where
  refcount : ∀ o b, p.get o = some b → b.flag_intern = false →
    b.refcount = owned o + slotCount S p.objs.length o + hand.count o
  exists_of_ref : ∀ o, 0 < owned o ∨ (∃ c, o ∈ S c) ∨ o ∈ hand → ∃ b, p.get o = some b
  slots : ∀ c b, p.get c = some b → b.Live → c ∉ busy → S c = b.data.slots
  slots_dead : ∀ c, (∀ b, p.get c = some b → ¬b.Live) → S c = []
  string_of_intern : ∀ o b, p.get o = some b → b.flag_intern = true → ∃ s, b.data = .string s

variable {owned : ℕ → ℕ} {S S' : ℕ → List ℕ} {hand os : List ℕ} {busy : Option ℕ} {fuel : ℕ}

theorem Counted.lt_of_mem (h : Counted p owned S hand busy) (ho : o ∈ S c) : c < p.objs.length := by
  by_contra hge
  have hnone : ∀ b, p.get c = some b → ¬b.Live := fun b hb => absurd (get_lt hb) hge
  rw [h.slots_dead c hnone] at ho
  cases ho

/-- A reference makes an object live. -/
theorem Counted.live (h : Counted p owned S hand busy)
    (href : 0 < owned o ∨ (∃ c, o ∈ S c) ∨ o ∈ hand) : ∃ b, p.get o = some b ∧ b.Live := by
  obtain ⟨b, hb⟩ := h.exists_of_ref o href
  refine ⟨b, hb, ?_⟩
  cases hintern : b.flag_intern with
  | true => exact .inl hintern
  | false =>
      refine .inr ?_
      rw [h.refcount o b hb hintern]
      rcases href with hown | ⟨c, hc⟩ | hhand
      · omega
      · have := slotCount_pos_iff.mpr ⟨c, h.lt_of_mem hc, hc⟩
        omega
      · have := List.count_pos_iff.mpr hhand
        omega

theorem Counted.live_of_held (h : Counted p owned S hand busy) (ho : Held owned S o) :
    ∃ b, p.get o = some b ∧ b.Live :=
  h.live (ho.exists_ref.imp_right .inl)

/-- What deleting references leaves: the data of the objects that stay, the
objects that are interned or have no references, and all that is held. -/
structure Kept (owned : ℕ → ℕ) (S : ℕ → List ℕ) (p : Pool) (S' : ℕ → List ℕ) (p' : Pool) : Prop where
  length : p'.objs.length = p.objs.length
  root : p'.root = p.root
  get : ∀ c b', p'.get c = some b' → ∃ b, p.get c = some b ∧ b'.data = b.data ∧
    b'.flag_intern = b.flag_intern ∧ b'.refcount ≤ b.refcount ∧ (b'.refcount = 0 → b.refcount = 0)
  same : ∀ c b, p.get c = some b → b.flag_intern = true ∨ ¬b.Live → p'.get c = some b
  held : ∀ c, Held owned S c → S' c = S c

theorem Kept.refl (owned : ℕ → ℕ) (S : ℕ → List ℕ) (p : Pool) : Kept owned S p S p :=
  ⟨rfl, rfl, fun _ b hb => ⟨b, hb, rfl, rfl, Nat.le_refl _, id⟩, fun _ _ hb _ => hb, fun _ _ => rfl⟩

theorem Kept.mono (h : Kept owned S p S' p') (hc : Held owned S c) : Held owned S' c :=
  Held.mono hc (fun _ => id) fun d hd o ho => by rwa [h.held d hd]

theorem Kept.trans {S'' : ℕ → List ℕ} {p'' : Pool} (h : Kept owned S p S' p')
    (h' : Kept owned S' p' S'' p'') : Kept owned S p S'' p'' := by
  refine ⟨h'.length.trans h.length, h'.root.trans h.root, fun c b'' hb'' => ?_,
    fun c b hb hi => h'.same c b (h.same c b hb hi) hi, fun c hc => ?_⟩
  · obtain ⟨b', hb', hdata', hintern', hle', hzero'⟩ := h'.get c b'' hb''
    obtain ⟨b, hb, hdata, hintern, hle, hzero⟩ := h.get c b' hb'
    exact ⟨b, hb, hdata'.trans hdata, hintern'.trans hintern, hle'.trans hle,
      fun h0 => hzero (hzero' h0)⟩
  · rw [h'.held c (h.mono hc), h.held c hc]

/-! ### Deleting -/

open Classical in
/-- The number of live objects, which bounds how deep deleting nests. -/
noncomputable def liveCount (p : Pool) : ℕ :=
  ((Finset.range p.objs.length).filter fun o => ∃ b, p.get o = some b ∧ b.Live).card

theorem liveCount_le (p : Pool) : liveCount p ≤ p.objs.length := by
  classical
  exact (Finset.card_filter_le _ _).trans (Finset.card_range _).le

theorem Kept.liveCount_le (h : Kept owned S p S' p') : liveCount p' ≤ liveCount p := by
  classical
  unfold liveCount
  rw [h.length]
  refine Finset.card_le_card fun o ho => ?_
  simp only [Finset.mem_filter] at ho ⊢
  obtain ⟨hlt, b', hb', hlive⟩ := ho
  obtain ⟨b, hb, -, hintern, hle, -⟩ := h.get o b' hb'
  refine ⟨hlt, b, hb, ?_⟩
  rcases hlive with hi | hpos
  · exact .inl (hintern ▸ hi)
  · exact .inr (by omega)

theorem liveCount_put_dead (hb : p.get o = some b) (hlive : b.Live) (hintern : b.flag_intern = false) :
    liveCount (p.put o { b with refcount := 0 }) < liveCount p := by
  classical
  unfold liveCount
  rw [length_put]
  refine Finset.card_lt_card (Finset.ssubset_iff_of_subset ?_ |>.mpr ⟨o, ?_, ?_⟩)
  · intro x hx
    simp only [Finset.mem_filter] at hx ⊢
    obtain ⟨hlt, b', hb', hlive'⟩ := hx
    rw [get_put hb] at hb'
    split at hb'
    · rename_i hxo
      exact ⟨hlt, b, by rw [hxo, hb], hlive⟩
    · exact ⟨hlt, b', hb', hlive'⟩
  · exact Finset.mem_filter.mpr ⟨Finset.mem_range.mpr (get_lt hb), b, hb, hlive⟩
  · rintro hmem
    obtain ⟨-, b', hb', hlive'⟩ := Finset.mem_filter.mp hmem
    rw [get_put hb, if_pos rfl] at hb'
    cases hb'
    rcases hlive' with hi | hpos
    · exact absurd (hi.symm.trans hintern) (by simp)
    · exact absurd hpos (Nat.lt_irrefl 0)

/-- The references in `os` are deleted one after the other. -/
theorem deleteAll_counted (hdel : ∀ {p S o hand}, Counted p owned S (o :: hand) busy →
      (∀ c ∈ busy, Held owned S c) → liveCount p < fuel → ∃ p' S', deleteFuel fuel o p = some p' ∧
        Counted p' owned S' hand busy ∧ Kept owned S p S' p')
    (h : Counted p owned S (os ++ hand) busy) (hbusy : ∀ c ∈ busy, Held owned S c)
    (hfuel : liveCount p < fuel) :
    ∃ p' S', os.foldlM (fun p o => deleteFuel fuel o p) p = some p' ∧
      Counted p' owned S' hand busy ∧ Kept owned S p S' p' := by
  induction os generalizing p S with
  | nil => exact ⟨p, S, rfl, h, Kept.refl _ _ _⟩
  | cons o os ih =>
      obtain ⟨p₁, S₁, hp₁, h₁, hkept₁⟩ := hdel h hbusy hfuel
      obtain ⟨p₂, S₂, hp₂, h₂, hkept₂⟩ := ih h₁ (fun c hc => hkept₁.mono (hbusy c hc))
        (Nat.lt_of_le_of_lt hkept₁.liveCount_le hfuel)
      refine ⟨p₂, S₂, ?_, h₂, hkept₁.trans hkept₂⟩
      rw [List.foldlM_cons, hp₁]
      exact hp₂

/-- References change hands. -/
theorem Counted.exchange (h : Counted p owned S hand busy) {owned' : ℕ → ℕ} {hand' : List ℕ}
    (heq : ∀ o, owned' o + hand'.count o = owned o + hand.count o) :
    Counted p owned' S hand' busy := by
  refine { h with refcount := fun o b hb hi => ?_, exists_of_ref := fun o ho => ?_ }
  · have := h.refcount o b hb hi
    have := heq o
    omega
  · have := heq o
    rcases ho with ho | ho | ho
    · by_cases hown : 0 < owned o
      · exact h.exists_of_ref o (.inl hown)
      · exact h.exists_of_ref o (.inr (.inr (List.count_pos_iff.mp (by omega))))
    · exact h.exists_of_ref o (.inr (.inl ho))
    · have hpos := List.count_pos_iff.mpr ho
      by_cases hown : 0 < owned o
      · exact h.exists_of_ref o (.inl hown)
      · exact h.exists_of_ref o (.inr (.inr (List.count_pos_iff.mp (by omega))))

/-- The count of `o` changes with the references in hand to it. -/
theorem Counted.recount (h : Counted p owned S hand busy) (hb : p.get o = some b) {r : ℕ}
    {hand' : List ℕ} (hother : ∀ x, x ≠ o → hand'.count x = hand.count x)
    (hself : b.flag_intern = false → r + hand.count o = b.refcount + hand'.count o)
    (hkeep : b.Live → DohBase.Live { b with refcount := r })
    (hnew : DohBase.Live { b with refcount := r } → b.Live ∨ b.data.slots = []) :
    Counted (p.put o { b with refcount := r }) owned S hand' busy := by
  refine ⟨fun x b' hb' hi => ?_, fun x hx => ?_, fun c b' hb' hlive hc => ?_, fun c hc => ?_,
    fun x b' hb' hi => ?_⟩
  · rw [get_put hb] at hb'
    rw [length_put]
    split at hb'
    · rename_i hxo
      cases hb'
      subst hxo
      have := h.refcount x b hb hi
      have := hself hi
      dsimp only
      omega
    · rename_i hxo
      rw [h.refcount x b' hb' hi, hother x hxo]
  · rw [get_put hb]
    split
    · exact ⟨_, rfl⟩
    · rename_i hxo
      rw [← List.count_pos_iff, hother x hxo, List.count_pos_iff] at hx
      exact h.exists_of_ref x hx
  · rw [get_put hb] at hb'
    split at hb'
    · rename_i hco
      cases hb'
      subst hco
      rcases hnew hlive with hold | hnil
      · exact h.slots c b hb hold hc
      · by_cases hold : b.Live
        · exact h.slots c b hb hold hc
        · rw [hnil]
          refine h.slots_dead c fun b₀ hb₀ => ?_
          rw [hb] at hb₀
          cases hb₀
          exact hold
    · exact h.slots c b' hb' hlive hc
  · refine h.slots_dead c fun b₀ hb₀ hold => ?_
    by_cases hco : c = o
    · subst hco
      rw [hb] at hb₀
      cases hb₀
      exact hc _ (by rw [get_put hb, if_pos rfl]) (hkeep hold)
    · exact hc b₀ (by rw [get_put hb, if_neg hco, hb₀]) hold
  · rw [get_put hb] at hb'
    split at hb'
    · cases hb'
      exact h.string_of_intern o b hb hi
    · exact h.string_of_intern x b' hb' hi

/-- The last reference goes: what the object refers to is in hand. -/
theorem Counted.die (h : Counted p owned S (o :: hand) busy) (hb : p.get o = some b)
    (hintern : b.flag_intern = false) (hcount : b.refcount = 1) (hbusy : o ∉ busy) :
    Counted (p.put o { b with refcount := 0 }) owned (Function.update S o [])
      (b.data.slots ++ hand) busy := by
  have hlive : b.Live := .inr (by omega)
  have hS : S o = b.data.slots := h.slots o b hb hlive hbusy
  have hcounts (x : ℕ) : slotCount (Function.update S o []) p.objs.length x +
      (b.data.slots).count x = slotCount S p.objs.length x := by
    have := slotCount_update (S := S) (o := x) (get_lt hb) []
    rw [hS] at this
    simpa using this
  have hdead : ¬DohBase.Live { b with refcount := 0 } := by
    rintro (hi | hpos)
    · exact absurd (hi.symm.trans hintern) (by simp)
    · exact absurd hpos (Nat.lt_irrefl 0)
  refine ⟨fun x b' hb' hi => ?_, fun x hx => ?_, fun c b' hb' hlive hc => ?_, fun c hc => ?_,
    fun x b' hb' hi => ?_⟩
  · rw [get_put hb] at hb'
    rw [length_put, List.count_append]
    have hx := hcounts x
    split at hb'
    · rename_i hxo
      cases hb'
      subst hxo
      have := h.refcount x b hb hintern
      rw [List.count_cons_self] at this
      dsimp only
      omega
    · rename_i hxo
      have := h.refcount x b' hb' hi
      rw [List.count_cons_of_ne (Ne.symm hxo)] at this
      omega
  · rw [get_put hb]
    split
    · exact ⟨_, rfl⟩
    · refine h.exists_of_ref x ?_
      rcases hx with hx | ⟨c, hc⟩ | hx
      · exact .inl hx
      · by_cases hco : c = o
        · subst hco
          rw [Function.update_self] at hc
          cases hc
        · rw [Function.update_of_ne hco] at hc
          exact .inr (.inl ⟨c, hc⟩)
      · rcases List.mem_append.mp hx with hx | hx
        · exact .inr (.inl ⟨o, hS ▸ hx⟩)
        · exact .inr (.inr (List.mem_cons_of_mem _ hx))
  · rw [get_put hb] at hb'
    split at hb'
    · cases hb'
      exact absurd hlive hdead
    · rename_i hco
      rw [Function.update_of_ne hco]
      exact h.slots c b' hb' hlive hc
  · by_cases hco : c = o
    · rw [hco, Function.update_self]
    · rw [Function.update_of_ne hco]
      refine h.slots_dead c fun b₀ hb₀ => ?_
      exact hc b₀ (by rw [get_put hb, if_neg hco, hb₀])
  · rw [get_put hb] at hb'
    split at hb'
    · cases hb'
      exact h.string_of_intern o b hb hi
    · exact h.string_of_intern x b' hb' hi

/-- A dead object that nothing refers to is freed. -/
theorem Counted.free (h : Counted p owned S hand busy)
    (hdead : ∀ b, p.get o = some b → ¬b.Live) : Counted (p.objFree o) owned S hand busy := by
  have hget {x : ℕ} {b : DohBase} (hb : (p.objFree o).get x = some b) : x ≠ o ∧ p.get x = some b := by
    rw [get_objFree] at hb
    split at hb
    · cases hb
    · exact ⟨‹_›, hb⟩
  refine ⟨fun x b hb hi => ?_, fun x hx => ?_, fun c b hb => h.slots c b (hget hb).2, fun c hc => ?_,
    fun x b hb => h.string_of_intern x b (hget hb).2⟩
  · rw [length_objFree]
    exact h.refcount x b (hget hb).2 hi
  · obtain ⟨b, hb, hlive⟩ := h.live hx
    have hxo : x ≠ o := by
      rintro rfl
      exact hdead b hb hlive
    exact ⟨b, by rw [get_objFree, if_neg hxo, hb]⟩
  · by_cases hco : c = o
    · subst hco
      exact h.slots_dead c hdead
    · exact h.slots_dead c fun b hb => hc b (by rw [get_objFree, if_neg hco, hb])

/-- The count of an interned object says nothing. -/
theorem Counted.tail_of_intern (h : Counted p owned S (o :: hand) busy) (hb : p.get o = some b)
    (hintern : b.flag_intern = true) : Counted p owned S hand busy := by
  refine { h with refcount := fun x b' hb' hi => ?_, exists_of_ref := fun x hx => ?_ }
  · have hxo : o ≠ x := by
      rintro rfl
      rw [hb] at hb'
      cases hb'
      rw [hi] at hintern
      cases hintern
    rw [h.refcount x b' hb' hi, List.count_cons_of_ne hxo]
  · exact h.exists_of_ref x (hx.imp_right (Or.imp_right (List.mem_cons_of_mem o)))

theorem deleteFuel_counted (h : Counted p owned S (o :: hand) busy)
    (hbusy : ∀ c ∈ busy, Held owned S c) (hfuel : liveCount p < fuel) :
    ∃ p' S', deleteFuel fuel o p = some p' ∧ Counted p' owned S' hand busy ∧
      Kept owned S p S' p' := by
  induction fuel generalizing p S o hand with
  | zero => omega
  | succ fuel ih =>
      obtain ⟨b, hb, hlive⟩ := h.live (o := o) (.inr (.inr List.mem_cons_self))
      cases hintern : b.flag_intern with
      | true =>
          exact ⟨p, S, by simp [deleteFuel, hb, hintern], h.tail_of_intern hb hintern, Kept.refl _ _ _⟩
      | false =>
          have hpos : b.refcount > 0 := hlive.resolve_left (by simp [hintern])
          have hcount := h.refcount o b hb hintern
          rw [List.count_cons_self] at hcount
          by_cases hone : b.refcount - 1 = 0
          · have hunheld : ¬Held owned S o := by
              intro hheld
              rcases hheld.exists_ref with hown | ⟨c, hc⟩
              · omega
              · have := slotCount_pos_iff.mpr ⟨c, h.lt_of_mem hc, hc⟩
                omega
            have hbusy_o : o ∉ busy := fun hmem => hunheld (hbusy o hmem)
            have h₁ := h.die hb hintern (by omega) hbusy_o
            -- the slots of the object were not needed for anything that is held
            have hheld {c : ℕ} (hc : Held owned S c) : Held owned (Function.update S o []) c := by
              refine hc.mono (fun _ => id) fun d hd x hx => ?_
              have hdo : d ≠ o := fun hdo => hunheld (hdo ▸ hd)
              rwa [Function.update_of_ne hdo]
            have hless := Nat.lt_of_lt_of_le (liveCount_put_dead hb hlive hintern)
              (Nat.le_of_lt_succ hfuel)
            obtain ⟨p₂, S₂, hp₂, h₂, hkept⟩ := deleteAll_counted ih h₁
              (fun c hc => hheld (hbusy c hc)) hless
            have hdead : ∀ b₂, p₂.get o = some b₂ → ¬b₂.Live := by
              intro b₂ hb₂ hlive₂
              obtain ⟨b₁, hb₁, -, hi, hle, -⟩ := hkept.get o b₂ hb₂
              rw [get_put hb, if_pos rfl] at hb₁
              cases hb₁
              rcases hlive₂ with hi₂ | hpos₂
              · rw [hi, hintern] at hi₂
                cases hi₂
              · exact absurd (Nat.lt_of_lt_of_le hpos₂ hle) (Nat.lt_irrefl 0)
            refine ⟨p₂.objFree o, S₂, ?_, h₂.free hdead, ?_⟩
            · unfold deleteFuel
              simp only [hb, Option.bind_eq_bind, Option.bind_some]
              rw [if_neg (by simp [hintern])]
              simp only [guard, if_pos hpos, hone, if_true]
              exact (congrArg (Option.bind · _) hp₂).trans rfl
            · refine ⟨by rw [length_objFree, hkept.length, length_put], hkept.root, ?_, ?_, ?_⟩
              · intro c b' hb'
                rw [get_objFree] at hb'
                split at hb'
                · cases hb'
                · rename_i hco
                  obtain ⟨b₁, hb₁, hrest⟩ := hkept.get c b' hb'
                  rw [get_put hb, if_neg hco] at hb₁
                  exact ⟨b₁, hb₁, hrest⟩
              · intro c b₁ hb₁ hi
                have hco : c ≠ o := by
                  rintro rfl
                  rw [hb] at hb₁
                  cases hb₁
                  exact hi.elim (by simp [hintern]) (fun hd => hd hlive)
                rw [get_objFree, if_neg hco]
                exact hkept.same c b₁ (by rw [get_put hb, if_neg hco, hb₁]) hi
              · intro c hc
                have hco : c ≠ o := fun hco => hunheld (hco ▸ hc)
                rw [hkept.held c (hheld hc), Function.update_of_ne hco]
          · refine ⟨p.put o { b with refcount := b.refcount - 1 }, S, ?_, ?_, ?_⟩
            · simp [deleteFuel, hb, hintern, guard, hpos, hone]
            · refine h.recount hb (fun x hx => (List.count_cons_of_ne (Ne.symm hx)).symm) ?_ ?_ ?_
              · intro _
                rw [List.count_cons_self]
                omega
              · exact fun _ => .inr (by dsimp only; omega)
              · exact fun _ => .inl hlive
            · refine ⟨length_put .., rfl, fun c b' hb' => ?_, fun c b₁ hb₁ hi => ?_, fun _ _ => rfl⟩
              · rw [get_put hb] at hb'
                split at hb'
                · cases hb'
                  subst c
                  exact ⟨b, hb, rfl, rfl, Nat.sub_le _ _, fun h0 => absurd h0 hone⟩
                · exact ⟨b', hb', rfl, rfl, Nat.le_refl _, id⟩
              · rw [get_put hb, if_neg ?_]
                · exact hb₁
                · rintro rfl
                  rw [hb] at hb₁
                  cases hb₁
                  exact hi.elim (by simp [hintern]) (fun hd => hd hlive)

/-- A reference in hand is deleted. -/
theorem Counted.delete (h : Counted p owned S (o :: hand) busy)
    (hbusy : ∀ c ∈ busy, Held owned S c) :
    ∃ p' S', p.delete o = some p' ∧ Counted p' owned S' hand busy ∧ Kept owned S p S' p' :=
  deleteFuel_counted h hbusy (Nat.lt_succ_of_le (liveCount_le p))

end Pool

end Swig.DOH
