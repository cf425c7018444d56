import Swig.Runtime.TypeInfo
import Swig.Lib.DoublyLinked
import Swig.Lib.Fuel
import Mathlib.Tactic.Common

/-!
The cast lists of the types: `SWIG_TypeCheck` moves the entry it finds to the
top of its list, and a new entry is put on top. Both keep every list a doubly
linked list of its own.
-/

namespace Swig.Runtime

open DoublyLinked Fuel

variable {M I : Type}

namespace State

def castNext (st : State M I) (c : CastRef M) : Option (CastRef M) := (st.casts c).next

def castPrev (st : State M I) (c : CastRef M) : Option (CastRef M) := (st.casts c).prev

def castType (st : State M I) (c : CastRef M) : TypeRef M := (st.casts c).type

/-- The pointers between casts and the heads of the lists apart, the two states
are the same. -/
structure SameTables (st st' : State M I) : Prop where
  types : ∀ t, st'.types t = { st.types t with cast := (st'.types t).cast }
  castType : st'.castType = st.castType
  converter : ∀ c, (st'.casts c).converter = (st.casts c).converter
  modules : st'.modules = st.modules
  head : st'.head = st.head

theorem SameTables.refl (st : State M I) : SameTables st st :=
  ⟨fun _ => rfl, rfl, fun _ => rfl, rfl, rfl⟩

theorem SameTables.trans {st₁ st₂ st₃ : State M I} (h₁ : SameTables st₁ st₂)
    (h₂ : SameTables st₂ st₃) : SameTables st₁ st₃ where
  types t := by rw [h₂.types t, h₁.types t]
  castType := h₂.castType.trans h₁.castType
  converter c := (h₂.converter c).trans (h₁.converter c)
  modules := h₂.modules.trans h₁.modules
  head := h₂.head.trans h₁.head

theorem SameTables.name {st st' : State M I} (h : SameTables st st') (t : TypeRef M) :
    (st'.types t).name = (st.types t).name := by rw [h.types t]

/-- The cast list of every type `t` consists of the entries `L t`; no entry is
on two lists, and the pointers of an entry on no list are null. -/
structure CastLists (st : State M I) (L : TypeRef M → List (CastRef M)) : Prop where
  list : ∀ t, IsList st.castNext st.castPrev (st.types t).cast (L t)
  disjoint : ∀ t t' c, c ∈ L t → c ∈ L t' → t = t'
  free : ∀ c, (∀ t, c ∉ L t) → st.castNext c = none ∧ st.castPrev c = none

variable [DecidableEq M]

/-- One list is rebuilt from its own entries and entries that are on no list. -/
theorem CastLists.update {st st' : State M I} {L : TypeRef M → List (CastRef M)}
    (h : CastLists st L) {ty : TypeRef M} {cs : List (CastRef M)}
    (hty : IsList st'.castNext st'.castPrev (st'.types ty).cast cs)
    (hcast : ∀ t, t ≠ ty → (st'.types t).cast = (st.types t).cast)
    (hcells : ∀ c, c ∉ cs → st'.castNext c = st.castNext c ∧ st'.castPrev c = st.castPrev c)
    (hnew : ∀ c ∈ cs, c ∈ L ty ∨ ∀ t, c ∉ L t) (hkeep : ∀ c ∈ L ty, c ∈ cs) :
    CastLists st' (Function.update L ty cs) := by
  have hother {t : TypeRef M} (ht : t ≠ ty) {c : CastRef M} (hc : c ∈ L t) : c ∉ cs := by
    intro hmem
    rcases hnew c hmem with hty | hfree
    · exact ht (h.disjoint t ty c hc hty)
    · exact hfree t hc
  refine ⟨fun t => ?_, fun t t' c hc hc' => ?_, fun c hc => ?_⟩
  · by_cases ht : t = ty
    · subst ht
      simpa using hty
    · rw [Function.update_of_ne ht, hcast t ht]
      exact (h.list t).congr (fun c hc => (hcells c (hother ht hc)).1)
        fun c hc => (hcells c (hother ht hc)).2
  · by_cases ht : t = ty <;> by_cases ht' : t' = ty
    · rw [ht, ht']
    · subst ht
      rw [Function.update_self] at hc
      rw [Function.update_of_ne ht'] at hc'
      exact absurd hc (hother ht' hc')
    · subst ht'
      rw [Function.update_self] at hc'
      rw [Function.update_of_ne ht] at hc
      exact absurd hc' (hother ht hc)
    · rw [Function.update_of_ne ht] at hc
      rw [Function.update_of_ne ht'] at hc'
      exact h.disjoint t t' c hc hc'
  · have hcs : c ∉ cs := by simpa using hc ty
    have hfree : ∀ t, c ∉ L t := by
      intro t ht
      by_cases hty' : t = ty
      · exact hcs (hkeep c (hty' ▸ ht))
      · exact hc t (by rwa [Function.update_of_ne hty'])
    rw [(hcells c hcs).1, (hcells c hcs).2]
    exact h.free c hfree

/-! ### Reading the pointers after an assignment -/

/-- `if (o) o->prev = v`. -/
def setPrevOf (st : State M I) (o : Option (CastRef M)) (v : Option (CastRef M)) : State M I :=
  match o with
  | none => st
  | some c => st.setCastPrev c v

@[simp] theorem castNext_setCastNext (st : State M I) (c : CastRef M) (v : Option (CastRef M)) :
    (st.setCastNext c v).castNext = Function.update st.castNext c v := by
  funext d
  by_cases hd : d = c
  · subst hd
    simp [castNext, setCastNext, setCast]
  · simp [castNext, setCastNext, setCast, hd]

@[simp] theorem castNext_setPrevOf (st : State M I) (o v : Option (CastRef M)) :
    (st.setPrevOf o v).castNext = st.castNext := by
  cases o with
  | none => rfl
  | some c =>
      funext d
      by_cases hd : d = c
      · subst hd
        simp [castNext, setPrevOf, setCastPrev, setCast]
      · simp [castNext, setPrevOf, setCastPrev, setCast, hd]

@[simp] theorem castPrev_setCastNext (st : State M I) (c : CastRef M) (v : Option (CastRef M)) :
    (st.setCastNext c v).castPrev = st.castPrev := by
  funext d
  by_cases hd : d = c
  · subst hd
    simp [castPrev, setCastNext, setCast]
  · simp [castPrev, setCastNext, setCast, hd]

@[simp] theorem castPrev_setPrevOf (st : State M I) (o v : Option (CastRef M)) (d : CastRef M) :
    (st.setPrevOf o v).castPrev d = if o = some d then v else st.castPrev d := by
  cases o with
  | none => rfl
  | some c =>
      by_cases hd : c = d
      · subst hd
        simp [castPrev, setPrevOf, setCastPrev, setCast]
      · simp [castPrev, setPrevOf, setCastPrev, setCast, hd, Ne.symm hd]

@[simp] theorem castNext_setTypeCast (st : State M I) (ty : TypeRef M) (v : Option (CastRef M)) :
    (st.setTypeCast ty v).castNext = st.castNext := rfl

@[simp] theorem castPrev_setTypeCast (st : State M I) (ty : TypeRef M) (v : Option (CastRef M)) :
    (st.setTypeCast ty v).castPrev = st.castPrev := rfl

@[simp] theorem types_setCastNext (st : State M I) (c : CastRef M) (v : Option (CastRef M)) :
    (st.setCastNext c v).types = st.types := rfl

@[simp] theorem types_setPrevOf (st : State M I) (o v : Option (CastRef M)) :
    (st.setPrevOf o v).types = st.types := by cases o <;> rfl

theorem cast_setTypeCast (st : State M I) (ty : TypeRef M) (v : Option (CastRef M))
    (t : TypeRef M) :
    ((st.setTypeCast ty v).types t).cast = if t = ty then v else (st.types t).cast := by
  by_cases ht : t = ty
  · subst ht
    simp [setTypeCast, setType]
  · simp [setTypeCast, setType, ht]

theorem sameTables_setCast (st : State M I) (c : CastRef M) (v : SwigCastInfo M)
    (ht : v.type = st.castType c) (hc : v.converter = (st.casts c).converter) :
    SameTables st (st.setCast c v) := by
  refine ⟨fun _ => rfl, ?_, fun d => ?_, rfl, rfl⟩
  · funext d
    by_cases hd : d = c
    · subst hd
      simpa [castType, setCast] using ht
    · simp [castType, setCast, hd]
  · by_cases hd : d = c
    · subst hd
      simpa [setCast] using hc
    · simp [setCast, hd]

theorem sameTables_setCastNext (st : State M I) (c : CastRef M) (v : Option (CastRef M)) :
    SameTables st (st.setCastNext c v) := sameTables_setCast st c _ rfl rfl

theorem sameTables_setPrevOf (st : State M I) (o v : Option (CastRef M)) :
    SameTables st (st.setPrevOf o v) := by
  cases o with
  | none => exact .refl st
  | some c => exact sameTables_setCast st c _ rfl rfl

theorem sameTables_setTypeCast (st : State M I) (ty : TypeRef M) (v : Option (CastRef M)) :
    SameTables st (st.setTypeCast ty v) := by
  refine ⟨fun t => ?_, rfl, fun _ => rfl, rfl, rfl⟩
  by_cases ht : t = ty
  · subst ht
    simp [setTypeCast, setType]
  · simp [setTypeCast, setType, ht]

/-! ### The two changes of a list -/

/-- An entry that is on no list is put on top of the list of `ty`. -/
theorem CastLists.addCast {st : State M I} {L : TypeRef M → List (CastRef M)}
    (h : CastLists st L) (ty : TypeRef M) {c : CastRef M} (hc : ∀ t, c ∉ L t) :
    SameTables st (st.addCast ty c) ∧
      CastLists (st.addCast ty c) (Function.update L ty (c :: L ty)) := by
  obtain ⟨hfree, hfree'⟩ := h.free c hc
  obtain ⟨o, ho⟩ : ∃ o, o = (st.types ty).cast := ⟨_, rfl⟩
  have hlist := h.list ty
  have hmem (y : CastRef M) (hy : o = some y) : y ∈ L ty := by
    rw [← ho, hy] at hlist
    exact List.mem_of_head? hlist.head_eq.symm
  -- with a null head the assignment of `next` is left out; it is null already
  have hadd : SameTables st (st.addCast ty c) ∧
      (st.addCast ty c).castNext = Function.update st.castNext c o ∧
      (∀ d, (st.addCast ty c).castPrev d = if o = some d then some c else st.castPrev d) ∧
      ∀ t, ((st.addCast ty c).types t).cast = if t = ty then some c else (st.types t).cast := by
    cases o with
    | none =>
        have hadd : st.addCast ty c = st.setTypeCast ty (some c) := by
          simp [State.addCast, ← ho]
        rw [hadd]
        refine ⟨sameTables_setTypeCast _ _ _, ?_, fun d => by simp, cast_setTypeCast _ _ _⟩
        rw [castNext_setTypeCast, ← hfree, Function.update_eq_self]
    | some y =>
        have hadd : st.addCast ty c =
            ((st.setPrevOf (some y) (some c)).setCastNext c (some y)).setTypeCast ty (some c) := by
          simp [State.addCast, ← ho, setPrevOf]
        rw [hadd]
        refine ⟨?_, by simp, fun d => by simp, fun t => by simp [cast_setTypeCast]⟩
        exact ((sameTables_setPrevOf _ _ _).trans (sameTables_setCastNext _ _ _)).trans
          (sameTables_setTypeCast _ _ _)
  obtain ⟨hsame, hnext, hprev, hcast⟩ := hadd
  refine ⟨hsame, h.update ?_ (fun t ht => by rw [hcast, if_neg ht]) ?_ ?_ ?_⟩
  · rw [hcast, if_pos rfl]
    rw [← ho] at hlist
    refine hlist.push (hc ty) (by simp [hnext]) ?_ (fun y hy => by simp [hprev, hy]) ?_ ?_
    · rw [hprev, if_neg fun e => hc ty (hmem c e), hfree']
    · intro y hy
      rw [hnext, Function.update_of_ne]
      rintro rfl
      exact hc ty hy
    · intro y hy hne
      rw [hprev, if_neg hne]
  · intro d hd
    simp only [List.mem_cons, not_or] at hd
    rw [hnext, hprev, Function.update_of_ne hd.1, if_neg fun e => hd.2 (hmem d e)]
    exact ⟨rfl, rfl⟩
  · intro d hd
    rcases List.mem_cons.mp hd with rfl | hd
    · exact Or.inr hc
    · exact Or.inl hd
  · exact fun d hd => List.mem_cons_of_mem _ hd

/-- The assignments of the move, for an entry with a predecessor. -/
theorem moveToTop_eq {st : State M I} (ty : TypeRef M) {p x : CastRef M}
    (hprev : st.castPrev x = some p) (hpx : x ≠ p) :
    st.moveToTop ty x = some (((((st.setCastNext p (st.castNext x)).setPrevOf (st.castNext x)
      (some p)).setCastNext x (st.types ty).cast).setPrevOf (some x) none).setPrevOf
      (st.types ty).cast (some x) |>.setTypeCast ty (some x)) := by
  have hprevx : (st.casts x).prev = some p := hprev
  have hnext : ((st.setCastNext p (st.casts x).next).casts x).next = (st.casts x).next := by
    have := congrFun (castNext_setCastNext st p (st.casts x).next) x
    rwa [Function.update_of_ne hpx] at this
  have hprev : ((st.setCastNext p (st.casts x).next).casts x).prev = some p :=
    (congrFun (castPrev_setCastNext st p (st.casts x).next) x).trans hprevx
  simp only [moveToTop, hprevx, hnext, hprev, castNext]
  cases (st.casts x).next with
  | none =>
      simp only [setPrevOf, types_setCastNext]
      cases hcast : (st.types ty).cast with
      | none => simp [setCastPrev, setCast, setCastNext, hcast]
      | some c => simp [setCastPrev, setCast, setCastNext, hcast]
  | some n =>
      cases hcast : (st.types ty).cast with
      | none => simp [setPrevOf, setCastPrev, setCast, setCastNext, hcast]
      | some c => simp [setPrevOf, setCastPrev, setCast, setCastNext, hcast]

/-- What a function may do to the cast list of `ty`: the list `cs` becomes `cs'`,
and the pointers outside it stay. -/
structure ListChange (st : State M I) (ty : TypeRef M) (cs : List (CastRef M))
    (st' : State M I) (cs' : List (CastRef M)) : Prop where
  tables : SameTables st st'
  list : IsList st'.castNext st'.castPrev (st'.types ty).cast cs'
  cast : ∀ t, t ≠ ty → (st'.types t).cast = (st.types t).cast
  cells : ∀ c, c ∉ cs' → st'.castNext c = st.castNext c ∧ st'.castPrev c = st.castPrev c
  perm : cs'.Perm cs

omit [DecidableEq M] in
theorem ListChange.refl {st : State M I} {ty : TypeRef M} {cs : List (CastRef M)}
    (h : IsList st.castNext st.castPrev (st.types ty).cast cs) : ListChange st ty cs st cs :=
  ⟨.refl st, h, fun _ _ => rfl, fun _ _ => ⟨rfl, rfl⟩, List.Perm.refl _⟩

theorem CastLists.change {st st' : State M I} {L : TypeRef M → List (CastRef M)}
    (h : CastLists st L) {ty : TypeRef M} {cs' : List (CastRef M)}
    (hc : ListChange st ty (L ty) st' cs') : CastLists st' (Function.update L ty cs') :=
  h.update hc.list hc.cast hc.cells (fun _ hx => .inl (hc.perm.mem_iff.mp hx))
    fun _ hx => hc.perm.mem_iff.mpr hx

/-- An entry of the list other than the first is moved to the top. -/
theorem listChange_moveToTop {st : State M I} {ty : TypeRef M} {as bs : List (CastRef M)}
    {p x : CastRef M}
    (hlist : IsList st.castNext st.castPrev (st.types ty).cast (as ++ p :: x :: bs)) :
    ∃ st', st.moveToTop ty x = some st' ∧
      ListChange st ty (as ++ p :: x :: bs) st' (x :: (as ++ p :: bs)) := by
  have hnodup := hlist.nodup
  have hmid := (show as ++ p :: x :: bs = (as ++ [p]) ++ x :: bs by simp) ▸ hlist
  have hprevx : st.castPrev x = some p := by simpa using hmid.mid.1
  have hnextx : st.castNext x = bs.head? := hmid.mid.2
  have hxrest : x ∉ as ++ p :: bs := by
    simp only [List.nodup_append, List.nodup_cons, List.mem_cons, List.mem_append,
      not_or] at hnodup ⊢
    exact ⟨fun hx => hnodup.2.2 x hx x (by simp) rfl, fun e => hnodup.2.1.1.1 e.symm,
      hnodup.2.1.2.1⟩
  have hpx : x ≠ p := fun e => hxrest (by simp [e])
  rw [moveToTop_eq ty hprevx hpx]
  obtain ⟨o, ho⟩ : ∃ o, o = (st.types ty).cast := ⟨_, rfl⟩
  rw [← ho] at hlist ⊢
  have hhead : o = (as ++ p :: bs).head? := by
    rw [hlist.head_eq]
    cases as <;> rfl
  have hmem (y : CastRef M) (hy : o = some y) : y ∈ as ++ p :: bs :=
    List.mem_of_head? (hhead ▸ hy)
  have hmemnext (y : CastRef M) (hy : st.castNext x = some y) : y ∈ as ++ p :: bs := by
    rw [hnextx] at hy
    simp [List.mem_of_head? hy]
  refine ⟨_, rfl, ?_, ?_, fun t ht => by simp [cast_setTypeCast, ht], ?_, ?_⟩
  · exact ((((sameTables_setCastNext _ _ _).trans (sameTables_setPrevOf _ _ _)).trans
      (sameTables_setCastNext _ _ _)).trans (sameTables_setPrevOf _ _ _)).trans
      (sameTables_setPrevOf _ _ _) |>.trans (sameTables_setTypeCast _ _ _)
  · -- first the entry is taken out, then it is put on top
    have hout : IsList (Function.update st.castNext p (st.castNext x))
        (fun y => if st.castNext x = some y then some p else st.castPrev y) o
        (as ++ p :: bs) := by
      refine hlist.unlink (by simp) (fun y hy => by simp [hy]) (fun y _ hy => by simp [hy]) ?_
      intro y _ hy
      simp [hy]
    rw [cast_setTypeCast, if_pos rfl]
    refine hout.push hxrest (by simp) ?_ (fun y hy => by simp [hy]) ?_ ?_
    · simp [show o ≠ some x from fun e => hxrest (hmem x e)]
    · intro y hy
      have hyx : y ≠ x := by
        rintro rfl
        exact hxrest hy
      simp [hyx]
    · intro y hy hne
      have hyx : x ≠ y := by
        rintro rfl
        exact hxrest hy
      simp [hne, hyx]
  · intro c hc
    simp only [List.mem_cons, not_or] at hc
    have hcp : c ≠ p := by
      rintro rfl
      exact hc.2 (by simp)
    have hco : o ≠ some c := fun e => hc.2 (hmem c e)
    have hcn : st.castNext x ≠ some c := fun e => hc.2 (hmemnext c e)
    simp [hc.1, Ne.symm hc.1, hcp, hco, hcn]
  · have hperm : (as ++ [p] ++ x :: bs).Perm (x :: (as ++ [p] ++ bs)) := List.perm_middle
    simpa using hperm.symm

/-! ### Checking a type -/

theorem mono_typeCheckLoop (test : State M I → TypeRef M → Bool) (ty : TypeRef M)
    (o : Option (CastRef M)) (st : State M I) : Mono fun n => typeCheckLoop test ty n o st := by
  intro n m r hnm h
  induction n generalizing m o with
  | zero => cases h
  | succ n ih =>
      obtain ⟨m, rfl⟩ : ∃ k, m = k + 1 := ⟨m - 1, by omega⟩
      cases o with
      | none => exact h
      | some iter =>
          simp only [typeCheckLoop] at h ⊢
          split
          · simpa [*] using h
          · rw [if_neg ‹_›] at h
            exact ih _ m (by omega) h

/-- The list after a search: the entry found is on top. -/
def found (cs : List (CastRef M)) (r : Option (CastRef M)) : List (CastRef M) :=
  match r with
  | none => cs
  | some x => x :: cs.erase x

/-- The loop finds the first entry whose type passes the test, and leaves the
list the same up to the order of its entries. -/
theorem listChange_typeCheckLoop {st : State M I} {ty : TypeRef M} {cs : List (CastRef M)}
    (hlist : IsList st.castNext st.castPrev (st.types ty).cast cs)
    (test : State M I → TypeRef M → Bool) :
    ∃ st', Returns (fun n => State.typeCheckLoop test ty n (st.types ty).cast st)
        (cs.find? fun c => test st (st.castType c), st') ∧
      ListChange st ty cs st' (found cs (cs.find? fun c => test st (st.castType c))) := by
  -- the loop has passed `as` and still has `bs` before it
  have key (as bs : List (CastRef M)) (hcs : cs = as ++ bs)
      (has : ∀ c ∈ as, test st (st.castType c) = false) :
      ∃ st', (∀ n, bs.length < n → State.typeCheckLoop test ty n bs.head? st =
          some (bs.find? fun c => test st (st.castType c), st')) ∧
        ListChange st ty cs st' (found cs (bs.find? fun c => test st (st.castType c))) := by
    induction bs generalizing as with
    | nil =>
        refine ⟨st, fun n hn => ?_, .refl hlist⟩
        obtain ⟨n, rfl⟩ : ∃ k, n = k + 1 := ⟨n - 1, by omega⟩
        rfl
    | cons x bs ih =>
        have hx : st.castNext x = bs.head? := (hcs ▸ hlist).mid.2
        cases htest : test st (st.castType x) with
        | false =>
            obtain ⟨st', hret, hchange⟩ := ih (as ++ [x]) (by simp [hcs]) fun c hc => by
              rcases List.mem_append.mp hc with hc | hc
              · exact has c hc
              · exact List.mem_singleton.mp hc ▸ htest
            refine ⟨st', fun n hn => ?_, by simpa [htest] using hchange⟩
            obtain ⟨n, rfl⟩ : ∃ k, n = k + 1 := ⟨n - 1, by omega⟩
            have := hret n (by simpa using hn)
            rw [← hx] at this
            have htest' : test st (st.casts x).type = false := htest
            simpa [State.typeCheckLoop, htest', castType, castNext] using this
        | true =>
            have hfind : (x :: bs).find? (fun c => test st (st.castType c)) = some x := by
              simp [htest]
            have htest' : test st (st.casts x).type = true := htest
            rcases List.eq_nil_or_concat as with rfl | ⟨as, p, rfl⟩
            · refine ⟨st, fun n hn => ?_, ?_⟩
              · obtain ⟨n, rfl⟩ : ∃ k, n = k + 1 := ⟨n - 1, by omega⟩
                have hhead : (st.types ty).cast = some x := by rw [hlist.head_eq, hcs]; rfl
                simp [State.typeCheckLoop, hhead, htest', htest]
              · have hfound : found cs (some x) = cs := by simp [found, hcs]
                rw [hfind, hfound]
                exact .refl hlist
            · have hcs' : cs = as ++ p :: x :: bs := by simp [hcs]
              have hnodup := hcs' ▸ hlist.nodup
              have hx : x ∉ as ++ [p] := by
                simp only [List.nodup_append, List.nodup_cons, List.mem_append,
                  List.mem_cons, List.not_mem_nil, or_false, not_or] at hnodup ⊢
                exact ⟨fun hx => hnodup.2.2 x hx x (by simp) rfl, fun e => hnodup.2.1.1.1 e.symm⟩
              obtain ⟨st', hmove, hchange⟩ := listChange_moveToTop (hcs' ▸ hlist)
              refine ⟨st', fun n hn => ?_, ?_⟩
              · obtain ⟨n, rfl⟩ : ∃ k, n = k + 1 := ⟨n - 1, by omega⟩
                have hhead : some x ≠ (st.types ty).cast := by
                  rw [hlist.head_eq, hcs']
                  intro e
                  exact hx (List.mem_of_head? (show (as ++ [p]).head? = some x by
                    rw [e]; cases as <;> rfl))
                simp [State.typeCheckLoop, hhead, htest', htest, hmove]
              · have hfound : found cs (some x) = x :: (as ++ p :: bs) := by
                  rw [found, hcs, List.erase_append_right _ (by simpa using hx)]
                  simp
                rw [hfind, hfound, hcs']
                exact hchange
  obtain ⟨st', hret, hchange⟩ := key [] cs rfl (by simp)
  rw [← hlist.head_eq] at hret
  exact ⟨st', ⟨cs.length + 1, fun n hn => hret n (by omega)⟩, hchange⟩

/-- The loop leaves all lists the same up to the order of their entries. -/
theorem CastLists.typeCheckLoop {st : State M I} {L : TypeRef M → List (CastRef M)}
    (h : CastLists st L) (test : State M I → TypeRef M → Bool) (ty : TypeRef M) :
    ∃ st' L', Returns (fun n => State.typeCheckLoop test ty n (st.types ty).cast st)
        ((L ty).find? fun c => test st (st.castType c), st') ∧
      SameTables st st' ∧ CastLists st' L' ∧ ∀ t, (L' t).Perm (L t) := by
  obtain ⟨st', hret, hchange⟩ := listChange_typeCheckLoop (h.list ty) test
  refine ⟨st', _, hret, hchange.tables, h.change hchange, fun t => ?_⟩
  by_cases ht : t = ty
  · subst ht
    rw [Function.update_self]
    exact hchange.perm
  · rw [Function.update_of_ne ht]

end State

end Swig.Runtime
