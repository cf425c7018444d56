import Swig.Runtime.CastList

/-!
The pointers that Python objects hold (`pyrun.swg`): `SWIG_Python_ConvertPtrAndOwn` on a
`SwigPyObject`, and the methods that change one: `append`, `disown` and `acquire`.
-/

namespace Swig.Runtime

open DoublyLinked Fuel

/-! ### Objects -/

def SWIG_POINTER_DISOWN : ℕ := 0x1
def SWIG_CAST_NEW_MEMORY : ℕ := 0x2
def SWIG_POINTER_OWN : ℕ := 0x1

/-- A `SwigPyObject`, with pointers in `P`. -/
structure SwigPyObject (M O P : Type) where
  ptr : P
  ty : TypeRef M
  own : ℕ
  next : Option O

/-- The type table and the objects. -/
structure PyHeap (M I O P : Type) where
  table : State M I
  objs : O → SwigPyObject M O P

variable {M I O P : Type} [DecidableEq M]

namespace PyHeap

section

variable [DecidableEq O]

/-- `SwigPyObject_append`, of another `SwigPyObject`. -/
def append (h : PyHeap M I O P) (v next : O) : PyHeap M I O P :=
  { h with objs := Function.update h.objs v { h.objs v with next := some next } }

/-- `sobj->own = own`. -/
def setOwn (h : PyHeap M I O P) (v : O) (own : ℕ) : PyHeap M I O P :=
  { h with objs := Function.update h.objs v { h.objs v with own := own } }

/-- `SwigPyObject_disown`. -/
def disown (h : PyHeap M I O P) (v : O) : PyHeap M I O P := h.setOwn v 0

/-- `SwigPyObject_acquire`. -/
def acquire (h : PyHeap M I O P) (v : O) : PyHeap M I O P := h.setOwn v SWIG_POINTER_OWN

end

/-! ### The conversion -/

/-- The converters: the pointer they return, and what they set `newmemory` to. -/
abbrev Converters (P : Type) := ℕ → P → P × ℕ

variable (conv : Converters P)

/-- `SWIG_TypeCast`, with `newmemory` 0 before. -/
def typeCast (st : State M I) (tc : CastRef M) (ptr : P) : P × ℕ :=
  match (st.casts tc).converter with
  | none => (ptr, 0)
  | some converter => conv converter ptr

/-- What the loop leaves: the object, `*ptr` and `*own`. -/
structure Found (O P : Type) where
  sobj : O
  ptr : P
  own : ℕ

/-- The loop of `SWIG_Python_ConvertPtrAndOwn`. -/
def search (objs : O → SwigPyObject M O P) (ty : Option (TypeRef M)) :
    ℕ → State M I → Option O → Option (Option (Found O P) × State M I)
  | 0, _, _ => none
  | _ + 1, st, none => some (none, st)
  | n + 1, st, some sobj =>
      let vptr := (objs sobj).ptr
      match ty with
      | none => some (some ⟨sobj, vptr, 0⟩, st)
      | some ty =>
          let type := (objs sobj).ty
          if type = ty then some (some ⟨sobj, vptr, 0⟩, st)
          else
            (st.typeCheck n (st.types type).name ty).bind fun (tc, st) =>
              match tc with
              | none => search objs (some ty) n st (objs sobj).next
              | some tc =>
                  let r := typeCast conv st tc vptr
                  some (some ⟨sobj, r.1, if r.2 = SWIG_CAST_NEW_MEMORY then SWIG_CAST_NEW_MEMORY else 0⟩, st)

/-- `SWIG_Python_ConvertPtrAndOwn` of a `SwigPyObject`, with `ptr` and `own`, and without
`SWIG_POINTER_IMPLICIT_CONV`: `*ptr` and `*own`, or an error. -/
def convertPtrAndOwn [DecidableEq O] (fuel : ℕ) (h : PyHeap M I O P) (obj : O) (ty : Option (TypeRef M)) (flags : ℕ) :
    Option (Option (P × ℕ) × PyHeap M I O P) :=
  (search conv h.objs ty fuel h.table (some obj)).map fun (r, st) =>
    let h := { h with table := st }
    match r with
    | none => (none, h)
    | some r =>
        (some (r.ptr, r.own ||| (h.objs r.sobj).own),
          if flags &&& SWIG_POINTER_DISOWN ≠ 0 then h.setOwn r.sobj 0 else h)

/-! ### What is searched for -/

variable {conv} {st st' st₀ : State M I} {L : TypeRef M → List (CastRef M)} {objs : O → SwigPyObject M O P}

/-- `c` is an entry on the cast list of `t` for the type of `o`. -/
def Entry (st : State M I) (L : TypeRef M → List (CastRef M)) (objs : O → SwigPyObject M O P) (o : O) (t : TypeRef M)
    (c : CastRef M) : Prop :=
  c ∈ L t ∧ (st.types (st.castType c)).name = (st.types (objs o).ty).name

/-- The object has the type, or a type on its cast list; a null pointer is for any type. -/
def Accepts (st : State M I) (L : TypeRef M → List (CastRef M)) (objs : O → SwigPyObject M O P)
    (ty : Option (TypeRef M)) (o : O) : Prop :=
  ∀ t ∈ ty, (objs o).ty = t ∨ ∃ c, Entry st L objs o t c

/-- The pointer of an object as the type, and what the cast adds to `*own`. -/
def CastTo (conv : Converters P) (st : State M I) (L : TypeRef M → List (CastRef M)) (objs : O → SwigPyObject M O P)
    (ty : Option (TypeRef M)) (o : O) (ptr : P) (own : ℕ) : Prop :=
  ((∀ t ∈ ty, (objs o).ty = t) ∧ ptr = (objs o).ptr ∧ own = 0) ∨
    ∃ t ∈ ty, (objs o).ty ≠ t ∧ ∃ c, Entry st L objs o t c ∧ ptr = (typeCast conv st c (objs o).ptr).1 ∧
      own = if (typeCast conv st c (objs o).ptr).2 = SWIG_CAST_NEW_MEMORY then SWIG_CAST_NEW_MEMORY else 0

/-- The table is the one of the beginning, up to the order of the cast lists. -/
structure Reordered (st₀ : State M I) (L : TypeRef M → List (CastRef M)) (st : State M I) : Prop where
  tables : State.SameTables st₀ st
  lists : ∃ L', State.CastLists st L' ∧ ∀ t, (L' t).Perm (L t)

/-- The objects from one on, by their links. -/
inductive Chained (objs : O → SwigPyObject M O P) : Option O → List O → Prop
  | nil : Chained objs none []
  | cons {o : O} {os : List O} (h : Chained objs (objs o).next os) : Chained objs (some o) (o :: os)

/-- What the loop finds on a list of objects. -/
structure Finds (conv : Converters P) (st₀ : State M I) (L : TypeRef M → List (CastRef M))
    (objs : O → SwigPyObject M O P) (ty : Option (TypeRef M)) (os : List O) (r : Option (Found O P)) : Prop where
  missed : r = none → ∀ o ∈ os, ¬Accepts st₀ L objs ty o
  hit : ∀ f, r = some f → Accepts st₀ L objs ty f.sobj ∧ CastTo conv st₀ L objs ty f.sobj f.ptr f.own ∧
    ∃ before after, os = before ++ f.sobj :: after ∧ ∀ o ∈ before, ¬Accepts st₀ L objs ty o

/-! ### The search of a list -/

omit [DecidableEq M] in
theorem Reordered.castName (h : Reordered st₀ L st) (c : CastRef M) :
    (st.types (st.castType c)).name = (st₀.types (st₀.castType c)).name := by
  rw [h.tables.name, h.tables.castType]

omit [DecidableEq M] in
theorem Reordered.typeCast_eq (h : Reordered st₀ L st) (c : CastRef M) (p : P) :
    typeCast conv st c p = typeCast conv st₀ c p := by
  simp only [typeCast, h.tables.converter]

/-- `SWIG_TypeCheck` finds an entry for the name, if there is one. -/
theorem Reordered.typeCheck (h : Reordered st₀ L st) (name : Name) (t : TypeRef M) :
    ∃ tc st', Returns (fun n => st.typeCheck n name t) (tc, st') ∧ Reordered st₀ L st' ∧
      (tc = none → ∀ c ∈ L t, (st₀.types (st₀.castType c)).name ≠ name) ∧
      ∀ c, tc = some c → c ∈ L t ∧ (st₀.types (st₀.castType c)).name = name := by
  obtain ⟨L₁, hlists, hperm₁⟩ := h.lists
  obtain ⟨st', L₂, hret, htables, hlists', hperm₂⟩ :=
    hlists.typeCheckLoop (fun st t => strcmp (st.types t).name name == .eq) t
  refine ⟨_, st', hret, ⟨h.tables.trans htables, L₂, hlists', fun u => (hperm₂ u).trans (hperm₁ u)⟩, ?_, ?_⟩
  · intro hnone c hc heq
    have hfail := List.find?_eq_none.mp hnone c ((hperm₁ t).mem_iff.mpr hc)
    rw [h.castName, heq, strcmp_eq_iff.mpr rfl] at hfail
    exact hfail rfl
  · intro c hsome
    have htest := List.find?_some hsome
    refine ⟨(hperm₁ t).mem_iff.mp (List.mem_of_find?_eq_some hsome), ?_⟩
    rw [← h.castName]
    exact strcmp_eq_iff.mp (eq_of_beq htest)

omit [DecidableEq M] in
/-- The first object is the one that is found. -/
theorem Finds.here {ty : Option (TypeRef M)} {o : O} {os : List O} {p : P} {own : ℕ}
    (ha : Accepts st₀ L objs ty o) (hc : CastTo conv st₀ L objs ty o p own) :
    Finds conv st₀ L objs ty (o :: os) (some ⟨o, p, own⟩) where
  missed h := nomatch h
  hit f hf := by
    obtain rfl := Option.some.inj hf
    exact ⟨ha, hc, [], os, rfl, nofun⟩

omit [DecidableEq M] in
/-- The first object is passed. -/
theorem Finds.later {ty : Option (TypeRef M)} {o : O} {os : List O} {r : Option (Found O P)}
    (h : Finds conv st₀ L objs ty os r) (ho : ¬Accepts st₀ L objs ty o) : Finds conv st₀ L objs ty (o :: os) r where
  missed hr := List.forall_mem_cons.mpr ⟨ho, h.missed hr⟩
  hit f hf := by
    obtain ⟨ha, hc, before, after, rfl, hbefore⟩ := h.hit f hf
    exact ⟨ha, hc, o :: before, after, rfl, List.forall_mem_cons.mpr ⟨ho, hbefore⟩⟩

/-- The round for an object of another type. -/
theorem search_other {o : O} {t : TypeRef M} (ho : (objs o).ty ≠ t) (n : ℕ) :
    search conv objs (some t) (n + 1) st (some o) =
      (st.typeCheck n (st.types (objs o).ty).name t).bind fun (tc, st) =>
        match tc with
        | none => search conv objs (some t) n st (objs o).next
        | some tc =>
            let r := typeCast conv st tc (objs o).ptr
            some (some ⟨o, r.1, if r.2 = SWIG_CAST_NEW_MEMORY then SWIG_CAST_NEW_MEMORY else 0⟩, st) := by
  rw [search]
  exact if_neg ho

/-- The loop goes through the objects until one has the type or can be cast to it. -/
theorem search_returns {os : List O} {o : Option O} (hos : Chained objs o os) (ty : Option (TypeRef M))
    (h : Reordered st₀ L st) :
    ∃ r st', Returns (fun n => search conv objs ty n st o) (r, st') ∧ Reordered st₀ L st' ∧
      Finds conv st₀ L objs ty os r := by
  induction hos generalizing st with
  | nil => exact ⟨none, st, .of_succ (.const _), h, fun _ => nofun, nofun⟩
  | @cons o os hos ih =>
      cases ty with
      | none =>
          exact ⟨_, st, .of_succ (.const _), h, .here nofun (.inl ⟨nofun, rfl, rfl⟩)⟩
      | some t =>
          by_cases hto : (objs o).ty = t
          · have hty : ∀ u ∈ some t, (objs o).ty = u := by
              rintro u ⟨⟩
              exact hto
            refine ⟨_, st, .of_succ ((Returns.const _).congr fun n => ?_), h,
              .here (fun u hu => .inl (hty u hu)) (.inl ⟨hty, rfl, rfl⟩)⟩
            rw [search]
            exact if_pos hto
          · obtain ⟨tc, st₁, hcheck, h₁, hmiss, hhit⟩ := h.typeCheck (st.types (objs o).ty).name t
            rw [h.tables.name] at hmiss hhit
            cases tc with
            | none =>
                have hpass : ¬Accepts st₀ L objs (some t) o := by
                  intro hacc
                  rcases hacc t rfl with heq | ⟨c, hc, hname⟩
                  · exact hto heq
                  · exact hmiss rfl c hc hname
                obtain ⟨r, st', hret, h', hfinds⟩ := ih h₁
                exact ⟨r, st', .of_succ ((hcheck.bind hret).congr (search_other hto)), h', hfinds.later hpass⟩
            | some c =>
                have hentry : Entry st₀ L objs o t c := hhit c rfl
                refine ⟨_, st₁, .of_succ ((hcheck.bind (.const _)).congr (search_other hto)), h₁, .here ?_ ?_⟩
                · rintro u ⟨⟩
                  exact .inr ⟨c, hentry⟩
                · rw [h₁.typeCast_eq]
                  exact .inr ⟨t, rfl, hto, c, hentry, rfl, rfl⟩

/-- Whatever a search goes through, it only reorders cast lists. -/
theorem Reordered.search (h : Reordered st₀ L st) {ty : Option (TypeRef M)} {n : ℕ} {o : Option O}
    {r : Option (Found O P)} (hret : search conv objs ty n st o = some (r, st')) : Reordered st₀ L st' := by
  induction n generalizing st o with
  | zero => cases hret
  | succ n ih =>
      cases o with
      | none =>
          obtain rfl : st = st' := congrArg Prod.snd (Option.some.inj hret)
          exact h
      | some o =>
          cases ty with
          | none =>
              obtain rfl : st = st' := congrArg Prod.snd (Option.some.inj hret)
              exact h
          | some t =>
              by_cases hto : (objs o).ty = t
              · rw [PyHeap.search] at hret
                obtain hret := (if_pos hto).symm.trans hret
                obtain rfl : st = st' := congrArg Prod.snd (Option.some.inj hret)
                exact h
              · rw [search_other hto] at hret
                obtain ⟨⟨tc, st₁⟩, hcheck, hrest⟩ := Option.bind_eq_some_iff.mp hret
                obtain ⟨tc', st₁', hcheck', h₁, -⟩ := h.typeCheck (st.types (objs o).ty).name t
                obtain ⟨rfl, rfl⟩ := Prod.ext_iff.mp ((State.mono_typeCheckLoop _ _ _ _).eq_of_returns hcheck hcheck')
                cases tc with
                | none => exact ih h₁ hrest
                | some c =>
                    obtain rfl : st₁ = st' := congrArg Prod.snd (Option.some.inj hrest)
                    exact h₁

/-! ### One conversion -/

variable [DecidableEq O] {h h' : PyHeap M I O P}

/-- The conversion of the first of the objects `os` to `ty`: it succeeds if one of them has
the type or can be cast to it; then it returns the pointer of the first such object and its
ownership, and takes the ownership of no other one away. -/
structure Converts (conv : Converters P) (st₀ : State M I) (L : TypeRef M → List (CastRef M)) (os : List O)
    (h : PyHeap M I O P) (ty : Option (TypeRef M)) (flags : ℕ) (r : Option (P × ℕ)) (h' : PyHeap M I O P) : Prop where
  succeeds : r.isSome ↔ ∃ o ∈ os, Accepts st₀ L h.objs ty o
  converted : ∀ ptr own, r = some (ptr, own) → ∃ before o after new, os = before ++ o :: after ∧
    (∀ b ∈ before, ¬Accepts st₀ L h.objs ty b) ∧ CastTo conv st₀ L h.objs ty o ptr new ∧ own = new ||| (h.objs o).own ∧
      h'.objs = if flags &&& SWIG_POINTER_DISOWN ≠ 0 then (h.setOwn o 0).objs else h.objs
  failed : r = none → h'.objs = h.objs

theorem convertPtrAndOwn_returns {v : O} {os : List O} (hos : Chained h.objs (some v) os) (ht : Reordered st₀ L h.table)
    (ty : Option (TypeRef M)) (flags : ℕ) :
    ∃ r h', Returns (fun n => convertPtrAndOwn conv n h v ty flags) (r, h') ∧
      Converts conv st₀ L os h ty flags r h' := by
  obtain ⟨r, st', hret, -, hfinds⟩ : ∃ r st', Returns (fun n => search conv h.objs ty n h.table (some v)) (r, st') ∧
      Reordered st₀ L st' ∧ Finds conv st₀ L h.objs ty os r := search_returns hos ty ht
  cases r with
  | none =>
      refine ⟨none, { h with table := st' }, hret.map _, ?_, nofun, fun _ => rfl⟩
      refine iff_of_false nofun ?_
      rintro ⟨o, ho, hacc⟩
      exact hfinds.missed rfl o ho hacc
  | some f =>
      obtain ⟨hacc, hcast, before, after, rfl, hbefore⟩ := hfinds.hit f rfl
      refine ⟨_, _, hret.map _, ?_, ?_, nofun⟩
      · exact iff_of_true rfl ⟨f.sobj, by simp, hacc⟩
      · rintro ptr own ⟨⟩
        refine ⟨before, f.sobj, after, f.own, rfl, hbefore, hcast, rfl, ?_⟩
        split <;> rfl

/-! ### Runs -/

/-- The objects `as` have been appended to `v`, one after the other, in a run from `h₀` whose
calls of `append` satisfy `cond`. -/
inductive Session (conv : Converters P) (cond : PyHeap M I O P → Prop) (v : O) (h₀ : PyHeap M I O P) :
    PyHeap M I O P → List O → Prop
  | start : Session conv cond v h₀ h₀ []
  | append {h : PyHeap M I O P} {as : List O} (s : Session conv cond v h₀ h as) (hc : cond h) {n : O} (hv : n ≠ v)
      (hn : n ∉ as) (hnext : (h.objs n).next = none) : Session conv cond v h₀ (h.append v n) (as ++ [n])
  | disown {h : PyHeap M I O P} {as : List O} (s : Session conv cond v h₀ h as) (o : O) :
      Session conv cond v h₀ (h.disown o) as
  | acquire {h : PyHeap M I O P} {as : List O} (s : Session conv cond v h₀ h as) (o : O) :
      Session conv cond v h₀ (h.acquire o) as
  | convert {h h' : PyHeap M I O P} {as : List O} (s : Session conv cond v h₀ h as) {o : O}
      {ty : Option (TypeRef M)} {flags : ℕ} {r : Option (P × ℕ)}
      (hr : Returns (fun n => convertPtrAndOwn conv n h o ty flags) (r, h')) : Session conv cond v h₀ h' as

/-- Every conversion of `v` finds all objects appended so far. -/
def ConvertsAll (conv : Converters P) (st₀ : State M I) (L : TypeRef M → List (CastRef M)) (v : O)
    (h : PyHeap M I O P) (as : List O) : Prop :=
  ∀ ty flags, ∃ r h', Returns (fun n => convertPtrAndOwn conv n h v ty flags) (r, h') ∧
    Converts conv st₀ L (v :: as) h ty flags r h'

omit [DecidableEq M] [DecidableEq O] in
theorem Chained.congr {objs' : O → SwigPyObject M O P} {o : Option O} {os : List O} (h : Chained objs o os)
    (hnext : ∀ x, (objs' x).next = (objs x).next) : Chained objs' o os := by
  induction h with
  | nil => exact .nil
  | @cons o os _ ih => exact .cons (by rwa [hnext])

omit [DecidableEq M] in
@[simp] theorem next_setOwn (h : PyHeap M I O P) (o : O) (own : ℕ) (x : O) :
    ((h.setOwn o own).objs x).next = (h.objs x).next := by
  by_cases hx : x = o
  · subst hx
    simp [setOwn]
  · simp [setOwn, hx]

/-- A conversion changes neither the cast lists nor the list of objects. -/
theorem convertPtrAndOwn_keeps (ht : Reordered st₀ L h.table) {n : ℕ} {o : O} {ty : Option (TypeRef M)} {flags : ℕ}
    {r : Option (P × ℕ)} (hret : convertPtrAndOwn conv n h o ty flags = some (r, h')) :
    Reordered st₀ L h'.table ∧ ∀ x, (h'.objs x).next = (h.objs x).next := by
  obtain ⟨⟨f, st'⟩, hsearch, heq⟩ := Option.map_eq_some_iff.mp hret
  have hst : Reordered st₀ L st' := ht.search hsearch
  cases f with
  | none =>
      obtain ⟨-, rfl⟩ := Prod.ext_iff.mp heq
      exact ⟨hst, fun _ => rfl⟩
  | some f =>
      obtain ⟨-, rfl⟩ := Prod.ext_iff.mp heq
      dsimp only
      split
      · exact ⟨hst, fun x => next_setOwn { h with table := st' } _ _ x⟩
      · exact ⟨hst, fun _ => rfl⟩

/-- The objects appended are those behind `v`. -/
structure Whole (st₀ : State M I) (L : TypeRef M → List (CastRef M)) (v : O) (h : PyHeap M I O P) (as : List O) :
    Prop where
  table : Reordered st₀ L h.table
  chain : Chained h.objs (some v) (v :: as)

omit [DecidableEq M] in
theorem Whole.setOwn {v : O} {as : List O} (hw : Whole st₀ L v h as) (o : O) (own : ℕ) :
    Whole st₀ L v (h.setOwn o own) as :=
  ⟨hw.table, hw.chain.congr (next_setOwn h o own)⟩

omit [DecidableEq M] in
/-- An append to a null pointer. -/
theorem Whole.append {v n : O} {as : List O} (hw : Whole st₀ L v h as) (hnull : (h.objs v).next = none) (hv : n ≠ v)
    (hnext : (h.objs n).next = none) : Whole st₀ L v (h.append v n) (as ++ [n]) := by
  obtain ⟨ht, hchain⟩ := hw
  cases hchain with
  | cons hrest =>
      rw [hnull] at hrest
      cases hrest with
      | nil =>
          have hself : ((h.append v n).objs v).next = some n := by simp [PyHeap.append]
          have hother : ((h.append v n).objs n).next = none := by simpa [PyHeap.append, hv] using hnext
          refine ⟨ht, .cons ?_⟩
          rw [hself]
          refine .cons ?_
          rw [hother]
          exact .nil

/-- In a run whose calls of `append` each find the `next` pointer null, none of the objects
appended is lost. -/
theorem Session.whole {v : O} {h₀ : PyHeap M I O P} {as : List O} (hlists : State.CastLists h₀.table L)
    (hnext : (h₀.objs v).next = none) (hs : Session conv (fun h => (h.objs v).next = none) v h₀ h as) :
    Whole h₀.table L v h as := by
  induction hs with
  | start =>
      refine ⟨⟨.refl _, L, hlists, fun _ => List.Perm.refl _⟩, .cons ?_⟩
      rw [hnext]
      exact .nil
  | append _ hc hv _ hn ih => exact ih.append hc hv hn
  | disown _ o ih => exact ih.setOwn o 0
  | acquire _ o ih => exact ih.setOwn o SWIG_POINTER_OWN
  | convert _ hr ih =>
      obtain ⟨N, hN⟩ := hr
      obtain ⟨ht, hkeep⟩ := convertPtrAndOwn_keeps ih.table (hN N (Nat.le_refl N))
      exact ⟨ht, ih.chain.congr hkeep⟩

/-- In a run whose calls of `append` each find the `next` pointer null, every conversion
finds the first object that has the type or can be cast to it. -/
theorem Session.converts {v : O} {h₀ : PyHeap M I O P} {as : List O} (hlists : State.CastLists h₀.table L)
    (hnext : (h₀.objs v).next = none) (hs : Session conv (fun h => (h.objs v).next = none) v h₀ h as) :
    ConvertsAll conv h₀.table L v h as := by
  intro ty flags
  have hw := hs.whole hlists hnext
  exact convertPtrAndOwn_returns hw.chain hw.table ty flags

/-! ### Three bases -/

/-- The types `A`, `B` and `C`, and a base `D` of `B`. -/
def basesTable : State Unit Unit where
  types t := ⟨[UInt8.ofNat (65 + t.2)], none, if t.2 = 3 then some ((), 3, 0) else none, none⟩
  casts _ := ⟨((), 1), none, none, none⟩
  modules _ := ⟨[], none, []⟩
  head _ := none

def basesCasts (t : TypeRef Unit) : List (CastRef Unit) := if t.2 = 3 then [((), 3, 0)] else []

theorem castLists_basesTable : State.CastLists basesTable basesCasts where
  list t := by
    by_cases ht : t.2 = 3
    · simp only [basesTable, basesCasts, if_pos ht]
      exact ⟨⟨_, rfl, rfl, rfl, rfl⟩, List.nodup_singleton _⟩
    · simp only [basesTable, basesCasts, if_neg ht]
      exact ⟨⟨_, rfl, rfl⟩, List.nodup_nil⟩
  disjoint t u c hc hc' := by
    have hthree {x : TypeRef Unit} (hx : c ∈ basesCasts x) : x.2 = 3 := by
      by_contra hne
      rw [basesCasts, if_neg hne] at hx
      cases hx
    exact Prod.ext rfl ((hthree hc).trans (hthree hc').symm)
  free _ _ := ⟨rfl, rfl⟩

/-- An object for an `A`, one for a `B` and one for a `C`. -/
def threeBases : PyHeap Unit Unit (Fin 3) ℕ where
  table := basesTable
  objs i := ⟨100 + i, ((), i), SWIG_POINTER_OWN, none⟩

/-- The first object appended to the one for the `A`. -/
theorem session_oneAppended {cond : PyHeap Unit Unit (Fin 3) ℕ → Prop} (hc : cond threeBases) :
    Session (fun _ p => (p, 0)) cond 0 threeBases (threeBases.append 0 1) [1] := by
  have hstart : Session (fun _ p => (p, 0)) cond 0 threeBases threeBases [] := .start
  exact hstart.append hc (by decide) List.not_mem_nil rfl

theorem converts_oneAppended :
    ConvertsAll (fun _ p => (p, 0)) basesTable basesCasts 0 (threeBases.append 0 1) [1] :=
  Session.converts castLists_basesTable rfl (session_oneAppended rfl)

/-- With a second object appended the first one is lost. -/
theorem not_converts_twoAppended :
    ¬∀ h as, Session (fun _ p => (p, 0)) (fun _ => True) 0 threeBases h as →
      ConvertsAll (fun _ p => (p, 0)) basesTable basesCasts 0 h as := by
  intro hall
  have hone : Session (fun _ p => (p, 0)) (fun _ => True) 0 threeBases _ _ := session_oneAppended trivial
  have hs := hone.append (n := 2) trivial (by decide) (by decide) rfl
  obtain ⟨r, h', ⟨N, hN⟩, hconv⟩ := hall _ _ hs (some ((), 1)) 0
  have hret : convertPtrAndOwn (fun _ p => (p, 0)) (N + 4) ((threeBases.append 0 1).append 0 2) 0 (some ((), 1)) 0 =
      some (none, (threeBases.append 0 1).append 0 2) := rfl
  obtain ⟨rfl, -⟩ := Prod.ext_iff.mp (Option.some.inj ((hN (N + 4) (by omega)).symm.trans hret))
  refine absurd (hconv.succeeds.mpr ⟨1, by simp, ?_⟩) nofun
  rintro t ⟨⟩
  exact .inl rfl

end PyHeap

end Swig.Runtime
