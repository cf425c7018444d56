import Swig.Runtime.TypeInfo
import Swig.Lib.Marking
import Swig.Lib.Fuel
import Mathlib.Data.Finset.Card

/-!
Client data: `SWIG_TypeClientData` hands the data of a type on along the casts
without a converter, and `SWIG_PropagateClientData` does so for the types of a
module.
-/

namespace Swig.Runtime

open Fuel Marking

variable {M I : Type} [DecidableEq M]

namespace State

/-- `t->clientdata = v`. -/
def setClientdata (st : State M I) (t : TypeRef M) (v : Option ℕ) : State M I :=
  st.setType t { st.types t with clientdata := v }

/-- The loop of `SWIG_TypeClientData` from the cast `cast` on. -/
def typeClientDataLoop (clientdata : Option ℕ) :
    ℕ → Option (CastRef M) → State M I → Option (State M I)
  | 0, _, _ => none
  | _ + 1, none, st => some st
  | n + 1, some cast, st =>
      let tc := (st.casts cast).type
      (if (st.casts cast).converter.isNone && (st.types tc).clientdata.isNone then
        typeClientDataLoop clientdata n (st.types tc).cast (st.setClientdata tc clientdata)
      else some st).bind fun st => typeClientDataLoop clientdata n (st.casts cast).next st

/-- `SWIG_TypeClientData`. -/
def typeClientData (st : State M I) (fuel : ℕ) (ti : TypeRef M) (clientdata : Option ℕ) :
    Option (State M I) :=
  typeClientDataLoop clientdata fuel (st.types ti).cast (st.setClientdata ti clientdata)

/-- The inner loop of `SWIG_PropagateClientData`, for the type `t`. -/
def propagateLoop (t : TypeRef M) : ℕ → Option (CastRef M) → State M I → Option (State M I)
  | 0, _, _ => none
  | _ + 1, none, st => some st
  | n + 1, some equiv, st =>
      let tc := (st.casts equiv).type
      (if (st.casts equiv).converter.isNone && (st.types tc).clientdata.isNone then
        st.typeClientData n tc (st.types t).clientdata
      else some st).bind fun st => propagateLoop t n (st.casts equiv).next st

/-- Round `i` of `SWIG_PropagateClientData`. -/
def propagateType (fuel : ℕ) (m : M) (st : State M I) (i : ℕ) : Option (State M I) :=
  match (st.modules m).types[i]? with
  | none => none
  | some t =>
      if (st.types t).clientdata.isSome then propagateLoop t fuel (st.types t).cast st else some st

/-- `SWIG_PropagateClientData` of module `m`, with the static flag `init_run`. -/
def propagateClientData (st : State M I) (fuel : ℕ) (m : M) (initRun : Bool) :
    Option (State M I × Bool) :=
  if initRun then some (st, true)
  else ((List.range (st.modules m).size).foldlM (propagateType fuel m) st).map fun st => (st, true)

/-- The types that a type is cast to without a converter. -/
def equivTypes (st : State M I) (cs : List (CastRef M)) : List (TypeRef M) :=
  (cs.filter fun c => (st.casts c).converter.isNone).map fun c => (st.casts c).type

/-- The casts from `h` on are `cs`. -/
def CastChain (st : State M I) : Option (CastRef M) → List (CastRef M) → Prop
  | h, [] => h = none
  | h, c :: cs => h = some c ∧ CastChain st (st.casts c).next cs

/-- A finite graph: the types `S` have the cast lists `L`, which lead to types of `S`. -/
structure Graph (st : State M I) (S : Finset (TypeRef M)) (L : TypeRef M → List (CastRef M)) : Prop where
  chain : ∀ t ∈ S, st.CastChain (st.types t).cast (L t)
  closed : ∀ t ∈ S, ∀ c ∈ L t, (st.casts c).type ∈ S

/-- The same structures with other client data. -/
def withData (st : State M I) (f : TypeRef M → Option ℕ) : State M I :=
  { st with types := fun t => { st.types t with clientdata := f t } }

variable {st : State M I} {S : Finset (TypeRef M)} {L : TypeRef M → List (CastRef M)}

omit [DecidableEq M] in
theorem withData_self (st : State M I) : st.withData (fun t => (st.types t).clientdata) = st := rfl

theorem setClientdata_withData (st : State M I) (f : TypeRef M → Option ℕ) (t : TypeRef M) (v : Option ℕ) :
    (st.withData f).setClientdata t v = st.withData (Function.update f t v) := by
  unfold setClientdata setType withData
  congr 1
  ext u
  by_cases hu : u = t
  · subst hu
    simp
  · simp [hu]

/-- The types without client data. -/
def freeTypes (f : TypeRef M → Option ℕ) : Set (TypeRef M) := fun t => f t = none

omit [DecidableEq M] in
theorem mem_freeTypes {f : TypeRef M → Option ℕ} {t : TypeRef M} : t ∈ freeTypes f ↔ f t = none := Iff.rfl

theorem freeTypes_update (f : TypeRef M → Option ℕ) (t : TypeRef M) (d : ℕ) :
    freeTypes (Function.update f t (some d)) = freeTypes f \ {t} := by
  ext u
  rw [mem_freeTypes]
  by_cases hu : u = t
  · subst hu
    simp
  · simp [hu, mem_freeTypes]

/-- From `f` on `d` was given to `a` and to types that had no client data. -/
structure Given (d : ℕ) (a : TypeRef M) (f f' : TypeRef M → Option ℕ) : Prop where
  root : f' a = some d
  other : ∀ t, t ≠ a → f' t = f t ∨ f t = none ∧ f' t = some d

omit [DecidableEq M] in
theorem Given.trans {d : ℕ} {a b : TypeRef M} {f f' f'' : TypeRef M → Option ℕ} (h : Given d a f f')
    (hb : f' b = none) (h' : Given d b f' f'') : Given d a f f'' where
  root := by
    have hab : a ≠ b := by
      rintro rfl
      cases h.root.symm.trans hb
    rcases h'.other a hab with hsame | ⟨hnone, -⟩
    · rw [hsame, h.root]
    · cases h.root.symm.trans hnone
  other t ht := by
    by_cases htb : t = b
    · subst htb
      rcases h.other t ht with hsame | ⟨hnone, -⟩
      · exact .inr ⟨hsame.symm.trans hb, h'.root⟩
      · exact .inr ⟨hnone, h'.root⟩
    · rcases h.other t ht with hsame | ⟨hnone, hd⟩
      · rw [← hsame]
        exact h'.other t htb
      · rcases h'.other t htb with hsame | ⟨hnone', -⟩
        · exact .inr ⟨hnone, hsame.trans hd⟩
        · cases hd.symm.trans hnone'

theorem card_free_update {f : TypeRef M → Option ℕ} {t : TypeRef M} (ht : t ∈ S) (hfree : f t = none) (d : ℕ) :
    (S.filter fun u => Function.update f t (some d) u = none).card < (S.filter fun u => f u = none).card := by
  apply Finset.card_lt_card
  refine Finset.ssubset_iff_of_subset (fun u hu => ?_) |>.mpr ⟨t, ?_, ?_⟩
  · obtain ⟨hu, hnone⟩ := Finset.mem_filter.mp hu
    refine Finset.mem_filter.mpr ⟨hu, ?_⟩
    by_cases hut : u = t
    · rwa [hut]
    · rwa [Function.update_of_ne hut] at hnone
  · exact Finset.mem_filter.mpr ⟨ht, hfree⟩
  · simp

omit [DecidableEq M] in
theorem card_free_mono {f f' : TypeRef M → Option ℕ} (h : freeTypes f' ⊆ freeTypes f) :
    (S.filter fun u => f' u = none).card ≤ (S.filter fun u => f u = none).card := by
  apply Finset.card_le_card
  intro u hu
  obtain ⟨hu, hnone⟩ := Finset.mem_filter.mp hu
  exact Finset.mem_filter.mpr ⟨hu, h hnone⟩

/-- A round of the loop, on the data `f`. -/
theorem typeClientDataLoop_cons (f : TypeRef M → Option ℕ) (v : Option ℕ) (n : ℕ) (c : CastRef M) :
    typeClientDataLoop v (n + 1) (some c) (st.withData f) =
      (if (st.casts c).converter.isNone && (f (st.casts c).type).isNone then
        typeClientDataLoop v n (st.types (st.casts c).type).cast
          (st.withData (Function.update f (st.casts c).type v))
      else some (st.withData f)).bind fun st => typeClientDataLoop v n (st.casts c).next st := by
  rw [← setClientdata_withData]
  rfl

/-- The loop over the rest of the cast list of `a`. The number of types without
client data bounds the depth of the calls. -/
theorem typeClientDataLoop_returns (hG : st.Graph S L) (d k : ℕ) {a : TypeRef M} (ha : a ∈ S)
    {done cs : List (CastRef M)} (hL : L a = done ++ cs) {p : Option (CastRef M)} (hp : st.CastChain p cs)
    {f₀ f : TypeRef M → Option ℕ}
    (hvisit : Visiting (fun t => st.equivTypes (L t)) a (st.equivTypes done) (freeTypes f₀) (freeTypes f))
    (hgiven : Given d a f₀ f) (hk : (S.filter fun t => f t = none).card ≤ k) :
    ∃ f', Returns (fun n => typeClientDataLoop (some d) n p (st.withData f)) (st.withData f') ∧
      Visited (fun t => st.equivTypes (L t)) a (freeTypes f₀) (freeTypes f') ∧ Given d a f₀ f' := by
  induction k using Nat.strong_induction_on generalizing a done cs p f₀ f with
  | _ k ih =>
      induction cs generalizing done p f with
      | nil =>
          obtain rfl : p = none := hp
          rw [List.append_nil] at hL
          refine ⟨f, Returns.of_succ (.const _), ?_, hgiven⟩
          show Visiting _ a (st.equivTypes (L a)) _ _
          rwa [hL]
      | cons c cs ihcs =>
          obtain ⟨rfl, hp⟩ := hp
          have hc : c ∈ L a := by simp [hL]
          have hL' : L a = (done ++ [c]) ++ cs := by simp [hL]
          have htc : (st.casts c).type ∈ S := hG.closed a ha c hc
          cases hconv : (st.casts c).converter with
          | some conv =>
              have hequiv : st.equivTypes (done ++ [c]) = st.equivTypes done := by simp [equivTypes, hconv]
              obtain ⟨f', hf', hvisit', hgiven'⟩ := ihcs hL' hp (hequiv ▸ hvisit) hgiven hk
              refine ⟨f', Returns.of_succ (hf'.congr fun n => ?_), hvisit', hgiven'⟩
              rw [typeClientDataLoop_cons, hconv]
              rfl
          | none =>
              have hequiv : st.equivTypes (done ++ [c]) = st.equivTypes done ++ [(st.casts c).type] := by
                simp [equivTypes, hconv]
              cases hfree : f (st.casts c).type with
              | some v =>
                  have hskip := hvisit.skip (b := (st.casts c).type)
                    (fun hmem => Option.some_ne_none v (hfree.symm.trans hmem))
                  obtain ⟨f', hf', hvisit', hgiven'⟩ := ihcs hL' hp (hequiv ▸ hskip) hgiven hk
                  refine ⟨f', Returns.of_succ (hf'.congr fun n => ?_), hvisit', hgiven'⟩
                  rw [typeClientDataLoop_cons, hconv, hfree]
                  rfl
              | none =>
                  -- the call for the type of the cast
                  have hlt := (card_free_update htc hfree d).trans_le hk
                  have hstart : Given d (st.casts c).type f (Function.update f (st.casts c).type (some d)) :=
                    ⟨Function.update_self .., fun t ht => .inl (Function.update_of_ne ht ..)⟩
                  obtain ⟨f₁, hf₁, hvisit₁, hgiven₁⟩ := ih _ hlt htc (List.nil_append _).symm
                    (hG.chain _ htc) (freeTypes_update f _ d ▸ Visiting.start _ _ _) hstart (Nat.le_refl _)
                  have hsucc : (st.casts c).type ∈ st.equivTypes (L a) := by
                    rw [hL']
                    simp [equivTypes, hconv]
                  have hcard := (card_free_mono hvisit₁.subset (S := S)).trans hk
                  obtain ⟨f', hf', hvisit', hgiven'⟩ := ihcs hL' hp
                    (hequiv ▸ hvisit.visit hsucc hfree hvisit₁) (hgiven.trans hfree hgiven₁) hcard
                  have hrest := hf₁.bind (g := fun st n => typeClientDataLoop (some d) n (st.casts c).next st) hf'
                  refine ⟨f', Returns.of_succ (hrest.congr fun n => ?_), hvisit', hgiven'⟩
                  rw [typeClientDataLoop_cons, hconv, hfree]
                  rfl

/-- `t` is reached from `ti` by casts without a converter, through types that have
no client data. -/
def Equiv (st : State M I) (L : TypeRef M → List (CastRef M)) (ti t : TypeRef M) : Prop :=
  Reach (fun t => st.equivTypes (L t)) (freeTypes fun t => (st.types t).clientdata) ti t

/-- What a call for `ti` with data `d` returns. -/
theorem typeClientData_returns (hG : st.Graph S L) {ti : TypeRef M} (hti : ti ∈ S) (d : ℕ) :
    ∃ f', Returns (fun n => st.typeClientData n ti (some d)) (st.withData f') ∧
      Visited (fun t => st.equivTypes (L t)) ti (freeTypes fun t => (st.types t).clientdata) (freeTypes f') ∧
      Given d ti (fun t => (st.types t).clientdata) f' := by
  have hstart : Given d ti (fun t => (st.types t).clientdata)
      (Function.update (fun t => (st.types t).clientdata) ti (some d)) :=
    ⟨Function.update_self .., fun t ht => .inl (Function.update_of_ne ht ..)⟩
  have hvisit := Visiting.start (fun t => st.equivTypes (L t)) ti (freeTypes fun t => (st.types t).clientdata)
  rw [← freeTypes_update _ _ d] at hvisit
  obtain ⟨f', hf', hvisited, hgiven⟩ := typeClientDataLoop_returns hG d _ hti (List.nil_append _).symm
    (hG.chain ti hti) hvisit hstart (Nat.le_refl _)
  refine ⟨f', hf'.congr fun n => ?_, hvisited, hgiven⟩
  rw [typeClientData, ← setClientdata_withData, withData_self]

/-- The data is given to exactly the types reached, and to `ti` itself. -/
theorem typeClientData_sets (hG : st.Graph S L) {ti : TypeRef M} (hti : ti ∈ S) (d : ℕ) :
    ∃ st', Returns (fun n => st.typeClientData n ti (some d)) st' ∧
      (∀ t, Equiv st L ti t → st'.types t = { st.types t with clientdata := some d }) ∧
      (∀ t, ¬ Equiv st L ti t → st'.types t = st.types t) ∧
      st'.casts = st.casts ∧ st'.modules = st.modules ∧ st'.head = st.head := by
  obtain ⟨f', hf', hvisited, hgiven⟩ := typeClientData_returns hG hti d
  refine ⟨_, hf', fun t ht => ?_, fun t ht => ?_, rfl, rfl, rfl⟩
  · show ({ st.types t with clientdata := f' t } : SwigTypeInfo M) = _
    by_cases hne : t = ti
    · rw [hne, hgiven.root]
    · rcases hgiven.other t hne with hsame | ⟨-, hd⟩
      · -- a type reached has no client data left
        have hfree : f' t = none := hsame.trans (ht.mem hne)
        exact absurd ht ((hvisited.free_iff t).mp hfree).2
      · rw [hd]
  · show ({ st.types t with clientdata := f' t } : SwigTypeInfo M) = _
    have hne : t ≠ ti := by
      rintro rfl
      exact ht .refl
    rcases hgiven.other t hne with hsame | ⟨hnone, hd⟩
    · rw [hsame]
    · have hfree : f' t = none := (hvisited.free_iff t).mpr ⟨hnone, ht⟩
      cases hd.symm.trans hfree

omit [DecidableEq M] in
theorem Graph.withData (hG : st.Graph S L) (f : TypeRef M → Option ℕ) : (st.withData f).Graph S L := by
  refine ⟨fun t ht => ?_, hG.closed⟩
  have hchain (p : Option (CastRef M)) (cs : List (CastRef M)) (h : st.CastChain p cs) :
      (st.withData f).CastChain p cs := by
    induction cs generalizing p with
    | nil => exact h
    | cons c cs ih => exact ⟨h.1, ih _ h.2⟩
  exact hchain _ _ (hG.chain t ht)

/-- From `f` to `f'` no client data has changed, and a type that got some has
handed it on. -/
structure Extends (st : State M I) (L : TypeRef M → List (CastRef M)) (f f' : TypeRef M → Option ℕ) :
    Prop where
  keep : ∀ t, f t ≠ none → f' t = f t
  closed : ∀ t, f t = none → f' t ≠ none → ∀ u ∈ st.equivTypes (L t), f' u ≠ none

namespace Extends

variable {f f' f'' : TypeRef M → Option ℕ}

omit [DecidableEq M] in
theorem refl (st : State M I) (L : TypeRef M → List (CastRef M)) (f : TypeRef M → Option ℕ) :
    Extends st L f f := ⟨fun _ _ => rfl, fun _ hnone hne => absurd hnone hne⟩

omit [DecidableEq M] in
theorem ne_none (h : Extends st L f f') {t : TypeRef M} (ht : f t ≠ none) : f' t ≠ none := by
  rwa [h.keep t ht]

omit [DecidableEq M] in
theorem trans (h : Extends st L f f') (h' : Extends st L f' f'') : Extends st L f f'' := by
  refine ⟨fun t ht => (h'.keep t (h.ne_none ht)).trans (h.keep t ht), fun t hnone hne u hu => ?_⟩
  cases hmid : f' t with
  | none => exact h'.closed t hmid hne u hu
  | some v => exact h'.ne_none (h.closed t hnone (hmid ▸ Option.some_ne_none v) u hu)

omit [DecidableEq M] in
/-- A call for a type without client data. -/
theorem of_visited {d : ℕ} {a : TypeRef M} (hfree : f a = none)
    (hvisited : Visited (fun t => st.equivTypes (L t)) a (freeTypes f) (freeTypes f'))
    (hgiven : Given d a f f') : Extends st L f f' where
  keep t ht := by
    have hne : t ≠ a := by
      rintro rfl
      exact ht hfree
    rcases hgiven.other t hne with hsame | ⟨hnone, -⟩
    · exact hsame
    · exact absurd hnone ht
  closed t hnone hne u hu := by
    by_cases hta : t = a
    · rw [hta] at hu
      exact hvisited.done u hu
    · exact hvisited.closed t hnone hne hta u hu

end Extends

/-- One cast of a type with client data. -/
theorem propagateRound_returns (hG : st.Graph S L) {t : TypeRef M} {c : CastRef M}
    (hc : (st.casts c).type ∈ S) {f : TypeRef M → Option ℕ} (hft : f t ≠ none) :
    ∃ f', Returns (fun n =>
        if (st.casts c).converter.isNone && (f (st.casts c).type).isNone then
          (st.withData f).typeClientData n (st.casts c).type (f t)
        else some (st.withData f)) (st.withData f') ∧
      Extends st L f f' ∧ ((st.casts c).converter = none → f' (st.casts c).type ≠ none) := by
  cases hconv : (st.casts c).converter with
  | some conv => exact ⟨f, .const _, .refl .., nofun⟩
  | none =>
      cases hfree : f (st.casts c).type with
      | some v => exact ⟨f, .const _, .refl .., fun _ hnone => Option.some_ne_none v (hfree.symm.trans hnone)⟩
      | none =>
          obtain ⟨d, hd⟩ := Option.ne_none_iff_exists'.mp hft
          obtain ⟨f', hf', hvisited, hgiven⟩ := typeClientData_returns (hG.withData f) hc d
          refine ⟨f', hf'.congr fun n => ?_, .of_visited hfree hvisited hgiven, fun _ hnone => ?_⟩
          · rw [hd]
            rfl
          · cases hgiven.root.symm.trans hnone

/-- The casts of a type with client data. -/
theorem propagateLoop_returns (hG : st.Graph S L) {t : TypeRef M} {p : Option (CastRef M)}
    {cs : List (CastRef M)} (hp : st.CastChain p cs) (hcs : ∀ c ∈ cs, (st.casts c).type ∈ S)
    {f : TypeRef M → Option ℕ} (hft : f t ≠ none) :
    ∃ f', Returns (fun n => propagateLoop t n p (st.withData f)) (st.withData f') ∧
      Extends st L f f' ∧ ∀ u ∈ st.equivTypes cs, f' u ≠ none := by
  induction cs generalizing p f with
  | nil =>
      obtain rfl : p = none := hp
      exact ⟨f, Returns.of_succ (.const _), .refl .., nofun⟩
  | cons c cs ih =>
      obtain ⟨rfl, hp⟩ := hp
      obtain ⟨f₁, hf₁, hext₁, hset⟩ := propagateRound_returns hG (hcs c List.mem_cons_self) hft
      obtain ⟨f', hf', hext, hall⟩ := ih hp (fun d hd => hcs d (List.mem_cons_of_mem c hd)) (hext₁.ne_none hft)
      have hloop := hf₁.bind (g := fun st n => propagateLoop t n (st.casts c).next st) hf'
      refine ⟨f', Returns.of_succ (hloop.congr fun n => rfl), hext₁.trans hext, fun u hu => ?_⟩
      simp only [equivTypes, List.mem_map, List.mem_filter, List.mem_cons] at hu
      obtain ⟨d, ⟨rfl | hd, hconv⟩, rfl⟩ := hu
      · exact hext.ne_none (hset (Option.isNone_iff_eq_none.mp hconv))
      · exact hall _ (List.mem_map_of_mem (List.mem_filter.mpr ⟨hd, hconv⟩))

/-- What holds after the types before index `k` of the module. -/
structure Propagated (st : State M I) (L : TypeRef M → List (CastRef M)) (m : M) (k : ℕ)
    (f : TypeRef M → Option ℕ) : Prop where
  ext : Extends st L (fun t => (st.types t).clientdata) f
  done : ∀ i t, i < k → (st.modules m).types[i]? = some t → (st.types t).clientdata ≠ none →
    ∀ u ∈ st.equivTypes (L t), f u ≠ none

theorem propagateType_returns (hG : st.Graph S L) {m : M} {k : ℕ} {t : TypeRef M}
    (ht : (st.modules m).types[k]? = some t) (htS : t ∈ S) {f : TypeRef M → Option ℕ}
    (hf : Propagated st L m k f) :
    ∃ f', Returns (fun n => propagateType n m (st.withData f) k) (st.withData f') ∧
      Propagated st L m (k + 1) f' := by
  have hround (n : ℕ) : propagateType n m (st.withData f) k =
      if (f t).isSome then propagateLoop t n (st.types t).cast (st.withData f) else some (st.withData f) := by
    rw [propagateType, show ((st.withData f).modules m).types[k]? = some t from ht]
    rfl
  have hlast {f' : TypeRef M → Option ℕ} (hext : Extends st L f f')
      (hnew : (st.types t).clientdata ≠ none → ∀ u ∈ st.equivTypes (L t), f' u ≠ none) :
      Propagated st L m (k + 1) f' := by
    refine ⟨hf.ext.trans hext, fun i t' hi ht' hdata u hu => ?_⟩
    rcases Nat.lt_succ_iff_lt_or_eq.mp hi with hi | rfl
    · exact hext.ne_none (hf.done i t' hi ht' hdata u hu)
    · cases ht.symm.trans ht'
      exact hnew hdata u hu
  cases hft : f t with
  | none =>
      refine ⟨f, (Returns.const _).congr fun n => ?_, hlast (.refl ..) fun hdata => ?_⟩
      · rw [hround, hft]
        rfl
      · exact absurd hft (hf.ext.ne_none hdata)
  | some v =>
      have hne : f t ≠ none := fun hnone => Option.some_ne_none v (hft.symm.trans hnone)
      obtain ⟨f', hf', hext, hall⟩ := propagateLoop_returns hG (hG.chain t htS) (hG.closed t htS) hne
      refine ⟨f', hf'.congr fun n => ?_, hlast hext fun _ => hall⟩
      rw [hround, hft]
      rfl

/-- The loop over the types of the module. -/
theorem propagateTypes_returns (hG : st.Graph S L) {m : M} (hS : ∀ t ∈ (st.modules m).types, t ∈ S)
    (hfilled : (st.modules m).types.length = (st.modules m).size) :
    ∃ f, Returns (fun n => (List.range (st.modules m).size).foldlM (propagateType n m) st) (st.withData f) ∧
      Propagated st L m (st.modules m).size f := by
  have hstep (l i : ℕ) (s : State M I) (hl : (List.range (st.modules m).size)[l]? = some i)
      (hs : ∃ f, s = st.withData f ∧ Propagated st L m (0 + l) f) :
      ∃ s', Returns (fun n => propagateType n m s i) s' ∧
        ∃ f, s' = st.withData f ∧ Propagated st L m (0 + l + 1) f := by
    obtain ⟨f, rfl, hf⟩ := hs
    obtain ⟨hlt, rfl⟩ := List.getElem?_eq_some_iff.mp hl
    rw [List.length_range, ← hfilled] at hlt
    rw [Nat.zero_add] at hf ⊢
    rw [List.getElem_range]
    obtain ⟨f', hf', hprop⟩ := propagateType_returns hG (List.getElem?_eq_getElem hlt)
      (hS _ (List.getElem_mem hlt)) hf
    exact ⟨_, hf', f', rfl, hprop⟩
  obtain ⟨s', hs', f, rfl, hf⟩ := foldlM_returns (f := fun n => propagateType n m)
    (fun k s => ∃ f, s = st.withData f ∧ Propagated st L m k f) _ 0
    ⟨_, (withData_self st).symm, .refl .., nofun⟩ hstep
  rw [Nat.zero_add, List.length_range] at hf
  exact ⟨f, hs', hf⟩

/-- After the first call for a module every type with client data, of the module
or given the data by the call, has handed it on. -/
theorem propagateClientData_sets (hG : st.Graph S L) {m : M} (hS : ∀ t ∈ (st.modules m).types, t ∈ S)
    (hfilled : (st.modules m).types.length = (st.modules m).size) :
    ∃ st', Returns (fun n => st.propagateClientData n m false) (st', true) ∧
      (∀ t, (st.types t).clientdata ≠ none → (st'.types t).clientdata = (st.types t).clientdata) ∧
      ∀ t, t ∈ (st.modules m).types ∨ (st.types t).clientdata = none → (st'.types t).clientdata ≠ none →
        ∀ u ∈ st.equivTypes (L t), (st'.types u).clientdata ≠ none := by
  obtain ⟨f, hf, hprop⟩ := propagateTypes_returns hG hS hfilled
  refine ⟨st.withData f, hf.map fun st => (st, true), hprop.ext.keep, fun t ht hdata u hu => ?_⟩
  by_cases hnone : (st.types t).clientdata = none
  · exact hprop.ext.closed t hnone hdata u hu
  · obtain ⟨i, hi, rfl⟩ := List.getElem_of_mem (ht.resolve_right hnone)
    exact hprop.done i _ (hfilled ▸ hi) (List.getElem?_eq_getElem hi) hnone u hu

/-- `SWIG_TypeClientData` and the first `SWIG_PropagateClientData` of a module on a
finite graph of types. -/
theorem clientData_handed_on (hG : st.Graph S L) :
    (∀ ti ∈ S, ∀ d : ℕ, ∃ st', Returns (fun n => st.typeClientData n ti (some d)) st' ∧
      (∀ t, Equiv st L ti t → st'.types t = { st.types t with clientdata := some d }) ∧
      (∀ t, ¬ Equiv st L ti t → st'.types t = st.types t) ∧
      st'.casts = st.casts ∧ st'.modules = st.modules ∧ st'.head = st.head) ∧
    ∀ m, (∀ t ∈ (st.modules m).types, t ∈ S) → (st.modules m).types.length = (st.modules m).size →
      ∃ st', Returns (fun n => st.propagateClientData n m false) (st', true) ∧
        (∀ t, (st.types t).clientdata ≠ none → (st'.types t).clientdata = (st.types t).clientdata) ∧
        ∀ t, t ∈ (st.modules m).types ∨ (st.types t).clientdata = none → (st'.types t).clientdata ≠ none →
          ∀ u ∈ st.equivTypes (L t), (st'.types u).clientdata ≠ none :=
  ⟨fun _ hti d => typeClientData_sets hG hti d, fun _ hS hfilled => propagateClientData_sets hG hS hfilled⟩

end State

/-! ### Two types -/

/-- Type 0 has client data and is cast to type 1 without a converter. The module
lists the types `ts`. -/
def twoTypes (ts : List (TypeRef Unit)) : State Unit Unit where
  types t := { name := [], str := none, cast := if t.2 = 0 then some ((), 0, 0) else none,
               clientdata := if t.2 = 0 then some 7 else none }
  casts _ := { type := ((), 1), converter := none, next := none, prev := none }
  modules _ := { types := ts, next := none, castInitial := ts.map fun _ => 0 }
  head _ := none

def twoTypesCasts (t : TypeRef Unit) : List (CastRef Unit) := if t.2 = 0 then [((), 0, 0)] else []

theorem twoTypes_graph (ts : List (TypeRef Unit)) :
    (twoTypes ts).Graph {((), 0), ((), 1)} twoTypesCasts := by
  constructor
  · intro t ht
    rcases Finset.mem_insert.mp ht with rfl | ht
    · exact ⟨rfl, rfl⟩
    · rw [Finset.mem_singleton.mp ht]
      exact rfl
  · intro t ht c hc
    exact Finset.mem_insert_of_mem (Finset.mem_singleton_self _)

theorem twoTypes_handed_on :
    (∀ ti ∈ ({((), 0), ((), 1)} : Finset (TypeRef Unit)), ∀ d : ℕ, ∃ st',
      Returns (fun n => (twoTypes [((), 0)]).typeClientData n ti (some d)) st' ∧
      (∀ t, (twoTypes [((), 0)]).Equiv twoTypesCasts ti t →
        st'.types t = { (twoTypes [((), 0)]).types t with clientdata := some d }) ∧
      (∀ t, ¬ (twoTypes [((), 0)]).Equiv twoTypesCasts ti t → st'.types t = (twoTypes [((), 0)]).types t) ∧
      st'.casts = (twoTypes [((), 0)]).casts ∧ st'.modules = (twoTypes [((), 0)]).modules ∧
      st'.head = (twoTypes [((), 0)]).head) ∧
    ∃ st', Returns (fun n => (twoTypes [((), 0)]).propagateClientData n () false) (st', true) ∧
      (st'.types ((), 1)).clientdata ≠ none := by
  obtain ⟨hset, hpropagate⟩ := State.clientData_handed_on (twoTypes_graph [((), 0)])
  refine ⟨hset, ?_⟩
  obtain ⟨st', hst', hkeep, hclosed⟩ := hpropagate () (fun t ht => List.mem_singleton.mp ht ▸ by simp) rfl
  refine ⟨st', hst', hclosed ((), 0) (.inl (List.mem_singleton_self _)) ?_ _ (List.mem_singleton_self _)⟩
  rw [hkeep ((), 0) (Option.some_ne_none 7)]
  exact Option.some_ne_none 7

/-- A type outside the module does not hand its data on, and a second call does nothing. -/
theorem not_handed_on :
    (¬ ∀ (ts : List (TypeRef Unit)) (n : ℕ) (st' : State Unit Unit),
      (twoTypes ts).propagateClientData n () false = some (st', true) →
      ∀ u ∈ (twoTypes ts).equivTypes (twoTypesCasts ((), 0)), (st'.types u).clientdata ≠ none) ∧
    ¬ ∀ (n : ℕ) (st' : State Unit Unit),
      (twoTypes [((), 0)]).propagateClientData n () true = some (st', true) →
      ∀ u ∈ (twoTypes [((), 0)]).equivTypes (twoTypesCasts ((), 0)), (st'.types u).clientdata ≠ none := by
  refine ⟨fun h => ?_, fun h => ?_⟩
  · exact h [] 0 _ rfl ((), 1) (List.mem_singleton_self _) rfl
  · exact h 0 _ rfl ((), 1) (List.mem_singleton_self _) rfl

end Swig.Runtime
