import Swig.Fragments.Emission

/-!
Every request comes to an end, since a fragment that is being written is not begun
again. Orderly requests write all that they lead to.
-/

namespace Swig.Fragments

open Fuel Relation

variable {env : FragmentFns} {R : Name → Option Code} {N : Finset Name} {st st' : State}

/-- The number of registered fragments that can still be begun. -/
def State.room (N : Finset Name) (st : State) : ℕ := {x ∈ N | st.looking x = false ∧ x ∉ st.written}.card

theorem Extends.room_le (h : Extends st st') : st'.room N ≤ st.room N := by
  refine Finset.card_le_card fun x hx => ?_
  rw [Finset.mem_filter, h.looking] at hx
  exact Finset.mem_filter.mpr ⟨hx.1, hx.2.1, fun hw => hx.2.2 (h.mem_written hw)⟩

theorem room_setLooking {name : Name} (hN : name ∈ N) (hnot : st.looking name = false) (hnew : name ∉ st.written) :
    (st.setLooking name true).room N < st.room N := by
  refine Finset.card_lt_card ((Finset.ssubset_iff_of_subset fun x hx => ?_).mpr ⟨name, ?_, fun hx => ?_⟩)
  · rw [Finset.mem_filter] at hx ⊢
    by_cases hxn : x = name
    · exact ⟨hx.1, hxn ▸ hnot, hx.2.2⟩
    · have hlooking : st.looking x = false := by
        simpa only [State.setLooking, Function.update_of_ne hxn] using hx.2.1
      exact ⟨hx.1, hlooking, hx.2.2⟩
  · exact Finset.mem_filter.mpr ⟨hN, hnot, hnew⟩
  · have hlooking := (Finset.mem_filter.mp hx).2.1
    simp [State.setLooking] at hlooking

/-- The request returns, with what it is to do. -/
def Serves (env : FragmentFns) (R : Name → Option Code) (emit : ℕ → Request → State → Option State) (r : Request)
    (st : State) : Prop :=
  ∃ st', Returns (fun n => emit n r st) st' ∧ Emission env R (Asked env R r) st st'

/-- Requests return on states with less room than `m`. -/
def ServesBelow (env : FragmentFns) (R : Name → Option Code) (N : Finset Name)
    (emit : ℕ → Request → State → Option State) (m : ℕ) : Prop :=
  ∀ r st, Sane R st → st.room N < m → Serves env R emit r st

variable {emit : ℕ → Request → State → Option State} {m : ℕ} {name : Name} {code : Code} {section_ : Name}

theorem emission_refl (h : Sane R st) : Emission env R (fun _ => False) st st :=
  .of_same h rfl rfl rfl List.prefix_rfl

theorem askedByKwargs_cons {k : Kwarg} {ks : List Kwarg} {g : Name} :
    AskedByKwargs env R (k :: ks) g ↔ (k.name = lit "fragment" ∧ Asked env R k.request g) ∨ AskedByKwargs env R ks g :=
  List.exists_mem_cons_iff ..

theorem emitKwargs_returns (hemit : ServesBelow env R N emit m) {ks : List Kwarg} (hst : Sane R st)
    (hroom : st.room N < m) :
    ∃ st', Returns (fun n => emitKwargs (emit n) ks st) st' ∧ Emission env R (AskedByKwargs env R ks) st st' := by
  induction ks generalizing st with
  | nil => exact ⟨st, .const _, (emission_refl hst).congr fun _ g => by simp [AskedByKwargs]⟩
  | cons k ks ih =>
      by_cases hk : k.name = lit "fragment"
      · obtain ⟨st₁, hr₁, h₁⟩ := hemit k.request st hst hroom
        obtain ⟨st₂, hr₂, h₂⟩ := ih h₁.sane (h₁.ext.room_le.trans_lt hroom)
        refine ⟨st₂, .congr (Returns.bind (g := fun st n => emitKwargs (emit n) ks st) hr₁ hr₂) fun n => ?_, (h₁.trans h₂).congr fun _ g => ?_⟩
        · rw [emitKwargs, if_pos hk]
        · rw [askedByKwargs_cons, and_iff_right hk]
      · obtain ⟨st₁, hr₁, h₁⟩ := ih hst hroom
        refine ⟨st₁, .congr hr₁ fun n => ?_, h₁.congr fun _ g => ?_⟩
        · rw [emitKwargs, if_neg hk, Option.bind_some]
        · rw [askedByKwargs_cons, or_iff_right fun h => hk h.1]

/-- The registered fragments have a section that is known. -/
def Known (env : FragmentFns) (R : Name → Option Code) : Prop :=
  ∀ name code, R name = some code → ∃ section_, code.section_ = some section_ ∧ env.filebyname section_ = true

theorem emitFragment_returns (hemit : ServesBelow env R N emit m) (hknown : Known env R)
    (hN : ∀ x, (R x).isSome → x ∈ N) (hst : Sane R st) (hroom : st.room N ≤ m) (hnot : st.looking name = false)
    (hget : st.get name = some code) (htext : code.text ≠ lit "ignore") :
    ∃ st', Returns (fun n => emitFragment env (emit n) name code st) st' ∧
      Emission env R (fun g => g = name) st st' := by
  obtain ⟨hname, hnew⟩ := hst.live hget htext
  have hless := room_setLooking (hN name (Option.isSome_of_eq_some hname)) hnot hnew
  obtain ⟨st₁, hr₁, h₁⟩ := emitKwargs_returns hemit (hst.setLooking hname hnew) (hless.trans_le hroom)
  obtain ⟨section_, hsection, hfile⟩ := hknown name code hname
  refine ⟨st₁.write name section_ code.text, .congr (hr₁.map fun st => st.write name section_ code.text) fun n => ?_,
    .fragment hname hnew hnot hsection h₁⟩
  rw [emitFragment, hsection]
  dsimp only
  rw [hfile]
  rfl

/-! ### The elements of a list -/

theorem served_eq {type : Option Name} {tok : Name} (h : (R (tok ++ env.suffix type)).isSome) :
    served env R type tok = tok ++ env.suffix type := by
  cases type with
  | none => exact (List.append_nil tok).symm
  | some t => exact if_pos h

theorem served_of_resolved {type : Option Name} {tok : Name} (h : ∀ t ∈ type, env.typedef_resolve_all t = t) :
    served env R type tok = tok ++ env.suffix type := by
  cases type with
  | none => exact (List.append_nil tok).symm
  | some t =>
      rw [served, h t rfl]
      exact ite_self _

/-- The element itself names what an orderly look-up serves. -/
theorem Orderly.served_iff {l : Lookup} (h : Orderly env R l) {tok g : Name} (hl : l.name = tok ++ env.suffix l.type) :
    (R g).isSome ∧ g = served env R l.type tok ↔ (R g).isSome ∧ g = l.name := by
  by_cases hname : (R l.name).isSome
  · rw [served_eq (hl ▸ hname), hl]
  · rw [served_of_resolved (h.resolved (Option.not_isSome_iff_eq_none.mp hname)), hl]

theorem askedBy_cons {type : Option Name} {tok : Name} {toks : List Name} {g : Name} :
    AskedBy env R type (tok :: toks) g ↔
      ((R g).isSome ∧ g = served env R type tok) ∨ AskedBy env R type toks g := by
  rw [AskedBy, List.exists_mem_cons_iff, and_or_left, AskedBy]

section Toks

variable {one : Request → State → Option State} {r : Request} {tok : Name} {toks : List Name} {l : Lookup}

theorem emitToks_looking (hl : l = ⟨st.looking, tok ++ env.suffix r.type, r.type, toks⟩)
    (h : st.looking l.name = true) : emitToks env one r (tok :: toks) st = some (st.look l) := by
  subst hl
  exact if_pos h

theorem emitToks_live (hl : l = ⟨st.looking, tok ++ env.suffix r.type, r.type, toks⟩)
    (h : st.looking l.name = false) (hget : st.get l.name = some code) (htext : code.text ≠ lit "ignore") :
    emitToks env one r (tok :: toks) st =
      (emitFragment env one l.name code (st.look l)).bind (emitToks env one r toks) := by
  subst hl
  rw [emitToks]
  dsimp only
  rw [if_neg (by simpa [State.look] using h), show (st.look _).get _ = _ from hget]
  exact if_pos htext

theorem emitToks_ignored (hl : l = ⟨st.looking, tok ++ env.suffix r.type, r.type, toks⟩)
    (h : st.looking l.name = false) (hget : st.get l.name = some code) (htext : code.text = lit "ignore") :
    emitToks env one r (tok :: toks) st = emitToks env one r toks (st.look l) := by
  subst hl
  rw [emitToks, if_neg (by simpa [State.look] using h), show (st.look _).get _ = _ from hget]
  exact if_neg (not_not.mpr htext)

theorem emitToks_missing (hl : l = ⟨st.looking, tok ++ env.suffix r.type, r.type, toks⟩)
    (h : st.looking l.name = false) (hget : st.get l.name = none) :
    emitToks env one r (tok :: toks) st =
      (emitResolved env one r (st.look l)).bind fun st => emitToks env one r toks (st.warn l.name) := by
  subst hl
  rw [emitToks]
  dsimp only
  rw [if_neg (by simpa [State.look] using h), show (st.look _).get _ = _ from hget]

end Toks

theorem Emission.look (hst : Sane R st) (l : Lookup) : Emission env R (fun _ => False) st (st.look l) :=
  .of_same hst rfl rfl rfl (List.prefix_append _ _)

theorem Emission.warn (hst : Sane R st) (name : Option Name) : Emission env R (fun _ => False) st (st.warn name) :=
  .of_same hst rfl rfl rfl List.prefix_rfl

theorem emitResolved_returns {r : Request}
    (hresolved : ∀ t ∈ r.type, ∀ st, Sane R st → st.room N ≤ m → Serves env R emit ⟨r.value ++ env.mangle t, none⟩ st)
    (hst : Sane R st) (hroom : st.room N ≤ m) {l : Lookup} (hl : l ∈ st.lookups) (hname : R l.name = none)
    (htype : l.type = r.type) :
    ∃ st', Returns (fun n => emitResolved env (emit n) r st) st' ∧ Emission env R (fun _ => False) st st' := by
  cases ht : r.type with
  | none => exact ⟨st, .congr (.const _) fun n => by rw [emitResolved, ht], emission_refl hst⟩
  | some t =>
      by_cases hres : t ≠ env.typedef_resolve_all t
      · obtain ⟨st', hr, h⟩ := hresolved t ht st hst hroom
        refine ⟨st', .congr hr fun n => ?_, h.of_disorderly fun hord => hres ?_⟩
        · rw [emitResolved, ht]
          exact if_pos hres
        · exact ((hord l (h.ext.lookups.subset hl)).resolved hname t (htype.trans ht)).symm
      · refine ⟨st, .congr (.const _) fun n => ?_, emission_refl hst⟩
        rw [emitResolved, ht]
        exact if_neg hres

theorem emitToks_returns (hemit : ServesBelow env R N emit m) (hknown : Known env R)
    (hN : ∀ x, (R x).isSome → x ∈ N) {r : Request}
    (hresolved : ∀ t ∈ r.type, ∀ st, Sane R st → st.room N ≤ m → Serves env R emit ⟨r.value ++ env.mangle t, none⟩ st)
    {toks : List Name} (hst : Sane R st) (hroom : st.room N ≤ m) :
    ∃ st', Returns (fun n => emitToks env (emit n) r toks st) st' ∧
      Emission env R (AskedBy env R r.type toks) st st' := by
  induction toks generalizing st with
  | nil => exact ⟨st, .const _, (emission_refl hst).congr fun _ g => by simp [AskedBy]⟩
  | cons tok toks ih =>
      obtain ⟨l, hl⟩ : ∃ l : Lookup, l = ⟨st.looking, tok ++ env.suffix r.type, r.type, toks⟩ := ⟨_, rfl⟩
      have h₀ : Emission env R (fun _ => False) st (st.look l) := .look hst l
      have hroom₀ : (st.look l).room N ≤ m := h₀.ext.room_le.trans hroom
      have hmem : l ∈ (st.look l).lookups := List.mem_append_right _ (List.mem_singleton_self _)
      have hserved (hord : Orderly env R l) (g : Name) : AskedBy env R r.type (tok :: toks) g ↔
          ((R g).isSome ∧ g = l.name) ∨ AskedBy env R r.type toks g := by
        have htype : r.type = l.type := by rw [hl]
        rw [askedBy_cons, htype, hord.served_iff (by rw [hl])]
      cases hlooking : st.looking l.name with
      | true =>
          -- the elements that follow are dropped
          refine ⟨st.look l, .congr (.const _) fun n => emitToks_looking hl hlooking,
            .congr (h₀.covered fun hord g (hg : AskedBy env R r.type (tok :: toks) g) => ?_) fun _ g => by simp⟩
          have hlast : toks = [] := by simpa [hl] using (hord l hmem).last (by simpa [hl] using hlooking)
          rcases (hserved (hord l hmem) g).mp hg with ⟨-, rfl⟩ | ⟨-, tok', htok, -⟩
          · exact .inr hlooking
          · rw [hlast] at htok
            cases htok
      | false =>
          cases hget : st.get l.name with
          | some code =>
              by_cases htext : code.text = lit "ignore"
              · obtain ⟨st₁, hr₁, h₁⟩ := ih h₀.sane hroom₀
                refine ⟨st₁, .congr hr₁ fun n => emitToks_ignored hl hlooking hget htext, ?_⟩
                have hcovered (hord : ∀ k ∈ st₁.lookups, Orderly env R k) (g : Name) :
                    (R g).isSome ∧ g = l.name → g ∈ st₁.written ∨ st₁.looking g = true := by
                  rintro ⟨-, rfl⟩
                  rw [hst.get] at hget
                  split at hget
                  · exact .inl ((h₀.ext.trans h₁.ext).mem_written ‹_›)
                  · exact absurd htext ((hord l (h₁.ext.lookups.subset hmem)).text code hget)
                refine ((h₀.trans h₁).covered hcovered).congr fun hord g => ?_
                rw [hserved (hord l (h₁.ext.lookups.subset hmem)), false_or, or_comm]
              · obtain ⟨st₁, hr₁, h₁⟩ := emitFragment_returns hemit hknown hN h₀.sane hroom₀ hlooking hget htext
                obtain ⟨st₂, hr₂, h₂⟩ := ih h₁.sane (h₁.ext.room_le.trans hroom₀)
                refine ⟨st₂, .congr (Returns.bind (g := fun st n => emitToks env (emit n) r toks st) hr₁ hr₂) fun n =>
                  emitToks_live hl hlooking hget htext, ?_⟩
                refine ((h₀.trans h₁).trans h₂).congr fun hord g => ?_
                rw [hserved (hord l (h₂.ext.lookups.subset (h₁.ext.lookups.subset hmem))), false_or]
                have hname : (R l.name).isSome := Option.isSome_of_eq_some (hst.live hget htext).1
                exact or_congr_left ⟨fun h => h.2, fun h => ⟨h ▸ hname, h⟩⟩
          | none =>
              have hname : R l.name = none := by
                rw [hst.get] at hget
                split at hget
                · cases hget
                · exact hget
              obtain ⟨st₁, hr₁, h₁⟩ := emitResolved_returns hresolved h₀.sane hroom₀ hmem hname (by rw [hl])
              have hw : Emission env R (fun _ => False) st₁ (st₁.warn l.name) := .warn h₁.sane l.name
              obtain ⟨st₂, hr₂, h₂⟩ := ih hw.sane ((h₁.ext.trans hw.ext).room_le.trans hroom₀)
              refine ⟨st₂, .congr (Returns.bind (g := fun st n => emitToks env (emit n) r toks (st.warn l.name)) hr₁ hr₂)
                fun n => emitToks_missing hl hlooking hget, ?_⟩
              refine (((h₀.trans h₁).trans hw).trans h₂).congr fun hord g => ?_
              have hmem₂ : l ∈ st₂.lookups := h₂.ext.lookups.subset (hw.ext.lookups.subset (h₁.ext.lookups.subset hmem))
              rw [hserved (hord l hmem₂), or_false, or_false, false_or, or_iff_right]
              rintro ⟨hg, rfl⟩
              rw [hname] at hg
              cases hg

/-! ### Requests -/

theorem fragmentEmit_step (hemit : ServesBelow env R N (fragmentEmit env) m) (hknown : Known env R)
    (hN : ∀ x, (R x).isSome → x ∈ N) {r : Request}
    (hresolved : ∀ t ∈ r.type, ∀ st, Sane R st → st.room N ≤ m →
      Serves env R (fragmentEmit env) ⟨r.value ++ env.mangle t, none⟩ st)
    (hst : Sane R st) (hroom : st.room N ≤ m) : Serves env R (fragmentEmit env) r st := by
  cases hf : st.fragments with
  | none =>
      have hnone (g : Name) : R g = none := by
        have hget := hst.get g
        rw [State.get, hf, Option.bind_none] at hget
        split at hget
        · cases hget
        · exact hget.symm
      refine ⟨st.warn none, .of_succ (.congr (.const _) fun n => by rw [fragmentEmit, hf]), ?_⟩
      refine (Emission.warn hst none).congr fun _ g => ?_
      rw [Asked, AskedBy, hnone]
      simp
  | some fragments =>
      obtain ⟨st', hr, h⟩ : ∃ st', Returns (fun n => emitToks env (fragmentEmit env n) r (tokens r.value) st) st' ∧
          Emission env R (AskedBy env R r.type (tokens r.value)) st st' :=
        emitToks_returns hemit hknown hN hresolved hst hroom
      exact ⟨st', .of_succ (.congr hr fun n => by rw [fragmentEmit, hf]), h⟩

/-- Every request returns. -/
theorem fragmentEmit_returns (hknown : Known env R) (hN : ∀ x, (R x).isSome → x ∈ N) (m : ℕ) :
    ∀ r st, Sane R st → st.room N ≤ m → Serves env R (fragmentEmit env) r st := by
  induction m using Nat.strong_induction_on with
  | _ m ih =>
      have hemit : ServesBelow env R N (fragmentEmit env) m := fun r st hst hroom => ih _ hroom r st hst le_rfl
      have huntyped (value : Name) (st : State) (hst : Sane R st) (hroom : st.room N ≤ m) :
          Serves env R (fragmentEmit env) ⟨value, none⟩ st :=
        fragmentEmit_step hemit hknown hN nofun hst hroom
      intro r st hst hroom
      exact fragmentEmit_step hemit hknown hN (fun t _ st => huntyped _ st) hst hroom

theorem emitAll_returns (hknown : Known env R) (hN : ∀ x, (R x).isSome → x ∈ N) (requests : List Request)
    (hst : Sane R st) :
    ∃ st', Returns (fun n => emitAll env n requests st) st' ∧
      Emission env R (fun g => ∃ r ∈ requests, Asked env R r g) st st' := by
  induction requests generalizing st with
  | nil => exact ⟨st, .const _, (emission_refl hst).congr fun _ g => by simp⟩
  | cons r requests ih =>
      obtain ⟨st₁, hr₁, h₁⟩ := fragmentEmit_returns hknown hN _ r st hst le_rfl
      obtain ⟨st₂, hr₂, h₂⟩ := ih h₁.sane
      refine ⟨st₂, .congr (Returns.bind (g := fun st n => emitAll env n requests st) hr₁ hr₂) fun n => rfl,
        (h₁.trans h₂).congr fun _ g => ?_⟩
      exact List.exists_mem_cons_iff ..

/-! ### Registration -/

/-- The fragments that are registered by the nodes. -/
def registered (env : FragmentFns) (nodes : List FragmentNode) : Name → Option Code := (registerAll env nodes).get

/-- The name a node is registered under. -/
def FragmentFns.key (env : FragmentFns) (node : FragmentNode) : Name :=
  node.request.value ++ env.suffix node.request.type

theorem fragmentRegister_get {node : FragmentNode} {name : Name} {code : Code}
    (hget : (fragmentRegister env st node).get name = some code) :
    st.get name = some code ∨ (name = env.key node ∧ code = node.code) := by
  have hsame : State.get { st with fragments := some (st.fragments.getD fun _ => none) } name = st.get name := by
    cases hf : st.fragments <;> simp [State.get, hf]
  rw [fragmentRegister] at hget
  split at hget
  · exact .inl (hsame ▸ hget)
  · by_cases hname : name = env.key node
    · refine .inr ⟨hname, ?_⟩
      subst hname
      simpa [State.set, State.get, FragmentFns.key, eq_comm] using hget
    · have hne : name ≠ node.request.value ++ env.suffix node.request.type := hname
      refine .inl (hsame ▸ ?_)
      simpa [State.set, State.get, Function.update_of_ne hne] using hget

/-- Nothing is written and nothing looked up. -/
structure Fresh (st : State) : Prop where
  looking : st.looking = fun _ => false
  out : st.out = []
  lookups : st.lookups = []

theorem Fresh.register (h : Fresh st) (node : FragmentNode) : Fresh (fragmentRegister env st node) := by
  rw [fragmentRegister]
  split <;> exact ⟨h.looking, h.out, h.lookups⟩

theorem registerAll_spec (nodes : List FragmentNode) : Fresh (registerAll env nodes) ∧
    ∀ name code, registered env nodes name = some code → ∃ node ∈ nodes, name = env.key node ∧ code = node.code := by
  induction nodes using List.reverseRecOn with
  | nil => exact ⟨⟨rfl, rfl, rfl⟩, nofun⟩
  | append_singleton nodes node ih =>
      have hfold : registerAll env (nodes ++ [node]) = fragmentRegister env (registerAll env nodes) node :=
        List.foldl_concat ..
      refine ⟨hfold ▸ ih.1.register node, fun name code hname => ?_⟩
      rw [registered, hfold] at hname
      rcases fragmentRegister_get hname with hname | ⟨rfl, rfl⟩
      · obtain ⟨node', hmem, h⟩ := ih.2 name code hname
        exact ⟨node', List.mem_append_left _ hmem, h⟩
      · exact ⟨node, List.mem_append_right _ (List.mem_singleton_self _), rfl, rfl⟩

theorem Fresh.sane (h : Fresh st) : Sane st.get st := by
  have hwritten : st.written = [] := by rw [State.written, h.out, List.map_nil]
  refine ⟨fun name => ?_, ?_, ?_, ?_⟩
  · rw [hwritten, if_neg List.not_mem_nil]
  · rw [h.out]
    exact fun entry hentry => absurd hentry List.not_mem_nil
  · rw [hwritten]
    exact List.nodup_nil
  · rw [h.looking]
    exact fun name hname => Bool.noConfusion hname

/-- A fragment that the requests lead to. -/
def Needed (env : FragmentFns) (R : Name → Option Code) (requests : List Request) (f : Name) : Prop :=
  ∃ r ∈ requests, ∃ g, Asked env R r g ∧ ReflTransGen (Depends env R) g f

/-- What the requests are to write. -/
structure Emitted (env : FragmentFns) (R : Name → Option Code) (requests : List Request) (st : State) : Prop where
  names : ∀ f, f ∈ st.written ↔ Needed env R requests f
  once : st.written.Nodup
  code : ∀ w ∈ st.out, ∃ code, R w.name = some code ∧ code.text = w.text ∧ code.section_ = some w.section_
  inOrder : InOrder env R st

/-- All requests return. If every name they look up is met in an orderly way, they
write exactly the registered fragments they lead to, each once, and each after those
it depends on. -/
theorem emitAll_emits (env : FragmentFns) (nodes : List FragmentNode)
    (hknown : ∀ node ∈ nodes, ∃ section_, node.code.section_ = some section_ ∧ env.filebyname section_ = true)
    (requests : List Request) :
    ∃ st, Returns (fun n => emitAll env n requests (registerAll env nodes)) st ∧
      ((∀ l ∈ st.lookups, Orderly env (registered env nodes) l) →
        Emitted env (registered env nodes) requests st) := by
  obtain ⟨hfresh, hregistered⟩ := @registerAll_spec env nodes
  have hknown' : Known env (registered env nodes) := by
    intro name code hname
    obtain ⟨node, hnode, -, rfl⟩ := hregistered name code hname
    exact hknown node hnode
  have hN (x : Name) (hx : (registered env nodes x).isSome) : x ∈ (nodes.map env.key).toFinset := by
    obtain ⟨code, hcode⟩ := Option.isSome_iff_exists.mp hx
    obtain ⟨node, hnode, rfl, -⟩ := hregistered x code hcode
    exact List.mem_toFinset.mpr (List.mem_map_of_mem hnode)
  obtain ⟨st, hr, h⟩ := emitAll_returns hknown' hN requests hfresh.sane
  refine ⟨st, hr, fun hord => ?_⟩
  have hwritten : (registerAll env nodes).written = [] := by rw [State.written, hfresh.out, List.map_nil]
  have houtcome := h.outcome hord fun x hx => by
    rw [hfresh.looking] at hx
    cases hx
  have hlooking : st.looking = fun _ => false := h.ext.looking.trans hfresh.looking
  have hclosed := houtcome.closed fun f hf => by
    rw [hwritten] at hf
    cases hf
  have hreach {f g : Name} (hf : f ∈ st.written) (hfg : ReflTransGen (Depends env (registered env nodes)) f g) :
      g ∈ st.written := by
    induction hfg with
    | refl => exact hf
    | tail _ hstep ih => simpa [hlooking] using hclosed _ ih _ hstep
  refine ⟨fun f => ⟨fun hf => ?_, ?_⟩, h.sane.nodup, h.sane.out, houtcome.inOrder fun before f after hsplit => ?_⟩
  · rcases houtcome.sound f hf with hf | ⟨g, ⟨r, hr, hg⟩, hgf⟩
    · rw [hwritten] at hf
      cases hf
    · exact ⟨r, hr, g, hg, hgf⟩
  · rintro ⟨r, hr, g, hg, hgf⟩
    have hg' : g ∈ st.written := by simpa [hlooking] using houtcome.covered g ⟨r, hr, hg⟩
    exact hreach hg' hgf
  · rw [hwritten] at hsplit
    simp at hsplit

/-- Names are mangled to themselves, there are no typedefs, and all sections are known. -/
def plainFns : FragmentFns := ⟨id, id, fun _ => true⟩

def plainNode (name : Name) (deps : List Name) : FragmentNode :=
  ⟨⟨name, none⟩, name, some (lit "header"), deps.map fun dep => ⟨lit "fragment", dep, none⟩⟩

/-- `a` asks for itself and for `b`. -/
def selfNodes : List FragmentNode := [plainNode (lit "a") [lit "a,b"], plainNode (lit "b") []]

theorem selfNodes_known : ∀ node ∈ selfNodes, ∃ section_, node.code.section_ = some section_ ∧
    plainFns.filebyname section_ = true := by
  intro node hnode
  refine ⟨lit "header", ?_, rfl⟩
  rcases List.mem_cons.mp hnode with rfl | hnode
  · rfl
  · obtain rfl := List.mem_singleton.mp hnode
    rfl

theorem emitAll_emits_selfNodes :
    ∃ st, Returns (fun n => emitAll plainFns n [⟨lit "b", none⟩] (registerAll plainFns selfNodes)) st ∧
      ((∀ l ∈ st.lookups, Orderly plainFns (registered plainFns selfNodes) l) →
        Emitted plainFns (registered plainFns selfNodes) [⟨lit "b", none⟩] st) :=
  emitAll_emits plainFns selfNodes selfNodes_known [⟨lit "b", none⟩]

theorem selfNodes_drop : ¬ ∀ env nodes,
    (∀ node ∈ nodes, ∃ section_, node.code.section_ = some section_ ∧ env.filebyname section_ = true) →
    ∀ requests, ∃ st, Returns (fun n => emitAll env n requests (registerAll env nodes)) st ∧
      Emitted env (registered env nodes) requests st := by
  intro h
  obtain ⟨st, hr, hemitted⟩ := h plainFns selfNodes selfNodes_known [⟨lit "a", none⟩]
  have hwritten : Returns (fun n => (emitAll plainFns n [⟨lit "a", none⟩] (registerAll plainFns selfNodes)).map
      State.written) [lit "a"] := by
    refine ⟨2, fun n hn => ?_⟩
    obtain ⟨k, rfl⟩ := Nat.exists_eq_add_of_le' hn
    rfl
  have hst : st.written = [lit "a"] := (hr.map State.written).unique hwritten
  have hb : lit "b" ∈ st.written := by
    refine (hemitted.names (lit "b")).mpr ⟨_, List.mem_singleton_self _, lit "a", ⟨rfl, lit "a", ?_, rfl⟩, .single ?_⟩
    · decide
    · exact ⟨_, rfl, _, List.mem_singleton_self _, rfl, rfl, lit "b", by decide, rfl⟩
  rw [hst] at hb
  exact absurd hb (by decide)

end Swig.Fragments
