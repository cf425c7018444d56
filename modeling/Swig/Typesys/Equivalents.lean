import Swig.Typesys.SortedTable
import Swig.Lib.Marking

/-!
The names that `SwigType_equivalent_mangle` collects. The search goes from mangled names
to types and back; it notes what it has seen of both in one table.
-/

namespace Swig.Typesys

open Swig.DOH Swig.Runtime Fuel Marking

/-! ### Equivalent names -/

/-- The resolved types of a mangled name. -/
def Tables.typesOf (T : Tables) (ms : Name) : List Name := ((T.r_mangled.get ms).getD .new).keys

/-- The mangled names of a resolved type. -/
def Tables.namesOf (T : Tables) (ty : Name) : List Name := ((T.r_resolved.get ty).getD .new).keys

/-- The mangled names that are reached from `ms` over types. -/
inductive Equivalent (T : Tables) (ms : Name) : Name → Prop
  | refl : Equivalent T ms ms
  | step {m ty m' : Name} (h : Equivalent T ms m) (hty : ty ∈ T.typesOf m) (hm' : m' ∈ T.namesOf ty) :
      Equivalent T ms m'

/-- The types on the way. -/
def EquivalentType (T : Tables) (ms ty : Name) : Prop := ∃ m, Equivalent T ms m ∧ ty ∈ T.typesOf m

/-- No string is reached as a mangled name and as a type. -/
def Apart (T : Tables) (ms : Name) : Prop := ∀ s, Equivalent T ms s → ¬EquivalentType T ms s

variable {T : Tables} {ms m ty : Name} {ch h : StringTable Name}

/-! ### Only equivalent names are found -/

theorem equivalentMangle_sound {fuel : ℕ} {r : StringTable Name × StringTable Name} (hm : Equivalent T ms m)
    (hh : ∀ s ∈ h.keys, Equivalent T ms s) (hr : equivalentMangle T fuel m (ch, h) = some r) :
    ∀ s ∈ r.2.keys, Equivalent T ms s := by
  have hset {h : StringTable Name} {k : Name} (hk : Equivalent T ms k) (hh : ∀ s ∈ h.keys, Equivalent T ms s) :
      ∀ s ∈ (h.set k (lit "1")).keys, Equivalent T ms s := by
    intro s hs
    obtain rfl | hs := StringTable.mem_keys_set.mp hs
    · exact hk
    · exact hh s hs
  induction fuel generalizing m ch h r with
  | zero => cases hr
  | succ fuel ih =>
      rw [equivalentMangle] at hr
      split at hr
      · obtain rfl := Option.some.inj hr
        exact hh
      cases hmh : T.r_mangled.get m with
      | none =>
          rw [hmh] at hr
          obtain rfl := Option.some.inj hr
          exact hset hm hh
      | some mh =>
          rw [hmh] at hr
          refine of_foldlM (fun _ st => ∀ s ∈ st.2.keys, Equivalent T ms s) [] hr (hset hm hh) ?_
          rintro - ki ⟨ch₁, h₁⟩ t hki hh₁ hround
          have hty : ki ∈ T.typesOf m := by rwa [Tables.typesOf, hmh, Option.getD_some]
          dsimp only at hround
          split at hround
          · obtain rfl := Option.some.inj hround
            exact hh₁
          cases hrh : T.r_resolved.get ki with
          | none =>
              rw [hrh] at hround
              obtain rfl := Option.some.inj hround
              exact hh₁
          | some rh =>
              rw [hrh] at hround
              refine of_foldlM (fun _ st => ∀ s ∈ st.2.keys, Equivalent T ms s) [] hround hh₁ ?_
              rintro - rk ⟨ch₂, h₂⟩ t hrk hh₂ hcall
              have hname : Equivalent T ms rk := hm.step hty (by rwa [Tables.namesOf, hrh, Option.getD_some])
              exact ih hname (hset hname hh₂) hcall

/-! ### The search -/

/-- A mangled name, or a type. -/
abbrev Node := Name ⊕ Name

/-- What the search goes on to. -/
def follow (T : Tables) : Node → List Node
  | .inl ms => (T.typesOf ms).map .inr
  | .inr ty => (T.namesOf ty).map .inl

/-- The string under which a node is noted. -/
def noted : Node → Name := Sum.elim id id

/-- What is reached from `ms`. -/
def Reached (T : Tables) (ms : Name) : Node → Prop := Sum.elim (Equivalent T ms) (EquivalentType T ms)

/-- What is reached and not noted yet. -/
def freeNodes (T : Tables) (ms : Name) (ch : StringTable Name) : Set Node :=
  fun x => Reached T ms x ∧ ch.get (noted x) = none

/-- The names noted are found. -/
def Found (T : Tables) (ms : Name) (ch h : StringTable Name) : Prop :=
  ∀ m, Equivalent T ms m → (ch.get m).isSome → m ∈ h.keys

theorem Apart.eq_of_noted (hapart : Apart T ms) {x y : Node} (hx : Reached T ms x) (hy : Reached T ms y)
    (h : noted x = noted y) : x = y := by
  match x, y with
  | .inl m, .inl m' => exact congrArg Sum.inl h
  | .inr ty, .inr ty' => exact congrArg Sum.inr h
  | .inl m, .inr ty =>
      obtain rfl : m = ty := h
      exact absurd hy (hapart m hx)
  | .inr ty, .inl m =>
      obtain rfl : ty = m := h
      exact absurd hx (hapart ty hy)

/-- To note a node is to take that one node. -/
theorem Apart.freeNodes_set (hapart : Apart T ms) {x : Node} (hx : Reached T ms x) (ch : StringTable Name) (v : Name) :
    freeNodes T ms (ch.set (noted x) v) = freeNodes T ms ch \ {x} := by
  ext y
  show (Reached T ms y ∧ (ch.set (noted x) v).get (noted y) = none) ↔
    (Reached T ms y ∧ ch.get (noted y) = none) ∧ y ≠ x
  rw [StringTable.get_set]
  constructor
  · rintro ⟨hy, hfree⟩
    split at hfree
    · cases hfree
    · rename_i hne
      exact ⟨⟨hy, hfree⟩, fun hxy => hne (by rw [hxy])⟩
  · rintro ⟨⟨hy, hfree⟩, hne⟩
    rw [if_neg fun hsame => hne (hapart.eq_of_noted hy hx hsame)]
    exact ⟨hy, hfree⟩

theorem Found.set_found (hfound : Found T ms ch h) (k v : Name) : Found T ms ch (h.set k v) :=
  fun m hm hch => StringTable.mem_keys_set.mpr (.inr (hfound m hm hch))

theorem Found.set_name (hfound : Found T ms ch h) (k v v' : Name) : Found T ms (ch.set k v) (h.set k v') := by
  intro m hm hch
  rw [StringTable.get_set] at hch
  split at hch
  · rename_i hk
    exact StringTable.mem_keys_set.mpr (.inl hk)
  · exact hfound.set_found k v' m hm hch

theorem Found.set_type (hapart : Apart T ms) (hty : EquivalentType T ms ty) (hfound : Found T ms ch h) (v : Name) :
    Found T ms (ch.set ty v) h := by
  intro m hm hch
  rw [StringTable.get_set] at hch
  split at hch
  · rename_i hk
    rw [hk] at hm
    exact absurd hty (hapart ty hm)
  · exact hfound m hm hch

/-- A call from a name that is not noted visits it. -/
theorem equivalentMangle_visits (hapart : Apart T ms) {fuel : ℕ} {r : StringTable Name × StringTable Name}
    (hm : Equivalent T ms m) (hfree : ch.get m = none) (hfound : Found T ms ch h)
    (hr : equivalentMangle T fuel m (ch, h) = some r) :
    Visited (follow T) (.inl m) (freeNodes T ms ch) (freeNodes T ms r.1) ∧ Found T ms r.1 r.2 := by
  induction fuel generalizing m ch h r with
  | zero => cases hr
  | succ fuel ih =>
      have hstart := Visiting.start (follow T) (.inl m) (freeNodes T ms ch)
      have hname : Reached T ms (.inl m) := hm
      rw [← hapart.freeNodes_set hname ch (lit "1")] at hstart
      have hfound := hfound.set_name m (lit "1") (lit "1")
      rw [equivalentMangle, hfree, if_neg (by simp)] at hr
      cases hmh : T.r_mangled.get m with
      | none =>
          rw [hmh] at hr
          obtain rfl := Option.some.inj hr
          have hnone : follow T (.inl m) = [] := by simp [follow, Tables.typesOf, hmh]
          rw [Visited, hnone]
          exact ⟨hstart, hfound⟩
      | some mh =>
          rw [hmh] at hr
          have hfollow : follow T (.inl m) = mh.keys.map .inr := by rw [follow, Tables.typesOf, hmh, Option.getD_some]
          rw [Visited, hfollow]
          refine of_foldlM (fun done (st : StringTable Name × StringTable Name) =>
            Visiting (follow T) (.inl m) (done.map Sum.inr) (freeNodes T ms ch) (freeNodes T ms st.1) ∧
              Found T ms st.1 st.2) [] hr ⟨hstart, hfound⟩ ?_
          rintro done ki ⟨ch₁, h₁⟩ t hki ⟨hvisiting, hfound₁⟩ hround
          have hty : EquivalentType T ms ki := ⟨m, hm, by rwa [Tables.typesOf, hmh, Option.getD_some]⟩
          have htype : Reached T ms (.inr ki) := hty
          rw [List.map_append, List.map_singleton]
          dsimp only at hround hvisiting hfound₁
          cases hki₁ : ch₁.get ki with
          | some v =>
              rw [hki₁, if_pos Option.isSome_some] at hround
              obtain rfl := Option.some.inj hround
              have htaken : (.inr ki : Node) ∉ freeNodes T ms ch₁ := fun hmem => by cases hki₁.symm.trans hmem.2
              exact ⟨hvisiting.skip htaken, hfound₁⟩
          | none =>
              rw [hki₁, if_neg (by simp)] at hround
              have hmem : (.inr ki : Node) ∈ freeNodes T ms ch₁ := ⟨hty, hki₁⟩
              have hsucc : (.inr ki : Node) ∈ follow T (.inl m) := by
                rw [hfollow]
                exact List.mem_map.mpr ⟨ki, hki, rfl⟩
              have hbegin := Visiting.start (follow T) (.inr ki) (freeNodes T ms ch₁)
              rw [← hapart.freeNodes_set htype ch₁ (lit "1")] at hbegin
              have hfound₂ := hfound₁.set_type hapart hty (lit "1")
              suffices hinner : Visited (follow T) (.inr ki) (freeNodes T ms ch₁) (freeNodes T ms t.1) ∧
                  Found T ms t.1 t.2 from ⟨hvisiting.visit hsucc hmem hinner.1, hinner.2⟩
              cases hrh : T.r_resolved.get ki with
              | none =>
                  rw [hrh] at hround
                  obtain rfl := Option.some.inj hround
                  have hnone : follow T (.inr ki) = [] := by simp [follow, Tables.namesOf, hrh]
                  rw [Visited, hnone]
                  exact ⟨hbegin, hfound₂⟩
              | some rh =>
                  rw [hrh] at hround
                  have hnames : follow T (.inr ki) = rh.keys.map .inl := by
                    rw [follow, Tables.namesOf, hrh, Option.getD_some]
                  rw [Visited, hnames]
                  refine of_foldlM (fun done (st : StringTable Name × StringTable Name) =>
                    Visiting (follow T) (.inr ki) (done.map Sum.inl) (freeNodes T ms ch₁) (freeNodes T ms st.1) ∧
                      Found T ms st.1 st.2) [] hround ⟨hbegin, hfound₂⟩ ?_
                  rintro done rk ⟨ch₃, h₃⟩ t hrk ⟨hvisiting₃, hfound₃⟩ hcall
                  have hrkname : Equivalent T ms rk :=
                    hm.step (by rwa [Tables.typesOf, hmh, Option.getD_some])
                      (by rwa [Tables.namesOf, hrh, Option.getD_some])
                  have hfound₄ := hfound₃.set_found rk (lit "1")
                  rw [List.map_append, List.map_singleton]
                  cases hrk₃ : ch₃.get rk with
                  | some v =>
                      -- the call comes back at once
                      have hback : t = (ch₃, h₃.set rk (lit "1")) := by
                        cases fuel with
                        | zero => cases hcall
                        | succ fuel =>
                            rw [equivalentMangle, hrk₃, if_pos Option.isSome_some] at hcall
                            exact (Option.some.inj hcall).symm
                      rw [hback]
                      have htaken : (.inl rk : Node) ∉ freeNodes T ms ch₃ := fun hmem => by cases hrk₃.symm.trans hmem.2
                      exact ⟨hvisiting₃.skip htaken, hfound₄⟩
                  | none =>
                      have hmem₃ : (.inl rk : Node) ∈ freeNodes T ms ch₃ := ⟨hrkname, hrk₃⟩
                      have hsucc₃ : (.inl rk : Node) ∈ follow T (.inr ki) := by
                        rw [hnames]
                        exact List.mem_map.mpr ⟨rk, hrk, rfl⟩
                      obtain ⟨hvisited, hfound₅⟩ := ih hrkname hrk₃ hfound₄ hcall
                      exact ⟨hvisiting₃.visit hsucc₃ hmem₃ hvisited, hfound₅⟩

theorem reach_of_equivalent (h : Equivalent T ms m) :
    Reach (follow T) (freeNodes T ms .new) (.inl ms) (.inl m) := by
  induction h with
  | refl => exact .refl
  | @step m ty m' hm hty hm' ih =>
      have htype : Reach (follow T) (freeNodes T ms .new) (.inl ms) (.inr ty) :=
        ih.step (List.mem_map.mpr ⟨ty, hty, rfl⟩) ⟨⟨m, hm, hty⟩, StringTable.get_new _⟩
      exact htype.step (List.mem_map.mpr ⟨m', hm', rfl⟩) ⟨hm.step hty hm', StringTable.get_new _⟩

/-- The search ends and finds equivalent names only, each once; where no string is a name and
a type, it finds all of them. -/
theorem equivalents_exact (T : Tables) (ms : Name) : ∃ el, equivalents T ms = some el ∧ el.Nodup ∧
    (∀ s ∈ el, Equivalent T ms s) ∧ (Apart T ms → ∀ s, Equivalent T ms s → s ∈ el) := by
  obtain ⟨el, hel⟩ := exists_equivalents T ms
  obtain ⟨⟨ch, h⟩, hr, hkeys⟩ := Option.bind_eq_some_iff.mp hel
  obtain rfl : h.keys = el := Option.some.inj hkeys
  refine ⟨h.keys, hel, h.nodup_keys, ?_, fun hapart s hs => ?_⟩
  · exact equivalentMangle_sound .refl (by simp) hr
  · obtain ⟨hvisited, hfound⟩ := equivalentMangle_visits hapart .refl (StringTable.get_new _)
      (fun m _ hm => by simp at hm) hr
    refine hfound s hs ?_
    have hnot : (.inl s : Node) ∉ freeNodes T ms ch :=
      fun hmem => ((hvisited.free_iff _).mp hmem).2 (reach_of_equivalent hs)
    cases hget : ch.get s with
    | some v => rfl
    | none => exact absurd ⟨hs, hget⟩ hnot

/-- `_B` is the mangled name of one type and is a type itself. -/
def sharedName : Tables :=
  { Tables.empty with
    r_mangled := setIn (setIn (setIn .new (lit "_A") (lit "_B") []) (lit "_B") (lit "_B") []) (lit "_B") (lit "U") []
    r_resolved := setIn (setIn (setIn (setIn .new (lit "_B") (lit "_A") []) (lit "_B") (lit "_B") [])
      (lit "U") (lit "_B") []) (lit "U") (lit "_D") [] }

theorem equivalents_sharedName :
    ¬∃ el, equivalents sharedName (lit "_A") = some el ∧ el.Nodup ∧
      ∀ s, s ∈ el ↔ Equivalent sharedName (lit "_A") s := by
  rintro ⟨el, hel, -, hall⟩
  have htypeB : lit "_B" ∈ sharedName.typesOf (lit "_A") := by decide +kernel
  have htypeU : lit "U" ∈ sharedName.typesOf (lit "_B") := by decide +kernel
  have hB : Equivalent sharedName (lit "_A") (lit "_B") := Equivalent.refl.step htypeB (by decide +kernel)
  have hD : Equivalent sharedName (lit "_A") (lit "_D") := hB.step htypeU (by decide +kernel)
  have hmem := (hall _).mpr hD
  have hnone : ∀ el ∈ equivalents sharedName (lit "_A"), lit "_D" ∉ el := by decide +kernel
  exact hnone el hel hmem

end Swig.Typesys
