import Swig.Fragments.Fragment
import Swig.Lib.Fuel
import Mathlib.Logic.Relation
import Mathlib.Data.Finset.Card
import Mathlib.Data.Finset.Filter

/-!
What a request writes: the fragments it leads to that are neither written yet nor
being written, each after those it depends on.
-/

namespace Swig.Fragments

open Fuel Relation

variable (env : FragmentFns) (R : Name → Option Code)

/-! ### What is to be written -/

/-- The fragment that serves an element of a list: the one for the type itself, or
else the one for the resolved type. -/
def served (type : Option Name) (tok : Name) : Name :=
  match type with
  | none => tok
  | some t =>
      if (R (tok ++ env.mangle t)).isSome then tok ++ env.mangle t
      else tok ++ env.mangle (env.typedef_resolve_all t)

/-- A registered fragment that serves one of the elements. -/
def AskedBy (type : Option Name) (toks : List Name) (g : Name) : Prop :=
  (R g).isSome ∧ ∃ tok ∈ toks, g = served env R type tok

/-- A registered fragment that a request asks for. -/
def Asked (r : Request) (g : Name) : Prop := AskedBy env R r.type (tokens r.value) g

/-- A registered fragment that some keyword arguments ask for. -/
def AskedByKwargs (ks : List Kwarg) (g : Name) : Prop :=
  ∃ k ∈ ks, k.name = lit "fragment" ∧ Asked env R k.request g

/-- A fragment depends on another one. -/
def Depends (f g : Name) : Prop := ∃ code, R f = some code ∧ AskedByKwargs env R code.kwargs g

/-- A step of the emission that drops nothing and takes nothing for another: a name
in progress ends its list, a typed name without a fragment has a resolved type, and
no registered text is `ignore`. -/
structure Orderly (l : Lookup) : Prop where
  last : l.looking l.name = true → l.rest = []
  resolved : R l.name = none → ∀ t ∈ l.type, env.typedef_resolve_all t = t
  text : ∀ code, R l.name = some code → code.text ≠ lit "ignore"

/-- The names of the fragments that were written. -/
def State.written (st : State) : List Name := st.out.map Written.name

/-! ### One call -/

/-- The tables and the output fit the registered fragments. -/
structure Sane (st : State) : Prop where
  get : ∀ name, st.get name = if name ∈ st.written then some ignored else R name
  out : ∀ w ∈ st.out, ∃ code, R w.name = some code ∧ code.text = w.text ∧ code.section_ = some w.section_
  nodup : st.written.Nodup
  looking : ∀ name, st.looking name = true → (R name).isSome ∧ name ∉ st.written

/-- What a call leaves as it was. -/
structure Extends (st st' : State) : Prop where
  looking : st'.looking = st.looking
  out : st.out <+: st'.out
  lookups : st.lookups <+: st'.lookups

/-- What is written depends on what is written or being written. -/
def Closed (st : State) : Prop :=
  ∀ f ∈ st.written, ∀ g, Depends env R f g → g ∈ st.written ∨ st.looking g = true

/-- A fragment stands after each one it depends on, unless that leads back to it. -/
def InOrder (st : State) : Prop :=
  ∀ before f after, st.written = before ++ f :: after →
    ∀ g, Depends env R f g → g ∈ before ∨ ReflTransGen (Depends env R) g f

/-- What a call for the fragments `roots` does. -/
structure Outcome (roots : Name → Prop) (st st' : State) : Prop where
  covered : ∀ g, roots g → g ∈ st'.written ∨ st'.looking g = true
  sound : ∀ f ∈ st'.written, f ∈ st.written ∨ ∃ g, roots g ∧ ReflTransGen (Depends env R) g f
  closed : Closed env R st → Closed env R st'
  inOrder : InOrder env R st → InOrder env R st'

/-- The fragments being written lead to the `roots`. -/
def Above (roots : Name → Prop) (st : State) : Prop :=
  ∀ x, st.looking x = true → ∀ g, roots g → ReflTransGen (Depends env R) x g

structure Emission (roots : Name → Prop) (st st' : State) : Prop where
  sane : Sane R st'
  ext : Extends st st'
  outcome : (∀ l ∈ st'.lookups, Orderly env R l) → Above env R roots st → Outcome env R roots st st'

variable {env R} {roots roots' : Name → Prop} {st st' st'' : State}

theorem Extends.refl (st : State) : Extends st st := ⟨rfl, List.prefix_rfl, List.prefix_rfl⟩

theorem Extends.trans (h : Extends st st') (h' : Extends st' st'') : Extends st st'' :=
  ⟨h'.looking.trans h.looking, h.out.trans h'.out, h.lookups.trans h'.lookups⟩

theorem Extends.written (h : Extends st st') : st.written <+: st'.written := h.out.map _

theorem Extends.mem_written (h : Extends st st') {f : Name} (hf : f ∈ st.written) : f ∈ st'.written :=
  h.written.subset hf

/-- Two calls one after the other. -/
theorem Emission.trans (h : Emission env R roots st st') (h' : Emission env R roots' st' st'') :
    Emission env R (fun g => roots g ∨ roots' g) st st'' where
  sane := h'.sane
  ext := h.ext.trans h'.ext
  outcome hord habove := by
    have h₁ := h.outcome (fun l hl => hord l (h'.ext.lookups.subset hl)) fun x hx g hg => habove x hx g (.inl hg)
    have h₂ := h'.outcome hord fun x hx g hg => habove x (by rwa [h.ext.looking] at hx) g (.inr hg)
    refine ⟨?_, ?_, fun hc => h₂.closed (h₁.closed hc), fun ho => h₂.inOrder (h₁.inOrder ho)⟩
    · rintro g (hg | hg)
      · rcases h₁.covered g hg with hw | hl
        · exact .inl (h'.ext.mem_written hw)
        · exact .inr (by rwa [h'.ext.looking])
      · exact h₂.covered g hg
    · intro f hf
      rcases h₂.sound f hf with hf | ⟨g, hg, hgf⟩
      · rcases h₁.sound f hf with hf | ⟨g, hg, hgf⟩
        · exact .inl hf
        · exact .inr ⟨g, .inl hg, hgf⟩
      · exact .inr ⟨g, .inr hg, hgf⟩

/-- The fragments asked for, named in another way. -/
theorem Emission.congr (h : Emission env R roots st st')
    (hroots : (∀ l ∈ st'.lookups, Orderly env R l) → ∀ g, roots' g ↔ roots g) : Emission env R roots' st st' where
  sane := h.sane
  ext := h.ext
  outcome hord habove := by
    obtain rfl : roots' = roots := by
      ext g
      exact hroots hord g
    exact h.outcome hord habove

/-- Changes of the state that no table sees. -/
theorem Emission.of_same (hsane : Sane R st) (hget : st'.fragments = st.fragments) (hlooking : st'.looking = st.looking)
    (hout : st'.out = st.out) (hlookups : st.lookups <+: st'.lookups) :
    Emission env R (fun _ => False) st st' := by
  have hwritten : st'.written = st.written := congrArg (List.map Written.name) hout
  refine ⟨⟨fun name => ?_, ?_, ?_, ?_⟩, ⟨hlooking, by rw [hout], hlookups⟩, fun _ _ => ⟨nofun, ?_, ?_, ?_⟩⟩
  · rw [State.get, hget, hwritten]
    exact hsane.get name
  · rw [hout]
    exact hsane.out
  · rw [hwritten]
    exact hsane.nodup
  · rw [hlooking, hwritten]
    exact hsane.looking
  · rw [hwritten]
    exact fun f hf => .inl hf
  · rw [Closed, Closed, hwritten, hlooking]
    exact id
  · rw [InOrder, InOrder, hwritten]
    exact id

/-- Nothing is to be done for fragments that are written or being written. -/
theorem Emission.covered (h : Emission env R roots st st')
    (hcovered : (∀ l ∈ st'.lookups, Orderly env R l) → ∀ g, roots' g → g ∈ st'.written ∨ st'.looking g = true) :
    Emission env R (fun g => roots g ∨ roots' g) st st' where
  sane := h.sane
  ext := h.ext
  outcome hord habove := by
    have h₁ := h.outcome hord fun x hx g hg => habove x hx g (.inl hg)
    refine ⟨?_, ?_, h₁.closed, h₁.inOrder⟩
    · rintro g (hg | hg)
      · exact h₁.covered g hg
      · exact hcovered hord g hg
    · intro f hf
      exact (h₁.sound f hf).imp_right fun ⟨g, hg, hgf⟩ => ⟨g, .inl hg, hgf⟩

/-! ### One fragment -/

theorem Sane.live (h : Sane R st) {name : Name} {code : Code} (hget : st.get name = some code)
    (htext : code.text ≠ lit "ignore") : R name = some code ∧ name ∉ st.written := by
  rw [h.get] at hget
  split at hget
  · cases hget
    exact absurd rfl htext
  · exact ⟨hget, ‹_›⟩

theorem Sane.setLooking (h : Sane R st) {name : Name} {code : Code} (hname : R name = some code)
    (hnew : name ∉ st.written) : Sane R (st.setLooking name true) where
  get := h.get
  out := h.out
  nodup := h.nodup
  looking x hx := by
    by_cases hxn : x = name
    · subst hxn
      exact ⟨Option.isSome_of_eq_some hname, hnew⟩
    · exact h.looking x (by simpa only [State.setLooking, Function.update_of_ne hxn] using hx)

variable {name : Name} {code : Code} {section_ : Name}

@[simp]
theorem State.write_written (text : List Byte) : (st.write name section_ text).written = st.written ++ [name] := by
  simp [State.written, State.write, State.setLooking, State.set]

theorem State.write_looking (text : List Byte) (x : Name) :
    (st.write name section_ text).looking x = if x = name then false else st.looking x := by
  by_cases hx : x = name
  · simp [State.write, State.setLooking, hx]
  · simp [State.write, State.setLooking, State.set, hx]

theorem State.write_get (text : List Byte) (x : Name) :
    (st.write name section_ text).get x = if x = name then some ignored else st.get x := by
  by_cases hx : x = name
  · simp [State.write, State.setLooking, State.set, State.get, hx]
  · cases hf : st.fragments <;> simp [State.write, State.setLooking, State.set, State.get, hx, hf]

/-- A fragment is written after those its keyword arguments ask for. -/
theorem Emission.fragment (hname : R name = some code) (hnew : name ∉ st.written)
    (hnot : st.looking name = false) (hsection : code.section_ = some section_)
    (h : Emission env R (AskedByKwargs env R code.kwargs) (st.setLooking name true) st') :
    Emission env R (fun g => g = name) st (st'.write name section_ code.text) := by
  have hlooking' : st'.looking = Function.update st.looking name true := h.ext.looking
  have hnew' : name ∉ st'.written := (h.sane.looking name (by rw [hlooking', Function.update_self])).2
  have hlooking : (st'.write name section_ code.text).looking = st.looking := by
    ext x
    rw [State.write_looking, hlooking']
    by_cases hx : x = name
    · rw [hx, if_pos rfl, hnot]
    · rw [if_neg hx, Function.update_of_ne hx]
  have hdepends (g : Name) : Depends env R name g ↔ AskedByKwargs env R code.kwargs g := by
    rw [Depends, hname]
    simp
  refine ⟨⟨?_, ?_, ?_, ?_⟩, ⟨hlooking, ?_, h.ext.lookups⟩, fun hord habove => ?_⟩
  · intro x
    rw [State.write_get, h.sane.get, State.write_written]
    by_cases hx : x = name
    · simp [hx]
    · simp [hx]
  · intro w hw
    rcases List.mem_append.mp hw with hw | hw
    · exact h.sane.out w hw
    · obtain rfl := List.mem_singleton.mp hw
      exact ⟨code, hname, rfl, hsection⟩
  · rw [State.write_written]
    exact List.nodup_append.mpr ⟨h.sane.nodup, List.nodup_singleton _, by
      rintro x hx _ hy rfl
      exact hnew' (List.mem_singleton.mp hy ▸ hx)⟩
  · intro x hx
    rw [hlooking] at hx
    have hxn : x ≠ name := by
      rintro rfl
      rw [hnot] at hx
      cases hx
    obtain ⟨hreg, hx'⟩ := h.sane.looking x (by rwa [hlooking', Function.update_of_ne hxn])
    rw [State.write_written, List.mem_append, List.mem_singleton]
    exact ⟨hreg, not_or.mpr ⟨hx', hxn⟩⟩
  · exact h.ext.out.trans (List.prefix_append _ _)
  have hstill (g : Name) (hg : st'.looking g = true) : g = name ∨ st.looking g = true := by
    by_cases hgn : g = name
    · exact .inl hgn
    · rw [hlooking', Function.update_of_ne hgn] at hg
      exact .inr hg
  have habove' : Above env R (AskedByKwargs env R code.kwargs) (st.setLooking name true) := by
    intro x hx g hg
    by_cases hxn : x = name
    · subst hxn
      exact .single ((hdepends g).mpr hg)
    · have hx' : st.looking x = true := by simpa only [State.setLooking, Function.update_of_ne hxn] using hx
      exact (habove x hx' name rfl).tail ((hdepends g).mpr hg)
  have h₁ := h.outcome hord habove'
  have hcovered (g : Name) (hg : g ∈ st'.written ∨ st'.looking g = true) :
      g ∈ (st'.write name section_ code.text).written ∨
        (st'.write name section_ code.text).looking g = true := by
    rw [State.write_written, hlooking]
    rcases hg with hg | hg
    · exact .inl (List.mem_append_left _ hg)
    · rcases hstill g hg with rfl | hg
      · exact .inl (List.mem_append_right _ (List.mem_singleton_self _))
      · exact .inr hg
  refine ⟨?_, ?_, fun hclosed => ?_, fun hinOrder => ?_⟩
  · rintro g rfl
    rw [State.write_written]
    exact .inl (List.mem_append_right _ (List.mem_singleton_self _))
  · intro f hf
    rw [State.write_written] at hf
    rcases List.mem_append.mp hf with hf | hf
    · rcases h₁.sound f hf with hf | ⟨g, hg, hgf⟩
      · exact .inl hf
      · exact .inr ⟨name, rfl, .head ((hdepends g).mpr hg) hgf⟩
    · exact .inr ⟨name, rfl, List.mem_singleton.mp hf ▸ .refl⟩
  · intro f hf g hfg
    rw [State.write_written] at hf
    apply hcovered
    rcases List.mem_append.mp hf with hf | hf
    · refine h₁.closed (fun f hf g hfg => ?_) f hf g hfg
      refine (hclosed f hf g hfg).imp_right fun hg => ?_
      by_cases hgn : g = name
      · simp [State.setLooking, hgn]
      · simpa only [State.setLooking, Function.update_of_ne hgn] using hg
    · rw [List.mem_singleton.mp hf] at hfg
      exact h₁.covered g ((hdepends g).mp hfg)
  · intro before f after hsplit g hfg
    rw [State.write_written] at hsplit
    rcases List.eq_nil_or_concat after with rfl | ⟨after', y, rfl⟩
    · obtain ⟨rfl, hf⟩ := List.append_inj' hsplit rfl
      cases hf
      rcases h₁.covered g ((hdepends g).mp hfg) with hg | hg
      · exact .inl hg
      · rcases hstill g hg with rfl | hg
        · exact .inr .refl
        · exact .inr (habove g hg _ rfl)
    · rw [List.concat_eq_append, ← List.cons_append, ← List.append_assoc] at hsplit
      obtain ⟨hsplit, -⟩ := List.append_inj' hsplit rfl
      exact h₁.inOrder hinOrder before f after' hsplit g hfg

/-- What is claimed of orderly runs only holds of any other. -/
theorem Emission.of_disorderly (h : Emission env R roots st st') (hdis : ¬ ∀ l ∈ st'.lookups, Orderly env R l) :
    Emission env R roots' st st' :=
  ⟨h.sane, h.ext, fun hord => absurd hord hdis⟩

end Swig.Fragments
