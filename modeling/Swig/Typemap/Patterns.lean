import Swig.Typemap.Registered

/-!
The store of typemaps as a map from patterns to code. Registering and clearing a pattern
change this map at the pattern alone, unless the hash of the last parameter's type is
that of its template prefix.
-/

namespace Swig.Typemap

open DOH SType Naming

/-- A method and the parameters of a typemap. -/
structure Pattern where
  method : List Byte
  before : List Parm
  last : Parm
  method_wf : chr '-' ∉ method
  before_wf : ∀ p ∈ before, p.WellFormed
  last_wf : last.name ≠ some []

variable {F : LawfulTypeFns} {T : Typemaps} {P P' : Pattern} {c : Option (List Byte)} {locals : List Parm}
  {kwargs : List Kwarg}

namespace Pattern

def parms (P : Pattern) : List Parm := P.before ++ [P.last]

/-- The method of the last parameter that holds the typemap. -/
def op (P : Pattern) : List Byte := methodName (operator P.method P.before)

/-- The code that is registered for exactly this pattern in the current scope. -/
def code (F : LawfulTypeFns) (T : Typemaps) (P : Pattern) : Option (List Byte) :=
  T.codeAt (F.key P.last.type) P.last.name P.op

/-- The same method and parameters; the last type counts with its default arguments. -/
def Same (F : LawfulTypeFns) (P P' : Pattern) : Prop :=
  P.method = P'.method ∧ P.before.map Parm.pattern = P'.before.map Parm.pattern ∧
    F.key P.last.type = F.key P'.last.type ∧ P.last.name = P'.last.name

theorem op_inj (h : P.op = P'.op) : P.method = P'.method ∧ P.before.map Parm.pattern = P'.before.map Parm.pattern :=
  operator_inj P.method_wf P'.method_wf P.before_wf P'.before_wf (List.append_cancel_left h)

theorem name_ne (P : Pattern) : ∀ p ∈ P.parms, p.name ≠ some [] := by
  intro p hp
  rcases List.mem_append.mp hp with hp | hp
  · exact (P.before_wf p hp).name
  · rw [List.mem_singleton.mp hp]
    exact P.last_wf

end Pattern

namespace Typemaps

def registerPattern (F : LawfulTypeFns) (T : Typemaps) (P : Pattern) (code : Option (List Byte)) (locals : List Parm)
    (kwargs : List Kwarg) : Typemaps :=
  T.register F.toTypeFns P.method P.parms code locals kwargs

def clearPattern (F : LawfulTypeFns) (T : Typemaps) (P : Pattern) : Typemaps := T.clear F.toTypeFns P.method P.parms

end Typemaps

/-- The key under which the hash of the last type is found once the parameters before it
have been registered. -/
def Pattern.lastHome (F : LawfulTypeFns) (T : Typemaps) (P : Pattern) : SwigType :=
  F.home (· ∈ keysAfter F.toTypeFns (T.typemaps T.tm_scope).keys P.before) P.last.type

/-! ### What the operations do to the code of a slot -/

theorem grows_register : Grows F T (T.registerPattern F P c locals kwargs) := by
  rw [Typemaps.registerPattern, Pattern.parms, register_append]
  exact (grows_touchAll F T _ _).trans (.touch F _ _ _ _)

theorem codeAt_register (k : SwigType) (n : Option (List Byte)) (m : List Byte) :
    (T.registerPattern F P c locals kwargs).codeAt k n m =
      if k = P.lastHome F T ∧ n = P.last.name ∧ m = P.op then c else T.codeAt k n m := by
  rw [Typemaps.registerPattern, Pattern.parms, register_append, codeAt_touch, home_touchAll, codeAt_touchAll]
  rfl

theorem clear_eq (P : Pattern) :
    (T.Found F P.parms ∧ T.clearPattern F P = (T.clearAt F.toTypeFns P.last P.op).getD T) ∨
      (¬T.Found F P.parms ∧ T.clearPattern F P = T) := by
  rw [Typemaps.clearPattern, Typemaps.clear, Pattern.parms]
  cases hloop : T.clearLoop F.toTypeFns P.method (P.before ++ [P.last]) with
  | none =>
      refine .inr ⟨fun hfound => ?_, rfl⟩
      have hsome := (clearLoop_eq_some (m := P.method) P.name_ne).mpr ⟨hfound, rfl⟩
      rw [hloop] at hsome
      cases hsome
  | some r =>
      obtain ⟨hfound, rfl⟩ := (clearLoop_eq_some P.name_ne).mp hloop
      exact .inl ⟨hfound, rfl⟩

theorem grows_clear : Grows F T (T.clearPattern F P) := by
  rcases clear_eq (F := F) (T := T) P with ⟨-, heq⟩ | ⟨-, heq⟩
  · rw [heq, clearAt_eq P.last_wf]
    split
    · exact .touch F T _ _ _
    · exact .refl F T
  · rw [heq]
    exact .refl F T

theorem codeAt_clear_of_found (h : T.Found F P.parms) (k : SwigType) (n : Option (List Byte)) (m : List Byte) :
    (T.clearPattern F P).codeAt k n m =
      if k = T.home F.toTypeFns P.last.type ∧ n = P.last.name ∧ m = P.op then none else T.codeAt k n m := by
  rcases clear_eq (F := F) (T := T) P with ⟨-, heq⟩ | ⟨hnot, -⟩
  · rw [heq, codeAt_clearAt P.last_wf]
  · exact absurd h hnot

theorem clear_of_not_found (h : ¬T.Found F P.parms) : T.clearPattern F P = T := by
  rcases clear_eq (F := F) (T := T) P with ⟨hfound, -⟩ | ⟨-, heq⟩
  · exact absurd hfound h
  · exact heq

/-! ### The stores -/

/-- The stores that registering and clearing make. -/
inductive Reachable (F : LawfulTypeFns) : Typemaps → Prop
  | init : Reachable F ⟨fun _ => .new, 0⟩
  | register {T : Typemaps} (h : Reachable F T) (P : Pattern) (c : Option (List Byte)) (locals : List Parm)
      (kwargs : List Kwarg) : Reachable F (T.registerPattern F P c locals kwargs)
  | clear {T : Typemaps} (h : Reachable F T) (P : Pattern) : Reachable F (T.clearPattern F P)

/-- The parameters before the last one are found where there is code for a pattern. -/
def Grown (F : LawfulTypeFns) (T : Typemaps) : Prop := ∀ P : Pattern, (P.code F T).isSome → T.Found F P.before

theorem Typemaps.Found.grows {T' : Typemaps} {ps : List Parm} (h : T.Found F ps) (hgrows : Grows F T T') :
    T'.Found F ps :=
  fun p hp => hgrows.found (h p hp)

/-- The parameters before the last one are found after registering. -/
theorem found_register : (T.registerPattern F P c locals kwargs).Found F P.before := by
  rw [Typemaps.registerPattern, Pattern.parms, register_append]
  refine Typemaps.Found.grows (fun p hp => ?_) (.touch F _ _ _ _)
  obtain ⟨a, b, hab⟩ := List.append_of_mem hp
  have hmethod := touchAll_method (F := F) (T := T) (m := P.method) (p := p) (a := a) (b := b)
  rw [← hab] at hmethod
  exact Typemaps.slotAt_of_methodAt hmethod

theorem Found.congr_pattern {ps ps' : List Parm} (h : T.Found F ps) (heq : ps'.map Parm.pattern = ps.map Parm.pattern) :
    T.Found F ps' := by
  intro p hp
  have hmem : p.pattern ∈ ps.map Parm.pattern := heq ▸ List.mem_map_of_mem hp
  obtain ⟨q, hq, hqp⟩ := List.mem_map.mp hmem
  obtain ⟨htype, hname⟩ := Prod.mk.inj hqp
  rw [← htype, ← hname]
  exact h q hq

theorem Grown.register (h : Grown F T) : Grown F (T.registerPattern F P c locals kwargs) := by
  intro P' hcode
  rw [Pattern.code, codeAt_register] at hcode
  split at hcode
  · rename_i hslot
    exact Found.congr_pattern found_register (Pattern.op_inj hslot.2.2).2
  · exact (h P' hcode).grows grows_register

theorem Grown.clear (h : Grown F T) : Grown F (T.clearPattern F P) := by
  intro P' hcode
  refine Typemaps.Found.grows (h P' ?_) grows_clear
  by_cases hfound : T.Found F P.parms
  · rw [Pattern.code, codeAt_clear_of_found hfound] at hcode
    split at hcode
    · cases hcode
    · exact hcode
  · rwa [clear_of_not_found hfound] at hcode

theorem Reachable.grown (h : Reachable F T) : Grown F T := by
  induction h with
  | init =>
      intro P hcode
      rw [Pattern.code, Typemaps.codeAt, Typemaps.methodAt, Typemaps.slotAt, StringTable.get_new] at hcode
      cases hcode
  | register _ P c locals kwargs ih => exact ih.register
  | clear _ P ih => exact ih.clear

/-! ### When no other pattern changes -/

/-- The pattern is found with its code, and the others keep theirs. -/
structure RegistersAlone (F : LawfulTypeFns) (T : Typemaps) (P : Pattern) (c : List Byte) (locals : List Parm)
    (kwargs : List Kwarg) : Prop where
  found : ∃ n, ∀ fuel ≥ n, ∀ nmatch, ∃ tm,
    (T.registerPattern F P (some c) locals kwargs).searchMulti F.toTypeFns fuel P.method P.parms nmatch =
      some (some tm, P.parms.length) ∧ tm.code = some c
  others : ∀ P' : Pattern, ¬P'.Same F P → P'.code F (T.registerPattern F P (some c) locals kwargs) = P'.code F T

/-- The pattern has no code any more, and the others keep theirs. -/
structure ClearsAlone (F : LawfulTypeFns) (T : Typemaps) (P : Pattern) : Prop where
  cleared : P.code F (T.clearPattern F P) = none
  others : ∀ P' : Pattern, ¬P'.Same F P → P'.code F (T.clearPattern F P) = P'.code F T

/-- The pattern is found whether or not its slot is of its own. -/
theorem searchMulti_register (c : List Byte)
    (hends : ∀ p ∈ P.before, (Point.type T.tm_scope p.type none).Ends F.toTypeFns p.type) :
    ∃ n, ∀ fuel ≥ n, ∀ nmatch, ∃ tm,
      (T.registerPattern F P (some c) locals kwargs).searchMulti F.toTypeFns fuel P.method P.parms nmatch =
        some (some tm, P.parms.length) ∧ tm.code = some c := by
  have hgrows : Grows F T (T.registerPattern F P (some c) locals kwargs) := grows_register
  have hlast := Grows.touch F (touchAll F.toTypeFns T P.method P.before) P.op P.last
    (.filled (operator P.method P.before) P.last (some c) locals kwargs)
  have heq : T.registerPattern F P (some c) locals kwargs =
      (touchAll F.toTypeFns T P.method P.before).touch F.toTypeFns P.op P.last
        (.filled (operator P.method P.before) P.last (some c) locals kwargs) := register_append ..
  rw [← heq] at hlast
  obtain ⟨e, hslot, hcode⟩ : ∃ e : Method, (T.registerPattern F P (some c) locals kwargs).methodAt
      ((T.registerPattern F P (some c) locals kwargs).home F.toTypeFns P.last.type) P.last.name P.op = some e ∧
        e.code = some c := by
    rw [heq, home_touch_self, Typemaps.methodAt_touch, if_pos ⟨rfl, rfl, rfl⟩]
    exact ⟨_, rfl, rfl⟩
  have hstored : Stored F.toTypeFns (T.registerPattern F P (some c) locals kwargs) P.method P.before P.last e := by
    refine ⟨fun a p b hab => ?_, hslot⟩
    have hmethod := touchAll_method (F := F) (T := T) (m := P.method) (p := p) (a := a) (b := b)
    rw [← hab] at hmethod
    rw [hlast.home _ (Typemaps.known_of_slotAt (Typemaps.slotAt_of_methodAt hmethod))]
    exact hlast.methodAt _ _ _ hmethod
  obtain ⟨n, hn⟩ := hstored.searchMulti (Option.isSome_of_eq_some hcode) P.name_ne fun p hp => by
    rw [hgrows.tm_scope]
    exact hends p hp
  exact ⟨n, fun fuel hfuel nmatch => ⟨e, hn fuel hfuel nmatch, hcode⟩⟩

/-- The pattern that has the template prefix as its last type. -/
def Pattern.prefixed (F : LawfulTypeFns) (P : Pattern) : Pattern where
  method := P.method
  before := P.before
  last := { P.last with type := templatePrefix (F.key P.last.type) }
  method_wf := P.method_wf
  before_wf := P.before_wf
  last_wf := P.last_wf

theorem key_templatePrefix (F : LawfulTypeFns) (t : SwigType) : F.key (templatePrefix t) = templatePrefix t :=
  if_neg (Bool.eq_false_iff.mp (Typemaps.not_istemplate_templatePrefix t))

theorem lastHome_eq (m : List Byte) :
    P.lastHome F T = (touchAll F.toTypeFns T m P.before).home F.toTypeFns P.last.type :=
  (home_touchAll m P.before P.last.type).symm

/-- A key under which the type is found before is the one it is registered under. -/
theorem home_eq_lastHome (h : T.Known (T.home F.toTypeFns P.last.type)) :
    T.home F.toTypeFns P.last.type = P.lastHome F T := by
  rw [lastHome_eq P.method]
  exact ((grows_touchAll F T P.method P.before).home _ h).symm

theorem same_of_slot (h : F.key P'.last.type = F.key P.last.type ∧ P'.last.name = P.last.name ∧ P'.op = P.op) :
    P'.Same F P :=
  ⟨(Pattern.op_inj h.2.2).1, (Pattern.op_inj h.2.2).2, h.1, h.2.1⟩

theorem registersAlone {c : List Byte} (hhome : P.lastHome F T = F.key P.last.type)
    (hends : ∀ p ∈ P.before, (Point.type T.tm_scope p.type none).Ends F.toTypeFns p.type) :
    RegistersAlone F T P c locals kwargs where
  found := searchMulti_register c hends
  others P' hother := by
    rw [Pattern.code, codeAt_register, hhome, if_neg fun h => hother (same_of_slot h)]
    rfl

theorem clearsAlone (hT : Grown F T) (hhome : P.lastHome F T = F.key P.last.type) : ClearsAlone F T P := by
  by_cases hfound : T.Found F P.parms
  · have hlast : (T.slotAt (T.home F.toTypeFns P.last.type) P.last.name).isSome :=
      hfound P.last (List.mem_append_right _ List.mem_cons_self)
    have hkey : T.home F.toTypeFns P.last.type = F.key P.last.type :=
      (home_eq_lastHome (Typemaps.known_of_slotAt hlast)).trans hhome
    constructor
    · rw [Pattern.code, codeAt_clear_of_found hfound, hkey, if_pos ⟨rfl, rfl, rfl⟩]
    · intro P' hother
      rw [Pattern.code, codeAt_clear_of_found hfound, hkey, if_neg fun h => hother (same_of_slot h)]
      rfl
  · refine ⟨?_, fun P' _ => by rw [clear_of_not_found hfound]⟩
    rw [clear_of_not_found hfound]
    by_contra hcode
    have hsome : (P.code F T).isSome := Option.isSome_iff_ne_none.mpr hcode
    refine hfound fun p hp => ?_
    rcases List.mem_append.mp hp with hp | hp
    · exact hT P hsome p hp
    · -- code for the pattern is in a slot of its last type
      have hslot := Typemaps.slotAt_of_methodAt (Typemaps.methodAt_of_codeAt hsome)
      rw [List.mem_singleton.mp hp, Typemaps.home_of_known (Typemaps.known_of_slotAt hslot)]
      exact hslot

/-- What is registered under the prefix takes the place of the typemap there. -/
theorem lastHome_eq_key {c : List Byte} (hT : Grown F T) (hregister : RegistersAlone F T P c locals kwargs)
    (hclear : ClearsAlone F T P) : P.lastHome F T = F.key P.last.type := by
  by_contra hhome
  rw [lastHome_eq P.method] at hhome
  rcases (touchAll F.toTypeFns T P.method P.before).home_eq_or F.toTypeFns P.last.type with
    hkey | ⟨ht, hunknown, -, hprefix⟩
  · exact hhome hkey
  · have hne : templatePrefix (F.key P.last.type) ≠ F.key P.last.type := hprefix ▸ hhome
    have hother : ¬(P.prefixed F).Same F P := fun h => hne ((key_templatePrefix F _).symm.trans h.2.2.1)
    have hslot : (P.prefixed F).code F T = some c := by
      rw [← hregister.others _ hother, Pattern.code, codeAt_register, lastHome_eq P.method, hprefix,
        if_pos ⟨key_templatePrefix F _, rfl, rfl⟩]
    have hsome : ((P.prefixed F).code F T).isSome := Option.isSome_of_eq_some hslot
    have hfound : T.Found F P.before := hT (P.prefixed F) hsome
    have hprefixSlot := Typemaps.slotAt_of_methodAt (Typemaps.methodAt_of_codeAt hsome)
    have hkey : F.key (P.prefixed F).last.type = templatePrefix (F.key P.last.type) := key_templatePrefix F _
    rw [hkey] at hprefixSlot
    have hT' : T.home F.toTypeFns P.last.type = templatePrefix (F.key P.last.type) :=
      Typemaps.home_of_templatePrefix ht (fun h => hunknown ((grows_touchAll F T _ _).known _ h))
        (Typemaps.known_of_slotAt hprefixSlot)
    have hall : T.Found F P.parms := by
      intro p hp
      rcases List.mem_append.mp hp with hp | hp
      · exact hfound p hp
      · rw [List.mem_singleton.mp hp, hT']
        exact hprefixSlot
    have hcleared : (P.prefixed F).code F (T.clearPattern F P) = none := by
      rw [Pattern.code, codeAt_clear_of_found hall, hT', if_pos ⟨key_templatePrefix F _, rfl, rfl⟩]
    rw [hclear.others _ hother, hslot] at hcleared
    cases hcleared

/-- Registering and clearing a pattern find it and leave the other ones alone exactly if the
hash its last type is registered in is not that of the template prefix. -/
theorem registersAlone_and_clearsAlone_iff (hT : Reachable F T) (P : Pattern) (c : List Byte) (locals : List Parm)
    (kwargs : List Kwarg) (hends : ∀ p ∈ P.before, (Point.type T.tm_scope p.type none).Ends F.toTypeFns p.type) :
    RegistersAlone F T P c locals kwargs ∧ ClearsAlone F T P ↔ P.lastHome F T = F.key P.last.type :=
  ⟨fun h => lastHome_eq_key hT.grown h.1 h.2, fun h => ⟨registersAlone h hends, clearsAlone hT.grown h⟩⟩

/-- Types without typedefs and without default arguments of templates. -/
def plainTypes : LawfulTypeFns where
  template_deftype := id
  type_qualify := id
  strip_qualifiers := id
  typedef_resolve := fun _ => none
  default := fun t => if t = lit "SWIGTYPE" then none else some (lit "SWIGTYPE")
  istemplate_key := fun t ht => by rwa [TypeFns.key, if_pos ht]

/-- `%typemap(in) vector` -/
def vectorPattern : Pattern where
  method := lit "in"
  before := []
  last := ⟨lit "vector", none, none⟩
  method_wf := by decide
  before_wf := fun _ h => absurd h List.not_mem_nil
  last_wf := nofun

/-- `%typemap(in) vector<int>` -/
def vectorIntPattern : Pattern :=
  { vectorPattern with last := ⟨lit "vector<(int)>", none, none⟩, last_wf := nofun }

/-- `%typemap(in) (int size, vector<int>)` -/
def sizedPattern : Pattern :=
  { vectorIntPattern with
    before := [⟨lit "int", some (lit "size"), none⟩]
    before_wf := by
      refine List.forall_mem_singleton.mpr ⟨.of_plain (List.all_iff_forall_prop.mp rfl), fun a b h => ?_, by decide, ?_⟩
      · have hplus : chr '+' ∈ lit "int" := by
          rw [show lit "int" = _ from h]
          exact List.mem_append_right a List.mem_cons_self
        exact absurd hplus (by decide)
      · rintro name ⟨⟩
        decide }

theorem registersAlone_and_clearsAlone_iff_sized :
    RegistersAlone plainTypes ⟨fun _ => .new, 0⟩ sizedPattern (lit "B") [] [] ∧
        ClearsAlone plainTypes ⟨fun _ => .new, 0⟩ sizedPattern ↔
      sizedPattern.lastHome plainTypes ⟨fun _ => .new, 0⟩ = lit "vector<(int)>" :=
  registersAlone_and_clearsAlone_iff .init sizedPattern (lit "B") [] []
    (List.forall_mem_singleton.mpr (.next (r := .default 0 (lit "SWIGTYPE")) rfl (.last rfl)))

/-- `%typemap(in) vector "A"` -/
def vectorStore : Typemaps :=
  Typemaps.registerPattern plainTypes ⟨fun _ => .new, 0⟩ vectorPattern (some (lit "A")) [] []

/-- The typemap of `vector` is replaced by that of `vector<int>`. -/
theorem not_registersAlone_vectorInt :
    ¬(RegistersAlone plainTypes vectorStore vectorIntPattern (lit "B") [] [] ∧
      ClearsAlone plainTypes vectorStore vectorIntPattern) := by
  rintro ⟨h, -⟩
  have hother : ¬vectorPattern.Same plainTypes vectorIntPattern := fun hsame => absurd hsame.2.2.1 (by decide)
  have hcode := h.others vectorPattern hother
  have hold : vectorPattern.code plainTypes vectorStore = some (lit "A") := by
    decide +kernel
  rw [hold, Pattern.code, codeAt_register, if_pos (by decide +kernel)] at hcode
  exact absurd hcode (by decide)

end Swig.Typemap
