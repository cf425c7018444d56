import Swig.Typemap.Register
import Swig.Lib.Brackets

/-!
The names of operators: the method and the parameters before the last one can be read
back from them.
-/

namespace Swig.Typemap

open DOH SType Brackets

/-- The operator under which the parameters after `before` are stored. -/
def operator (tmap_method : List Byte) (before : List Parm) : List Byte := before.foldl newop tmap_method

/-- A parameter as it is declared: its type has a `+` in parentheses only, and its name, if
there is one, is an identifier. -/
structure Parm.WellFormed (p : Parm) : Prop where
  balanced : Balanced (chr '(') (chr ')') p.type
  plus : ∀ a b, p.type = a ++ chr '+' :: b → ¬Balanced (chr '(') (chr ')') a
  name : p.name ≠ some []
  colon : ∀ name ∈ p.name, chr ':' ∉ name

/-- What of a parameter is written. -/
def Parm.pattern (p : Parm) : SwigType × Option (List Byte) := (p.type, p.name)

/-- What is written for a parameter. -/
def item (p : Parm) : List Byte := chr '-' :: (p.type ++ (chr '+' :: (p.name.getD [] ++ [chr ':'])))

variable {p p' : Parm} {ps ps' : List Parm} {m m' : List Byte}

theorem newop_eq (m : List Byte) (p : Parm) : newop m p = m ++ item p := rfl

theorem operator_eq (m : List Byte) (ps : List Parm) : operator m ps = m ++ ps.flatMap item := by
  induction ps generalizing m with
  | nil => exact (List.append_nil m).symm
  | cons p ps ih =>
      change operator (newop m p) ps = _
      rw [ih, newop_eq, List.flatMap_cons, List.append_assoc]

/-- Two texts that end with the first delimiter. -/
theorem append_cons_inj {c : Byte} {s s' r r' : List Byte} (hs : ∀ a, s' ≠ s ++ c :: a) (hs' : ∀ a, s ≠ s' ++ c :: a)
    (h : s ++ c :: r = s' ++ c :: r') : s = s' ∧ r = r' := by
  rcases List.append_eq_append_iff.mp h with ⟨as, hsas, hr⟩ | ⟨as, hsas, hr⟩
  · cases as with
    | nil =>
        rw [List.append_nil] at hsas
        exact ⟨hsas.symm, by simpa using hr⟩
    | cons b as =>
        obtain ⟨rfl, -⟩ := List.cons.inj hr
        exact absurd hsas (hs as)
  · cases as with
    | nil =>
        rw [List.append_nil] at hsas
        exact ⟨hsas, by simpa using hr.symm⟩
    | cons b as =>
        obtain ⟨rfl, -⟩ := List.cons.inj hr
        exact absurd hsas (hs' as)

theorem Parm.WellFormed.colon_notMem (h : p.WellFormed) : chr ':' ∉ p.name.getD [] := by
  cases hname : p.name with
  | none => exact List.not_mem_nil
  | some name => exact h.colon name (Option.mem_def.mpr hname)

theorem name_eq (h : p.name ≠ some []) (h' : p'.name ≠ some []) (heq : p.name.getD [] = p'.name.getD []) :
    p.name = p'.name := by
  cases hn : p.name with
  | none =>
      cases hn' : p'.name with
      | none => rfl
      | some name' =>
          rw [hn, hn'] at heq
          exact absurd (hn'.trans (congrArg some heq.symm)) h'
  | some name =>
      cases hn' : p'.name with
      | none =>
          rw [hn, hn'] at heq
          exact absurd (hn.trans (congrArg some heq)) h
      | some name' =>
          rw [hn, hn'] at heq
          exact congrArg some heq

theorem item_append_inj (h : p.WellFormed) (h' : p'.WellFormed) {r r' : List Byte}
    (heq : item p ++ r = item p' ++ r') : p.pattern = p'.pattern ∧ r = r' := by
  simp only [item, List.cons_append, List.append_assoc, List.cons.injEq, true_and, List.nil_append] at heq
  obtain ⟨htype, heq⟩ := append_cons_inj (fun a ha => h'.plus _ a ha h.balanced)
    (fun a ha => h.plus _ a ha h'.balanced) heq
  have hnotMem {s s' : List Byte} (hs : chr ':' ∉ s) (a : List Byte) : s ≠ s' ++ chr ':' :: a := fun ha =>
    hs (ha ▸ List.mem_append_right _ List.mem_cons_self)
  obtain ⟨hname, hr⟩ := append_cons_inj (hnotMem h'.colon_notMem) (hnotMem h.colon_notMem) heq
  exact ⟨Prod.ext htype (name_eq h.name h'.name hname), hr⟩

theorem items_inj (h : ∀ p ∈ ps, p.WellFormed) (h' : ∀ p ∈ ps', p.WellFormed)
    (heq : ps.flatMap item = ps'.flatMap item) : ps.map Parm.pattern = ps'.map Parm.pattern := by
  induction ps generalizing ps' with
  | nil =>
      cases ps' with
      | nil => rfl
      | cons p' ps' => cases heq
  | cons p ps ih =>
      cases ps' with
      | nil => cases heq
      | cons p' ps' =>
          obtain ⟨hp, hps⟩ := List.forall_mem_cons.mp h
          obtain ⟨hp', hps'⟩ := List.forall_mem_cons.mp h'
          rw [List.flatMap_cons, List.flatMap_cons] at heq
          obtain ⟨hpattern, hrest⟩ := item_append_inj hp hp' heq
          rw [List.map_cons, List.map_cons, hpattern, ih hps hps' hrest]

/-- The method ends at the first `-`. -/
theorem takeWhile_operator (hm : chr '-' ∉ m) (ps : List Parm) :
    (operator m ps).takeWhile (· != chr '-') = m := by
  have hpos : ∀ c ∈ m, (c != chr '-') = true := fun c hc => bne_iff_ne.mpr fun h => hm (h ▸ hc)
  rw [operator_eq, List.takeWhile_append_of_pos hpos]
  have hstop : (ps.flatMap item).takeWhile (· != chr '-') = [] := by
    cases ps with
    | nil => rfl
    | cons p ps => rfl
  rw [hstop, List.append_nil]

theorem operator_inj (hm : chr '-' ∉ m) (hm' : chr '-' ∉ m') (h : ∀ p ∈ ps, p.WellFormed)
    (h' : ∀ p ∈ ps', p.WellFormed) (heq : operator m ps = operator m' ps') :
    m = m' ∧ ps.map Parm.pattern = ps'.map Parm.pattern := by
  have hmethod : m = m' := by
    rw [← takeWhile_operator hm ps, heq, takeWhile_operator hm']
  refine ⟨hmethod, items_inj h h' ?_⟩
  rw [operator_eq, operator_eq, hmethod] at heq
  exact List.append_cancel_left heq

end Swig.Typemap
