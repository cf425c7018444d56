import Swig.SType.ArrayType

/-!
`Swig_symbol_template_defargs` (`symbol.c`): the arguments of a template are filled up
with default values. The guard compares the numbers of attributes of the first argument
and of the first parameter, and without arguments only one default value is added.
-/

namespace Swig.Symbol

open SType

/-! ### The function -/

/-- The node of a parameter. A text of `attrs` that is none stands for an attribute which
is not a string. -/
structure TemplateParm where
  type : Option SwigType
  name : Option (List Byte)
  value : Option (List Byte)
  attrs : List (List Byte × Option (List Byte))
  deriving DecidableEq

namespace TemplateParm

/-- `NewParm(type, 0)`. -/
def newParm (type : SwigType) : TemplateParm := ⟨some type, none, none, []⟩

/-- `CopyParm`. -/
def copyParm (p : TemplateParm) : TemplateParm := { p with attrs := p.attrs.filter (·.2.isSome) }

/-- The number of attributes of a node; `nodeType` is one of them. -/
def attributes (p : TemplateParm) : ℕ :=
  1 + p.type.toList.length + p.name.toList.length + p.value.toList.length + p.attrs.length

/-- The value of an argument, or else its type. -/
def text (p : TemplateParm) : List Byte := (p.value.or p.type).getD []

end TemplateParm

open TemplateParm

/-- `Len` of a list: the number of attributes of its first node, of which `nextSibling`
is one. -/
def len : List TemplateParm → ℕ
  | [] => 0
  | p :: ps => p.attributes + if ps = [] then 0 else 1

/-- The functions on texts, in the scope of the use (`tscope`) or of the declaration
(`tsdecl`) of the template. -/
structure ScopedFns where
  string_qualify_tsdecl : List Byte → List Byte
  type_qualify_tsdecl : List Byte → SwigType
  type_qualify_tscope : List Byte → List Byte
  template_deftype_tscope : SwigType → SwigType
  replaceid : List Byte → List Byte → List Byte → List Byte

namespace ScopedFns

variable (f : ScopedFns) (targs : List TemplateParm)

/-- The loop over the parameters and the arguments that stand for them; a name that is a
null pointer replaces nothing. -/
def substitute : List TemplateParm → List TemplateParm → List Byte → List Byte
  | ta :: tas, p :: ps, nt =>
      substitute tas ps
        (match ta.name with
        | some name => f.replaceid nt name (f.type_qualify_tscope p.text)
        | none => nt)
  | _, _, nt => nt

/-- The default argument for `value`, behind the arguments `parms`. -/
def defaultArg (parms : List TemplateParm) (value : List Byte) : TemplateParm :=
  let nt := f.substitute targs parms (f.string_qualify_tsdecl value)
  let ntq := f.type_qualify_tsdecl nt
  newParm (if istemplate ntq then f.template_deftype_tscope ntq else ntq)

/-- What `lp` points to: nothing, the last node of `parms`, or a node that is deleted. -/
inductive Last
  | null
  | node
  | deleted

/-- The loop over the parameters that are left; `expanded` is the list returned where it is
not `parms`. It fails when a deleted node gets a sibling. -/
def expandLoop : List TemplateParm → List TemplateParm → Option (List TemplateParm) → Last → Option (List TemplateParm)
  | [], parms, expanded, _ => some (expanded.getD parms)
  | tp :: tps, parms, expanded, lp =>
      match tp.value with
      | none => some (expanded.getD parms)
      | some value =>
          let cp := f.defaultArg targs parms value
          match lp with
          | .node => expandLoop tps (parms ++ [cp]) expanded .node
          -- only the copy is kept, and `cp` goes with `Delete(cp)`
          | .null => expandLoop tps parms (some [cp.copyParm]) .deleted
          | .deleted => none

/-- `Swig_symbol_template_defargs`. -/
def templateDefargs (parms : List TemplateParm) : Option (List TemplateParm) :=
  if len parms < len targs then
    f.expandLoop targs (targs.drop parms.length) parms none (if parms = [] then .null else .node)
  else some parms

/-! ### The full list of arguments -/

/-- The list `l` has an argument for every parameter: the given ones, and then the default
values with the arguments before them put in. -/
structure Expanded (parms l : List TemplateParm) : Prop where
  length : l.length = targs.length
  given : parms <+: l
  defaults : ∀ i tp value, parms.length ≤ i → targs[i]? = some tp → tp.value = some value →
    l[i]? = some (f.defaultArg targs (l.take i) value)

variable {f targs} {parms tps l : List TemplateParm}

/-- What the loop makes behind a node: one argument after the other, from the list before it. -/
structure Filled (f : ScopedFns) (targs tps parms l : List TemplateParm) : Prop where
  length : l.length = parms.length + tps.length
  given : parms <+: l
  defaults : ∀ i tp value, tps[i]? = some tp → tp.value = some value →
    l[parms.length + i]? = some (f.defaultArg targs (l.take (parms.length + i)) value)

theorem expandLoop_node (h : ∀ tp ∈ tps, tp.value.isSome) :
    ∃ l, f.expandLoop targs tps parms none .node = some l ∧ Filled f targs tps parms l := by
  induction tps generalizing parms with
  | nil => exact ⟨parms, rfl, rfl, List.prefix_rfl, fun i tp value htp => by cases htp⟩
  | cons tp tps ih =>
      obtain ⟨htp, htps⟩ := List.forall_mem_cons.mp h
      obtain ⟨value, hvalue⟩ := Option.isSome_iff_exists.mp htp
      obtain ⟨l, hl, hfilled⟩ := @ih (parms ++ [f.defaultArg targs parms value]) htps
      have hlength := hfilled.length
      rw [List.length_append, List.length_singleton] at hlength
      have hgiven : parms <+: l := (List.prefix_append _ _).trans hfilled.given
      refine ⟨l, by rw [expandLoop, hvalue]; exact hl, ⟨by rw [hlength, List.length_cons]; omega, hgiven, ?_⟩⟩
      intro i tp' value' htp' hvalue'
      cases i with
      | zero =>
          cases htp'
          obtain rfl : value = value' := Option.some.inj (hvalue.symm.trans hvalue')
          rw [Nat.add_zero, ← List.prefix_iff_eq_take.mp hgiven]
          obtain ⟨rest, hrest⟩ := hfilled.given
          rw [← hrest, List.append_assoc, List.getElem?_append_right (Nat.le_refl _), Nat.sub_self]
          rfl
      | succ i =>
          have hi := hfilled.defaults i tp' value' htp' hvalue'
          rw [List.length_append, List.length_singleton] at hi
          rwa [show parms.length + (i + 1) = parms.length + 1 + i by omega]

/-- Without arguments a second default value is linked to a deleted node. -/
theorem expandLoop_deleted {expanded : Option (List TemplateParm)} (h : ∀ tp ∈ tps, tp.value.isSome) (hne : tps ≠ []) :
    f.expandLoop targs tps parms expanded .deleted = none := by
  cases tps with
  | nil => exact absurd rfl hne
  | cons tp tps =>
      obtain ⟨value, hvalue⟩ := Option.isSome_iff_exists.mp (h tp List.mem_cons_self)
      rw [expandLoop, hvalue]

theorem len_pos (hne : targs ≠ []) : 0 < len targs := by
  cases targs with
  | nil => exact absurd rfl hne
  | cons p ps =>
      rw [len, attributes]
      omega

theorem filled_expanded (hlen : parms.length ≤ targs.length) (h : Filled f targs (targs.drop parms.length) parms l) :
    f.Expanded targs parms l where
  length := by
    rw [h.length, List.length_drop]
    omega
  given := h.given
  defaults i tp value hi htp hvalue := by
    have hdrop : (targs.drop parms.length)[i - parms.length]? = some tp := by
      rw [List.getElem?_drop, Nat.add_sub_cancel' hi]
      exact htp
    have hget := h.defaults (i - parms.length) tp value hdrop hvalue
    rwa [Nat.add_sub_cancel' hi] at hget

theorem expanded_self (h : parms.length = targs.length) : f.Expanded targs parms parms where
  length := h
  given := List.prefix_rfl
  defaults i tp value hi htp _ := by
    have hlt := (List.getElem?_eq_some_iff.mp htp).1
    omega

/-- The one default value that is added when there is no argument. -/
theorem expanded_single {tp : TemplateParm} {value : List Byte} (hvalue : tp.value = some value) :
    f.Expanded [tp] [] [f.defaultArg [tp] [] value] where
  length := rfl
  given := List.nil_prefix
  defaults i tp' value' _ htp' hvalue' := by
    obtain ⟨hi, htp'⟩ := List.getElem?_eq_some_iff.mp htp'
    obtain rfl : i = 0 := Nat.lt_one_iff.mp hi
    obtain rfl : tp = tp' := htp'
    obtain rfl : value = value' := Option.some.inj (hvalue.symm.trans hvalue')
    rfl

theorem templateDefargs_none {tp : TemplateParm} {targs : List TemplateParm}
    (hdefault : ∀ t ∈ tp :: targs, t.value.isSome) :
    f.templateDefargs (tp :: targs) [] =
      if targs = [] then some [f.defaultArg [tp] [] (tp.value.getD [])] else none := by
  obtain ⟨htp, htargs⟩ := List.forall_mem_cons.mp hdefault
  obtain ⟨value, hvalue⟩ := Option.isSome_iff_exists.mp htp
  have hguard : len [] < len (tp :: targs) := len_pos (List.cons_ne_nil _ _)
  rw [templateDefargs, if_pos hguard, if_pos rfl, List.length_nil, List.drop_zero, expandLoop,
    hvalue]
  cases targs with
  | nil => rfl
  | cons t ts => exact expandLoop_deleted htargs (List.cons_ne_nil _ _)

/-- All parameters get their arguments exactly if the guard lets the list be expanded, and
it is not empty or has one default value to come only. -/
theorem templateDefargs_expanded_iff (f : ScopedFns) (targs parms : List TemplateParm)
    (hlen : parms.length ≤ targs.length) (hdefault : ∀ tp ∈ targs.drop parms.length, tp.value.isSome) :
    (∃ l, f.templateDefargs targs parms = some l ∧ f.Expanded targs parms l) ↔
      parms.length = targs.length ∨ (parms = [] ∧ targs.length = 1) ∨ (parms ≠ [] ∧ len parms < len targs) := by
  constructor
  · rintro ⟨l, hl, hexpanded⟩
    by_cases hguard : len parms < len targs
    · cases parms with
      | cons p ps => exact .inr (.inr ⟨List.cons_ne_nil _ _, hguard⟩)
      | nil =>
          cases targs with
          | nil => exact .inl rfl
          | cons tp targs =>
              rw [templateDefargs_none hdefault] at hl
              split at hl
              · rename_i htargs
                exact .inr (.inl ⟨rfl, by rw [htargs, List.length_singleton]⟩)
              · cases hl
    · rw [templateDefargs, if_neg hguard] at hl
      cases hl
      exact .inl hexpanded.length
  · have hnode (hne : parms ≠ []) (hguard : len parms < len targs) :
        ∃ l, f.templateDefargs targs parms = some l ∧ f.Expanded targs parms l := by
      have hloop : ∃ l, f.expandLoop targs (targs.drop parms.length) parms none .node = some l ∧
          Filled f targs (targs.drop parms.length) parms l := expandLoop_node hdefault
      obtain ⟨l, hl, hfilled⟩ := hloop
      exact ⟨l, by rw [templateDefargs, if_pos hguard, if_neg hne, hl], filled_expanded hlen hfilled⟩
    rintro (hfull | ⟨rfl, hone⟩ | ⟨hne, hguard⟩)
    · by_cases hguard : len parms < len targs
      · refine hnode (fun hnil => ?_) hguard
        rw [hnil, List.length_nil] at hfull
        rw [hnil, List.eq_nil_of_length_eq_zero hfull.symm] at hguard
        exact absurd hguard (Nat.lt_irrefl _)
      · exact ⟨parms, by rw [templateDefargs, if_neg hguard], expanded_self hfull⟩
    · obtain ⟨tp, rfl⟩ := List.length_eq_one_iff.mp hone
      obtain ⟨value, hvalue⟩ := Option.isSome_iff_exists.mp (hdefault tp List.mem_cons_self)
      refine ⟨[f.defaultArg [tp] [] value], ?_, expanded_single hvalue⟩
      rw [templateDefargs_none hdefault, if_pos rfl, hvalue]
      rfl
    · exact hnode hne hguard

/-- Texts without declarations. -/
def plainFns : ScopedFns where
  string_qualify_tsdecl := id
  type_qualify_tsdecl := id
  type_qualify_tscope := id
  template_deftype_tscope := id
  replaceid := fun nt name rep => if nt = name then rep else nt

/-- `class T, class U, class C = T`, of which the first two are not named in one case. -/
def threeParms (named : Bool) : List TemplateParm :=
  let plain (name : List Byte) : TemplateParm := ⟨some (lit "class"), if named then some name else none, none, []⟩
  [plain (lit "T"), plain (lit "U"),
    ⟨some (lit "class C"), some (lit "C"), some (if named then lit "T" else lit "int"), []⟩]

def twoArgs : List TemplateParm := [newParm (lit "double"), newParm (lit "char")]

theorem templateDefargs_expanded_iff_threeParms :
    (∃ l, plainFns.templateDefargs (threeParms true) twoArgs = some l ∧ plainFns.Expanded (threeParms true) twoArgs l) ↔
      twoArgs.length = (threeParms true).length ∨ (twoArgs = [] ∧ (threeParms true).length = 1) ∨
        (twoArgs ≠ [] ∧ len twoArgs < len (threeParms true)) :=
  templateDefargs_expanded_iff plainFns (threeParms true) twoArgs (by decide) (by decide)

/-- The node of the first argument has as many attributes as that of a parameter without a name. -/
theorem not_expanded_unnamed :
    ¬∃ l, plainFns.templateDefargs (threeParms false) twoArgs = some l ∧
      plainFns.Expanded (threeParms false) twoArgs l := by
  rintro ⟨l, hl, hexpanded⟩
  rw [templateDefargs, if_neg (by decide)] at hl
  cases hl
  exact absurd hexpanded.length (by decide)

end ScopedFns

end Swig.Symbol
