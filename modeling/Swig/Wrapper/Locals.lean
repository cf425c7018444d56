import Mathlib.Data.Set.Finite.Basic
import Swig.DOH.Attributes
import Swig.DOH.ReplaceWords
import Swig.DOH.Sprintf
import Swig.Lib.Fuel

/-!
The local variables of a wrapper function (`wrapfunc.c`).
-/

namespace Swig

open DOH
open Errors (decimal digitsVal)
open Fuel

/-- The text of the declarations, and the declaration of each name. -/
structure Wrapper where
  locals : List Byte
  localh : Hash (List Byte)

namespace Wrapper

/-- A wrapper without locals. -/
def new : Wrapper := { locals := [], localh := newHash }

/-- `Wrapper_check_local`. -/
def checkLocal (w : Wrapper) (name : List Byte) : Bool := (getObject w.localh name).isSome

/-- The declaration is recorded and printed. -/
def declare (w : Wrapper) (name decl : List Byte) : Wrapper :=
  { locals := w.locals ++ (decl ++ lit ";\n"), localh := (setObject w.localh name decl).2 }

/-- `Wrapper_add_local`. -/
def addLocal (w : Wrapper) (name decl : List Byte) : ℤ × Wrapper :=
  if w.checkLocal name then (-1, w) else (0, w.declare name decl)

/-- The loop of `Wrapper_new_local`. -/
def nameLoop (w : Wrapper) (name : List Byte) : ℕ → List Byte → ℕ → Option (List Byte)
  | 0, _, _ => none
  | fuel + 1, nname, i => if w.checkLocal nname then nameLoop w name fuel (name ++ decimal i) (i + 1) else some nname

/-- `Wrapper_new_local`. -/
def newLocal (fuel : ℕ) (w : Wrapper) (name decl : List Byte) : Option (List Byte × Wrapper) := do
  let nname ← w.nameLoop name fuel name 0
  let ndecl ← replaceText decl name nname DOH_REPLACE_ID
  return (nname, w.declare nname ndecl)

end Wrapper

/-! ### Declarations -/

/-- A declaration of one variable: its pieces before the name and behind it. -/
structure Declaration where
  before : List Piece
  name : List Byte
  after : List Piece
  separated : Separated (before ++ .word name :: after)
  nulFree : .other 0 ∉ before ++ .word name :: after

namespace Declaration

def pieces (d : Declaration) : List Piece := d.before ++ .word d.name :: d.after

def text (d : Declaration) : List Byte := render d.pieces

theorem separated_word {ps qs : List Piece} {w : List Byte} (h : Separated (ps ++ .word w :: qs)) : IsWord w := by
  induction ps with
  | nil =>
      cases h with
      | word hw _ _ => exact hw
  | cons p ps ih =>
      cases h with
      | other _ h => exact ih h
      | word _ _ h => exact ih h

theorem isWord (d : Declaration) : IsWord d.name := separated_word d.separated

variable {d : Declaration} {n : List Byte}

theorem isWord_replace {name rep : List Byte} (hrep : IsWord rep) {w : List Byte} (hw : IsWord w) :
    IsWord (if w = name then rep else w) := by
  split
  · exact hrep
  · exact hw

theorem map_pieces (d : Declaration) (n : List Byte) : d.pieces.map (replaceWord d.name n) =
    d.before.map (replaceWord d.name n) ++ .word n :: d.after.map (replaceWord d.name n) := by
  have hname : replaceWord d.name n (.word d.name) = .word n := congrArg Piece.word (if_pos rfl)
  rw [pieces, List.map_append, List.map_cons, hname]

/-- The name is exchanged in every place. -/
def rename (d : Declaration) (n : List Byte) (hn : IsWord n) : Declaration where
  before := d.before.map (replaceWord d.name n)
  name := n
  after := d.after.map (replaceWord d.name n)
  separated := map_pieces d n ▸ d.separated.map fun _ hw => isWord_replace hn hw
  nulFree := map_pieces d n ▸ fun h => d.nulFree (other_mem_map.mp h)

theorem replaceText_text (d : Declaration) (hn : IsWord n) :
    replaceText d.text d.name n DOH_REPLACE_ID = some (d.rename n hn).text := by
  have hnul : ∀ c ∈ n, c ≠ 0 := fun c hc => isIdent_ne_zero (hn.2 c hc)
  rw [text, pieces, replaceText_render d.isWord hnul d.separated d.nulFree]
  exact congrArg (some ∘ render) (map_pieces d n)

theorem replaceWord_eq_self_iff {name rep : List Byte} {p : Piece} :
    replaceWord name rep p = p ↔ rep = name ∨ p ≠ .word name := by
  cases p with
  | other c => exact ⟨fun _ => .inr nofun, fun _ => rfl⟩
  | word w =>
      rw [replaceWord, Piece.map, Piece.word.injEq, ne_eq, Piece.word.injEq]
      by_cases hw : w = name
      · rw [if_pos hw, hw]
        exact ⟨.inl, fun h => h.resolve_right fun hne => hne rfl⟩
      · rw [if_neg hw]
        exact ⟨fun _ => .inr hw, fun _ => rfl⟩

/-- Only the variable is renamed where its name stands in no other place. -/
theorem pieces_rename_iff (d : Declaration) (hn : IsWord n) :
    (d.rename n hn).pieces = d.before ++ .word n :: d.after ↔ n = d.name ∨ .word d.name ∉ d.before ++ d.after := by
  have hkeep (ps : List Piece) : ps.map (replaceWord d.name n) = ps ↔ n = d.name ∨ .word d.name ∉ ps := by
    have hall : ps.map (replaceWord d.name n) = ps ↔ ∀ p ∈ ps, replaceWord d.name n p = p := by
      conv_lhs => rw [← List.map_id ps, List.map_map, List.map_inj_left]
      rfl
    rw [hall]
    constructor
    · intro h
      by_cases heq : n = d.name
      · exact .inl heq
      · exact .inr fun hmem => (replaceWord_eq_self_iff.mp (h _ hmem)).elim heq fun hne => hne rfl
    · rintro (heq | hnot) p hp
      · exact replaceWord_eq_self_iff.mpr (.inl heq)
      · exact replaceWord_eq_self_iff.mpr (.inr fun h => hnot (h ▸ hp))
  have hlen : (d.before.map (replaceWord d.name n)).length = d.before.length := List.length_map _
  rw [List.mem_append, not_or, or_and_left, ← hkeep, ← hkeep]
  constructor
  · intro h
    obtain ⟨hbefore, hafter⟩ := List.append_inj h hlen
    exact ⟨hbefore, (List.cons.inj hafter).2⟩
  · rintro ⟨hbefore, hafter⟩
    exact congr (congrArg HAppend.hAppend hbefore) (congrArg (Piece.word n :: ·) hafter)

end Declaration

/-! ### New names -/

namespace Wrapper

variable {w : Wrapper} {name : List Byte} {i k fuel : ℕ}

/-- The names tried. -/
def candidate (name : List Byte) : ℕ → List Byte
  | 0 => name
  | i + 1 => name ++ decimal i

theorem candidate_injective (name : List Byte) : Function.Injective (candidate name) := by
  intro i j h
  cases i with
  | zero =>
      cases j with
      | zero => rfl
      | succ j => exact absurd (List.self_eq_append_right.mp h) Errors.decimal_ne_nil
  | succ i =>
      cases j with
      | zero => exact absurd (List.self_eq_append_right.mp h.symm) Errors.decimal_ne_nil
      | succ j =>
          have hdec : decimal i = decimal j := List.append_cancel_left h
          rw [← digitsVal_decimal i, hdec, digitsVal_decimal]

theorem candidate_isWord (hname : IsWord name) (i : ℕ) : IsWord (candidate name i) := by
  cases i with
  | zero => exact hname
  | succ i =>
      refine ⟨fun h => hname.1 (List.append_eq_nil_iff.mp h).1, fun c hc => ?_⟩
      rcases List.mem_append.mp hc with hc | hc
      · exact hname.2 c hc
      · have hdigit := Errors.isdigit_of_mem_decimal hc
        rw [isIdent, isalnum, hdigit, Bool.or_true, Bool.true_or]

theorem nameLoop_eq (hused : ∀ j < k, w.checkLocal (candidate name (i + j)) = true)
    (hfree : w.checkLocal (candidate name (i + k)) = false) (hfuel : k < fuel) :
    w.nameLoop name fuel (candidate name i) i = some (candidate name (i + k)) := by
  induction k generalizing i fuel with
  | zero =>
      obtain ⟨fuel, rfl⟩ := Nat.exists_eq_add_of_le' hfuel
      exact if_neg (Bool.eq_false_iff.mp hfree)
  | succ k ih =>
      obtain ⟨fuel, rfl⟩ := Nat.exists_eq_add_of_le' (Nat.one_le_of_lt hfuel)
      have hround : w.nameLoop name (fuel + 1) (candidate name i) i =
          w.nameLoop name fuel (candidate name (i + 1)) (i + 1) :=
        if_pos (hused 0 (Nat.succ_pos k))
      rw [hround]
      have hrest := ih (i := i + 1) (fun j hj => ?_) ?_ (Nat.lt_of_succ_lt_succ hfuel)
      · rw [show i + (k + 1) = i + 1 + k by omega]
        exact hrest
      · rw [show i + 1 + j = i + (j + 1) by omega]
        exact hused (j + 1) (Nat.succ_lt_succ hj)
      · rw [show i + 1 + k = i + (k + 1) by omega]
        exact hfree

/-- Of all names tried, finitely many are used. -/
theorem exists_unused (hv : w.localh.Valid) (name : List Byte) : ∃ k, w.checkLocal (candidate name k) = false := by
  obtain ⟨keys, -, -, hkeys⟩ := hv.keys
  have hinf := Set.infinite_range_of_injective (candidate_injective name)
  obtain ⟨-, ⟨k, rfl⟩, hk⟩ := hinf.exists_notMem_finset keys.toFinset
  refine ⟨k, Bool.eq_false_iff.mpr fun hused => hk (List.mem_toFinset.mpr ?_)⟩
  exact (hkeys _).mpr hused

theorem nameLoop_returns (hv : w.localh.Valid) (name : List Byte) : ∃ k, w.checkLocal (candidate name k) = false ∧
    Returns (fun fuel => w.nameLoop name fuel name 0) (candidate name k) := by
  obtain ⟨k, hk, hmin⟩ := Nat.findX (exists_unused hv name)
  have hused : ∀ j < k, w.checkLocal (candidate name (0 + j)) = true := by
    intro j hj
    rw [Nat.zero_add]
    exact Bool.not_eq_false _ ▸ hmin j hj
  refine ⟨k, hk, k + 1, fun fuel hfuel => ?_⟩
  have hloop := nameLoop_eq hused (by rwa [Nat.zero_add]) hfuel
  rwa [Nat.zero_add] at hloop

theorem newLocal_returns (hv : w.localh.Valid) (d : Declaration) : ∃ n, ∃ hn : IsWord n, w.checkLocal n = false ∧
    Returns (fun fuel => newLocal fuel w d.name d.text) (n, w.declare n (d.rename n hn).text) := by
  obtain ⟨k, hk, hloop⟩ := nameLoop_returns hv d.name
  have hn := candidate_isWord d.isWord k
  refine ⟨candidate d.name k, hn, hk, ?_⟩
  refine hloop.bind ?_
  rw [d.replaceText_text hn]
  exact .const _

end Wrapper

/-! ### Calls -/

inductive Call
  | add (d : Declaration)
  | new (d : Declaration)

/-- A call, with the status or the name that it returns. -/
def Call.run (fuel : ℕ) (w : Wrapper) : Call → Option ((ℤ ⊕ List Byte) × Wrapper)
  | add d => some (.inl (w.addLocal d.name d.text).1, (w.addLocal d.name d.text).2)
  | new d => (w.newLocal fuel d.name d.text).map fun r => (.inr r.1, r.2)

def runCalls (fuel : ℕ) : List Call → Wrapper → Option (List (ℤ ⊕ List Byte) × Wrapper)
  | [], w => some ([], w)
  | c :: cs, w => do
      let (r, w) ← c.run fuel w
      let (rs, w) ← runCalls fuel cs w
      return (r :: rs, w)

/-- A call after the declarations `ds`: what it returns, and the declarations after it. -/
inductive Call.Gives (ds : List Declaration) : Call → ℤ ⊕ List Byte → List Declaration → Prop
  | present (d : Declaration) (h : d.name ∈ ds.map Declaration.name) : Gives ds (.add d) (.inl (-1)) ds
  | added (d : Declaration) (h : d.name ∉ ds.map Declaration.name) : Gives ds (.add d) (.inl 0) (ds ++ [d])
  | named (d : Declaration) (n : List Byte) (hn : IsWord n) (h : n ∉ ds.map Declaration.name) :
      Gives ds (.new d) (.inr n) (ds ++ [d.rename n hn])

inductive Gives : List Declaration → List Call → List (ℤ ⊕ List Byte) → List Declaration → Prop
  | nil (ds : List Declaration) : Gives ds [] [] ds
  | cons {ds ds' ds'' : List Declaration} {c : Call} {cs : List Call} {r : ℤ ⊕ List Byte} {rs : List (ℤ ⊕ List Byte)}
      (hc : c.Gives ds r ds') (hcs : Gives ds' cs rs ds'') : Gives ds (c :: cs) (r :: rs) ds''

/-- The wrapper has the declarations `ds`, each of another name. -/
structure Wrapper.Declares (w : Wrapper) (ds : List Declaration) : Prop where
  valid : w.localh.Valid
  locals_eq : w.locals = ds.flatMap fun d => d.text ++ lit ";
"
  used_iff : ∀ n, w.checkLocal n = true ↔ n ∈ ds.map Declaration.name
  nodup : (ds.map Declaration.name).Nodup

namespace Wrapper.Declares

variable {w : Wrapper} {ds : List Declaration}

theorem new : Wrapper.new.Declares [] where
  valid := valid_newHash
  locals_eq := rfl
  used_iff n := by
    have hempty : getObject (newHash : Hash (List Byte)) n = none := represents_newHash.getObject n
    rw [checkLocal, Wrapper.new, hempty]
    exact ⟨nofun, nofun⟩
  nodup := List.nodup_nil

theorem declare (h : w.Declares ds) {d : Declaration} (hd : d.name ∉ ds.map Declaration.name) :
    (w.declare d.name d.text).Declares (ds ++ [d]) := by
  refine ⟨h.valid.set _ _, ?_, fun n => ?_, ?_⟩
  · rw [Wrapper.declare, h.locals_eq, List.flatMap_append, List.flatMap_singleton]
  · rw [checkLocal, Wrapper.declare, getObject_set h.valid, List.map_append, List.mem_append, List.map_singleton,
      List.mem_singleton, ← h.used_iff n]
    by_cases hn : n = d.name
    · simp [hn]
    · simp [hn, checkLocal]
  · rw [List.map_append, List.map_singleton]
    exact h.nodup.append (List.nodup_singleton _) (List.disjoint_singleton.mpr hd)

theorem call (h : w.Declares ds) (c : Call) : ∃ r w' ds', Returns (fun fuel => c.run fuel w) (r, w') ∧
    c.Gives ds r ds' ∧ w'.Declares ds' := by
  cases c with
  | add d =>
      by_cases hused : d.name ∈ ds.map Declaration.name
      · refine ⟨_, w, ds, ?_, .present d hused, h⟩
        have hadd : w.addLocal d.name d.text = (-1, w) := if_pos ((h.used_iff _).mpr hused)
        simp only [Call.run, hadd]
        exact .const _
      · refine ⟨_, _, _, ?_, .added d hused, h.declare hused⟩
        have hadd : w.addLocal d.name d.text = (0, w.declare d.name d.text) :=
          if_neg (mt (h.used_iff _).mp hused)
        simp only [Call.run, hadd]
        exact .const _
  | new d =>
      obtain ⟨n, hn, hfree, hreturns⟩ := newLocal_returns h.valid d
      have hunused : n ∉ ds.map Declaration.name :=
        mt (h.used_iff n).mpr (Bool.eq_false_iff.mp hfree)
      exact ⟨_, _, _, hreturns.map _, .named d n hn hunused, h.declare (d := d.rename n hn) hunused⟩

theorem calls (h : w.Declares ds) (cs : List Call) : ∃ rs w' ds', Returns (fun fuel => runCalls fuel cs w) (rs, w') ∧
    Gives ds cs rs ds' ∧ w'.Declares ds' := by
  induction cs generalizing w ds with
  | nil => exact ⟨[], w, ds, .const _, .nil ds, h⟩
  | cons c cs ih =>
      obtain ⟨r, w₁, ds₁, hcall, hgives, h₁⟩ := h.call c
      obtain ⟨rs, w₂, ds₂, hcalls, hrest, h₂⟩ := ih h₁
      exact ⟨r :: rs, w₂, ds₂, hcall.bind (hcalls.bind (.const _)), .cons hgives hrest, h₂⟩

end Wrapper.Declares

/-- After any calls the text holds one declaration for each name in the table, the names in the table are
distinct, and every new local has got a name that no earlier one has. -/
theorem runCalls_declares (cs : List Call) : ∃ rs w ds, Returns (fun fuel => runCalls fuel cs Wrapper.new) (rs, w) ∧
    Gives [] cs rs ds ∧ (w.locals = ds.flatMap fun d => d.text ++ lit ";
") ∧ (ds.map Declaration.name).Nodup ∧
    ∃ keys, hashKeys w.localh (w.localh.nodes.length + 1) = some keys ∧ keys.Nodup ∧
      ∀ n, n ∈ keys ↔ n ∈ ds.map Declaration.name := by
  obtain ⟨rs, w, ds, hreturns, hgives, h⟩ := Wrapper.Declares.new.calls cs
  obtain ⟨keys, hkeys, hnodup, hmem⟩ := h.valid.keys
  exact ⟨rs, w, ds, hreturns, hgives, h.locals_eq, h.nodup, keys, hkeys, hnodup,
    fun n => (hmem n).trans (h.used_iff n)⟩

end Swig
