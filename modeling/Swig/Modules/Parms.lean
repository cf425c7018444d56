import Mathlib.Data.List.Basic
import Mathlib.Tactic.Common

/-!
Parameter lists with their `in` and `typecheck` typemaps attached (`emit.cxx`).

A list of parameters is the list of siblings from its first one on. The link
`tmap:in:next` leads behind the parameters the typemap covers; where it is
null there are no parameters left.
-/

namespace Swig.Modules

/-- A symbol in the code of a typecheck typemap: a character, `$implicitconv` or
`$input`. The local variable of the parameter already has the name `_v`. -/
inductive Symbol
  | char (c : Char)
  | implicitconv
  | input
  deriving DecidableEq

abbrev TypecheckCode := List Symbol

/-- `Replaceall(tm, "$implicitconv", conv)`. -/
def replaceImplicitconv (conv : String) (tm : TypecheckCode) : TypecheckCode :=
  tm.flatMap fun
    | .implicitconv => conv.toList.map .char
    | s => [s]

/-- The attributes `tmap:in:numinputs` and `tmap:in:next`. The typemap directive
refuses more than one input. `more` counts the parameters it covers besides
the one it is attached to. -/
structure InTypemap where
  numinputs : ℕ
  more : ℕ
  numinputs_le : numinputs ≤ 1
  deriving DecidableEq

/-- A typemap for one parameter, which takes one argument. -/
def InTypemap.single : InTypemap := ⟨1, 0, Nat.le_refl 1⟩

structure Parm where
  tmap_in : Option InTypemap
  tmap_typecheck : Option TypecheckCode
  tmap_default : Bool
  value : Bool
  implicitconv : Option String
  compactdefargs : Bool
  emit_varargs : Bool
  deriving DecidableEq

namespace Parm

/-- `checkAttribute(p, "tmap:in:numinputs", "0")`. -/
def ignored (p : Parm) : Bool := p.tmap_in.any (·.numinputs == 0)

/-- The code a dispatcher prints to check an argument, apart from the argument. -/
def typecheck (p : Parm) : Option TypecheckCode :=
  p.tmap_typecheck.map (replaceImplicitconv (p.implicitconv.getD "0"))

end Parm

/-- The parameters a loop of the dispatchers looks at. It goes on with
`tmap:in:next`; where that is null, with the next sibling, unless the typemap
takes no input. `skip` parameters are covered by a typemap before. -/
def walk : (skip : ℕ) → List Parm → List Parm
  | _, [] => []
  | skip + 1, _ :: ps => walk skip ps
  | 0, p :: ps =>
      match p.tmap_in with
      | none => p :: walk 0 ps
      | some tm =>
          if tm.numinputs = 0 then walk tm.more ps
          else p :: walk (if ps.drop tm.more = [] then 0 else tm.more) ps

/-- `emit_num_arguments` behind `skip` parameters. -/
def numArguments : (skip : ℕ) → List Parm → ℕ
  | _, [] => 0
  | skip + 1, _ :: ps => numArguments skip ps
  | 0, p :: ps =>
      match p.tmap_in with
      | none => numArguments 0 ps
      | some tm => tm.numinputs + numArguments tm.more ps

def emitNumArguments (parms : List Parm) : ℕ := numArguments 0 parms

/-- `ParmList_is_compactdefargs`: set on the first or the second parameter. -/
def isCompactdefargs (parms : List Parm) : Bool := (parms.take 2).any (·.compactdefargs)

/-- The loop of `emit_num_required`; its error messages are left out. -/
def numRequired (compactdefargs : Bool) : (skip : ℕ) → List Parm → ℕ
  | _, [] => 0
  | skip + 1, _ :: ps => numRequired compactdefargs skip ps
  | 0, p :: ps =>
      match p.tmap_in with
      | none =>
          if p.tmap_default ∨ p.value ∧ compactdefargs then 0 else numRequired compactdefargs 0 ps
      | some tm =>
          if tm.numinputs = 0 then numRequired compactdefargs tm.more ps
          else if p.tmap_default ∨ p.value ∧ compactdefargs then 0
          else tm.numinputs + numRequired compactdefargs tm.more ps

def emitNumRequired (parms : List Parm) : ℕ := numRequired (isCompactdefargs parms) 0 parms

def emitIsvarargs (parms : List Parm) : Bool := parms.head?.any (·.emit_varargs)

/-! ### The parameters that take an argument -/

/-- The parameters whose `in` typemap takes an argument, in order: the one at
index `i` takes the argument at position `i`. -/
def inputsFrom : (skip : ℕ) → List Parm → List Parm
  | _, [] => []
  | skip + 1, _ :: ps => inputsFrom skip ps
  | 0, p :: ps =>
      match p.tmap_in with
      | none => inputsFrom 0 ps
      | some tm => List.replicate tm.numinputs p ++ inputsFrom tm.more ps

def inputs (parms : List Parm) : List Parm := inputsFrom 0 parms

/-- A parameter without an `in` typemap, as the dots of a function with
variable arguments are, has no parameter behind it that takes an argument. -/
def mappedFrom : (skip : ℕ) → List Parm → Prop
  | _, [] => True
  | skip + 1, _ :: ps => mappedFrom skip ps
  | 0, p :: ps =>
      match p.tmap_in with
      | none => inputsFrom 0 ps = []
      | some tm => mappedFrom tm.more ps

def Mapped (parms : List Parm) : Prop := mappedFrom 0 parms

theorem length_inputsFrom (skip : ℕ) (parms : List Parm) :
    (inputsFrom skip parms).length = numArguments skip parms := by
  fun_induction numArguments skip parms with
  | case1 => simp [inputsFrom]
  | case2 _ _ _ ih => rw [inputsFrom, ih]
  | case3 p ps h ih => simp [inputsFrom, h, ih]
  | case4 p ps tm h ih => simp [inputsFrom, h, ih]

theorem length_inputs (parms : List Parm) : (inputs parms).length = emitNumArguments parms :=
  length_inputsFrom 0 parms

theorem inputsFrom_of_drop_eq_nil {skip : ℕ} {parms : List Parm} (h : parms.drop skip = []) :
    inputsFrom skip parms = [] := by
  induction parms generalizing skip with
  | nil => simp [inputsFrom]
  | cons p ps ih =>
      cases skip with
      | zero => simp at h
      | succ skip => exact ih (by simpa using h)

/-- The loop meets the parameters that take an argument, and behind the last of
them maybe some that take none. -/
theorem walk_eq {skip : ℕ} {parms : List Parm} (h : mappedFrom skip parms) :
    ∃ rest, walk skip parms = inputsFrom skip parms ++ rest := by
  fun_induction walk skip parms with
  | case1 => exact ⟨[], by simp [inputsFrom]⟩
  | case2 skip p ps ih => exact ih h
  | case3 p ps hin ih =>
      have hnil : inputsFrom 0 ps = [] := by simpa [mappedFrom, hin] using h
      exact ⟨p :: walk 0 ps, by simp [inputsFrom, hin, hnil]⟩
  | case4 p ps tm hin hzero ih =>
      obtain ⟨rest, hrest⟩ := ih (by simpa [mappedFrom, hin] using h)
      exact ⟨rest, by simp [inputsFrom, hin, hzero, hrest]⟩
  | case5 p ps tm hin hzero ih =>
      have hone : tm.numinputs = 1 := by
        have := tm.numinputs_le
        omega
      by_cases hdrop : ps.drop tm.more = []
      · exact ⟨walk 0 ps, by simp [inputsFrom, hin, hone, hdrop, inputsFrom_of_drop_eq_nil hdrop]⟩
      · obtain ⟨rest, hrest⟩ := ih (by simpa [mappedFrom, hin, hdrop] using h)
        exact ⟨rest, by
          rw [if_neg hdrop] at hrest
          simp [inputsFrom, hin, hone, hdrop, hrest]⟩

end Swig.Modules
