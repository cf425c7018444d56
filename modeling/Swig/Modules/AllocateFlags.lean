import Swig.Modules.Allocate
import Mathlib.Data.List.TakeWhile

/-!
When the Allocate pass marks the special members of a class as their bases allow
them.
-/

namespace Swig.Allocate

/-! ### The members a class declares -/

/-- The members with the access they are declared with. -/
def withAccess : Access → List Member → List (Access × Member)
  | _, [] => []
  | _, .accessDeclaration kind :: ms => withAccess kind ms
  | mode, m :: ms => (mode, m) :: withAccess mode ms

def Class.declared {C : Type} (n : Class C) : List (Access × Member) :=
  withAccess (if n.isclass then .PRIVATE else .PUBLIC) n.children

inductive Special
  | defaultConstructor
  | copyConstructor
  | destructor
  deriving DecidableEq

namespace Special

def isConstructor : Special → Bool
  | .destructor => false
  | _ => true

/-- The declarations because of which a class does not get the implicit member. -/
def declaredBy : Special → Member → Bool
  | .defaultConstructor, .constructorDeclaration _ _ => true
  | .copyConstructor, .constructorDeclaration parms copyType => parms ≠ [] && numrequired parms = 1 && copyType
  | .destructor, .destructorDeclaration => true
  | _, _ => false

/-- The declarations of the member itself. -/
def isMember : Special → Member → Bool
  | .defaultConstructor, .constructorDeclaration parms _ => numrequired parms = 0
  | .copyConstructor, .constructorDeclaration parms copyType => parms ≠ [] && numrequired parms = 1 && copyType
  | .destructor, .destructorDeclaration => true
  | _, _ => false

theorem declaredBy_of_isMember {k : Special} {m : Member} (h : k.isMember m) : k.declaredBy m := by
  cases k <;> cases m <;> first | exact h | rfl

end Special

namespace Flags

def marked (fl : Flags) : Special → Bool
  | .defaultConstructor => fl.default_constructor
  | .copyConstructor => fl.copy_constructor
  | .destructor => fl.default_destructor

def markedBase (fl : Flags) : Special → Bool
  | .defaultConstructor => fl.default_base_constructor
  | .copyConstructor => fl.copy_base_constructor
  | .destructor => fl.default_base_destructor

def has (fl : Flags) : Special → Bool
  | .defaultConstructor => fl.has_constructor
  | .copyConstructor => fl.has_copy_constructor
  | .destructor => fl.has_destructor

/-- The class lets a derived class use the member. -/
def allows (fl : Flags) (k : Special) : Bool := fl.marked k || fl.markedBase k

end Flags

/-- The two operators the pass looks for. -/
inductive Operator
  | assign
  | new
  deriving DecidableEq

def Operator.name : Operator → String
  | .assign => "operator ="
  | .new => "operator new"

def Flags.hasOperator (fl : Flags) : Operator → Bool
  | .assign => fl.has_assign
  | .new => fl.has_new

def Flags.notAllowed (fl : Flags) : Operator → Bool
  | .assign => fl.noassign
  | .new => fl.nonew

/-! ### One class -/

section Declared

variable (ds : List (Access × Member))

/-- The member is declared with the access `a`. -/
def hasMember (k : Special) (a : Access) : Bool := ds.any fun d => d.1 = a && k.isMember d.2

def declares (k : Special) : Bool := ds.any fun d => k.declaredBy d.2

def declaresOperator (op : Operator) : Bool := ds.any fun d => d.2 = .cDeclaration op.name

/-- The operator is declared, and not public. -/
def hidesOperator (op : Operator) : Bool := ds.any fun d => d.1 ≠ .PUBLIC && d.2 = .cDeclaration op.name

end Declared

/-- What declarations add to the attributes. -/
structure Adds (fl fl' : Flags) (ds : List (Access × Member)) : Prop where
  marked : ∀ k, fl'.marked k = (fl.marked k || hasMember ds k .PUBLIC)
  markedBase : ∀ k, fl'.markedBase k = (fl.markedBase k || hasMember ds k .PROTECTED)
  has : ∀ k, fl'.has k = (fl.has k || declares ds k)
  hasOperator : ∀ op, fl'.hasOperator op = (fl.hasOperator op || declaresOperator ds op)
  notAllowed : ∀ op, fl'.notAllowed op = (fl.notAllowed op || hidesOperator ds op)

theorem Adds.refl (fl : Flags) : Adds fl fl [] := by
  constructor <;> intro _ <;> exact (Bool.or_false _).symm

theorem Adds.trans {fl₁ fl₂ fl₃ : Flags} {ds ds' : List (Access × Member)} (h : Adds fl₁ fl₂ ds)
    (h' : Adds fl₂ fl₃ ds') : Adds fl₁ fl₃ (ds ++ ds') where
  marked k := by rw [h'.marked, h.marked, hasMember, hasMember, hasMember, List.any_append, Bool.or_assoc]
  markedBase k := by rw [h'.markedBase, h.markedBase, hasMember, hasMember, hasMember, List.any_append, Bool.or_assoc]
  has k := by rw [h'.has, h.has, declares, declares, declares, List.any_append, Bool.or_assoc]
  hasOperator op := by
    rw [h'.hasOperator, h.hasOperator, declaresOperator, declaresOperator, declaresOperator, List.any_append,
      Bool.or_assoc]
  notAllowed op := by
    rw [h'.notAllowed, h.notAllowed, hidesOperator, hidesOperator, hidesOperator, List.any_append, Bool.or_assoc]

theorem adds_constructorDeclaration (fl : Flags) (mode : Access) (parms : List Parm) (copyType : Bool) :
    Adds fl (constructorDeclaration mode parms copyType fl) [(mode, .constructorDeclaration parms copyType)] := by
  constructor <;> intro k <;> cases k <;> cases mode <;>
    simp [constructorDeclaration, Flags.marked, Flags.markedBase, Flags.has, Flags.hasOperator, Flags.notAllowed,
      hasMember, declares, declaresOperator, hidesOperator, Special.isMember, Special.declaredBy] <;> grind

theorem adds_destructorDeclaration (fl : Flags) (mode : Access) :
    Adds fl (destructorDeclaration mode fl) [(mode, .destructorDeclaration)] := by
  constructor <;> intro k <;> cases k <;> cases mode <;>
    simp [destructorDeclaration, Flags.marked, Flags.markedBase, Flags.has, Flags.hasOperator, Flags.notAllowed,
      hasMember, declares, declaresOperator, hidesOperator, Special.isMember, Special.declaredBy]

theorem adds_cDeclaration (fl : Flags) (mode : Access) (name : String) :
    Adds fl (cDeclaration mode name fl) [(mode, .cDeclaration name)] := by
  have hne : ¬ (name = Operator.name .assign ∧ name = Operator.name .new) := by
    rintro ⟨rfl, hname⟩
    exact absurd hname (by decide)
  constructor <;> intro k <;> cases k <;> cases mode <;>
    simp [cDeclaration, Flags.marked, Flags.markedBase, Flags.has, Flags.hasOperator, Flags.notAllowed,
      hasMember, declares, declaresOperator, hidesOperator, Special.isMember, Special.declaredBy, Operator.name] <;> grind

/-- What the members of a class add. -/
theorem adds_foldl (ms : List Member) (mode : Access) (fl : Flags) :
    Adds fl (ms.foldl emitMember (mode, fl)).2 (withAccess mode ms) := by
  induction ms generalizing mode fl with
  | nil => exact .refl fl
  | cons m ms ih =>
      cases m with
      | accessDeclaration kind => exact ih kind fl
      | constructorDeclaration parms copyType =>
          exact (adds_constructorDeclaration fl mode parms copyType).trans (ih mode _)
      | destructorDeclaration => exact (adds_destructorDeclaration fl mode).trans (ih mode _)
      | cDeclaration name => exact (adds_cDeclaration fl mode name).trans (ih mode _)

theorem adds_emit_children {C : Type} (n : Class C) : Adds .none (emit_children n .none) n.declared :=
  adds_foldl n.children _ _

theorem declares_of_hasMember {ds : List (Access × Member)} {k : Special} {a : Access} (h : hasMember ds k a) :
    declares ds k := by
  obtain ⟨d, hd, hmember⟩ := List.any_eq_true.mp h
  exact List.any_eq_true.mpr ⟨d, hd, Special.declaredBy_of_isMember (Bool.and_eq_true_iff.mp hmember).2⟩

theorem declaresOperator_of_hides {ds : List (Access × Member)} {op : Operator} (h : hidesOperator ds op) :
    declaresOperator ds op := by
  obtain ⟨d, hd, hhides⟩ := List.any_eq_true.mp h
  exact List.any_eq_true.mpr ⟨d, hd, (Bool.and_eq_true_iff.mp hhides).2⟩

section CheckBases

variable {C : Type} (n : Class C) (bases : List Flags) (fl : Flags)

theorem checkDefaultConstructor_eq : checkDefaultConstructor n bases fl =
    { fl with default_constructor :=
        if fl.has_constructor then fl.default_constructor
        else fl.default_constructor && !n.abstract || bases.all (·.allows .defaultConstructor) } := by
  have hall : bases.all (·.allows .defaultConstructor) =
    bases.all fun b => b.default_constructor || b.default_base_constructor := rfl
  rw [checkDefaultConstructor, hall]
  cases fl
  dsimp only
  split_ifs <;> simp_all

theorem checkCopyConstructor_eq : checkCopyConstructor n bases fl =
    { fl with copy_constructor :=
        if fl.has_copy_constructor then fl.copy_constructor
        else fl.copy_constructor && !n.abstract || bases.all (·.allows .copyConstructor) } := by
  have hall : bases.all (·.allows .copyConstructor) = bases.all fun b => b.copy_constructor || b.copy_base_constructor :=
    rfl
  rw [checkCopyConstructor, hall]
  cases fl
  dsimp only
  split_ifs <;> simp_all

theorem checkDestructor_eq : checkDestructor bases fl =
    { fl with default_destructor :=
        if fl.has_destructor then fl.default_destructor
        else fl.default_destructor || bases.all (·.allows .destructor) } := by
  have hall : bases.all (·.allows .destructor) = bases.all fun b => b.default_destructor || b.default_base_destructor :=
    rfl
  rw [checkDestructor, hall]
  generalize (bases.all fun b => b.default_destructor || b.default_base_destructor) = allows_destruct
  cases fl
  dsimp only
  split_ifs <;> simp_all

theorem checkAssign_eq : checkAssign bases fl =
    { fl with noassign :=
        if fl.has_assign then fl.noassign
        else fl.noassign || !allowsAfter (·.hasOperator .assign) (·.notAllowed .assign) bases } := by
  have hallows : allowsAfter (·.hasOperator .assign) (·.notAllowed .assign) bases =
    allowsAfter Flags.has_assign Flags.noassign bases := rfl
  rw [checkAssign, hallows]
  cases fl
  dsimp only
  split_ifs <;> simp_all

theorem checkNew_eq : checkNew bases fl =
    { fl with nonew :=
        if fl.has_new then fl.nonew else fl.nonew || !allowsAfter (·.hasOperator .new) (·.notAllowed .new) bases } := by
  have hallows : allowsAfter (·.hasOperator .new) (·.notAllowed .new) bases =
    allowsAfter Flags.has_new Flags.nonew bases := rfl
  rw [checkNew, hallows]
  cases fl
  dsimp only
  split_ifs <;> simp_all

/-- Each check sets an attribute of its own. -/
theorem checkBases_eq : checkBases n bases fl =
    { fl with
      default_constructor :=
        if fl.has_constructor then fl.default_constructor
        else fl.default_constructor && !n.abstract || bases.all (·.allows .defaultConstructor)
      copy_constructor :=
        if fl.has_copy_constructor then fl.copy_constructor
        else fl.copy_constructor && !n.abstract || bases.all (·.allows .copyConstructor)
      default_destructor :=
        if fl.has_destructor then fl.default_destructor
        else fl.default_destructor || bases.all (·.allows .destructor)
      noassign :=
        if fl.has_assign then fl.noassign
        else fl.noassign || !allowsAfter (·.hasOperator .assign) (·.notAllowed .assign) bases
      nonew :=
        if fl.has_new then fl.nonew
        else fl.nonew || !allowsAfter (·.hasOperator .new) (·.notAllowed .new) bases } := by
  cases fl
  rw [checkBases, checkDefaultConstructor_eq]
  dsimp only
  rw [checkCopyConstructor_eq]
  dsimp only
  rw [checkDestructor_eq]
  dsimp only
  rw [checkAssign_eq]
  dsimp only
  rw [checkNew_eq]

variable {fl}

/-- The attributes of a class, from its declarations and the attributes of its bases. -/
theorem checkBases_marked {ds : List (Access × Member)} (h : Adds .none fl ds) (k : Special) :
    (checkBases n bases fl).marked k =
      if declares ds k then hasMember ds k .PUBLIC else bases.all (·.allows k) := by
  have hmarked : fl.marked k = hasMember ds k .PUBLIC := by
    rw [h.marked]
    cases k <;> rfl
  have hhas : fl.has k = declares ds k := by
    rw [h.has]
    cases k <;> rfl
  have hchecked (x : Bool) : (if declares ds k then hasMember ds k .PUBLIC
      else hasMember ds k .PUBLIC && x || bases.all (·.allows k)) =
      if declares ds k then hasMember ds k .PUBLIC else bases.all (·.allows k) := by
    by_cases hd : declares ds k
    · rw [if_pos hd, if_pos hd]
    · have hfalse : hasMember ds k .PUBLIC = false := by
        by_contra hm
        exact hd (declares_of_hasMember (Bool.of_not_eq_false hm))
      rw [if_neg hd, if_neg hd, hfalse, Bool.false_and, Bool.false_or]
  rw [← hmarked, ← hhas] at hchecked ⊢
  rw [checkBases_eq]
  cases k with
  | defaultConstructor => exact hchecked (!n.abstract)
  | copyConstructor => exact hchecked (!n.abstract)
  | destructor =>
      rw [← hchecked true, Bool.and_true]
      rfl

theorem checkBases_markedBase {ds : List (Access × Member)} (h : Adds .none fl ds) (k : Special) :
    (checkBases n bases fl).markedBase k = hasMember ds k .PROTECTED := by
  have hbase : fl.markedBase k = hasMember ds k .PROTECTED := by
    rw [h.markedBase]
    cases k <;> rfl
  rw [← hbase, checkBases_eq]
  cases k <;> rfl

theorem checkBases_hasOperator {ds : List (Access × Member)} (h : Adds .none fl ds) (op : Operator) :
    (checkBases n bases fl).hasOperator op = declaresOperator ds op := by
  have hhas : fl.hasOperator op = declaresOperator ds op := by
    rw [h.hasOperator]
    cases op <;> rfl
  rw [← hhas, checkBases_eq]
  cases op <;> rfl

theorem checkBases_notAllowed {ds : List (Access × Member)} (h : Adds .none fl ds) (op : Operator) :
    (checkBases n bases fl).notAllowed op =
      if declaresOperator ds op then hidesOperator ds op
      else !allowsAfter (·.hasOperator op) (·.notAllowed op) bases := by
  have hnot : fl.notAllowed op = hidesOperator ds op := by
    rw [h.notAllowed]
    cases op <;> rfl
  have hhas : fl.hasOperator op = declaresOperator ds op := by
    rw [h.hasOperator]
    cases op <;> rfl
  have hchecked : (if declaresOperator ds op then hidesOperator ds op
      else hidesOperator ds op || !allowsAfter (·.hasOperator op) (·.notAllowed op) bases) =
      if declaresOperator ds op then hidesOperator ds op
      else !allowsAfter (·.hasOperator op) (·.notAllowed op) bases := by
    by_cases hd : declaresOperator ds op
    · rw [if_pos hd, if_pos hd]
    · have hfalse : hidesOperator ds op = false := by
        by_contra hh
        exact hd (declaresOperator_of_hides (Bool.of_not_eq_false hh))
      rw [if_neg hd, if_neg hd, hfalse, Bool.false_or]
  rw [← hnot, ← hhas] at hchecked ⊢
  rw [← hchecked, checkBases_eq]
  cases op <;> rfl

end CheckBases

end Swig.Allocate
