import Swig.Lib.BlockCode
import Swig.Modules.Parms

/-!
The dispatch functions of overloaded methods (`overload.cxx`).

The code a dispatcher prints is modelled line by line. A line that prints a
typecheck and the `if (_v) {` or the `if (!_v) goto` behind it are one line here.
-/

namespace Swig.Modules

open BlockCode

/-- The conditions of the printed code. -/
inductive Test
  | argcEq (n : ℕ)
  | argcBetween (n m : ℕ)
  | argcGe (n : ℕ)
  | argcLe (n : ℕ)
  | argcGt (n : ℕ)
  | typecheck (tm : TypecheckCode) (j : ℕ)
  deriving DecidableEq

/-- The format of a call with the values put into it. -/
structure Call where
  wrap_name : String
  numargs : ℕ
  deriving DecidableEq

abbrev Code := List (Line Test Call)

/-- A ranked method: `wrap:name` and `wrap:parms`. -/
structure Method where
  wrap_name : String
  parms : List Parm
  mapped : Mapped parms

/-- The ranked methods of an overloaded declaration, and its flag `wrap:this`. -/
structure OverloadSet where
  methods : List Method
  wrap_this : Bool
  nodup : (methods.map (·.wrap_name)).Nodup

/-- The test a method starts with. -/
def rangeTest (varargs : Bool) (num_required num_arguments : ℕ) : Test :=
  if ¬varargs then
    if num_required = num_arguments then .argcEq num_required
    else .argcBetween num_required num_arguments
  else .argcGe num_required

/-- `print_typecheck`, and the block it opens. -/
def printTypecheck (p : Parm) (j : ℕ) : Code :=
  match p.typecheck with
  | some tm => [.enter (.typecheck tm j)]
  | none => []

/-- The loop of `Swig_overload_dispatch` over the parameters from position `j`
on, with `num_braces` blocks open, the last call and the closing braces. -/
def plainChecks (num_required : ℕ) (this : Bool) (call : Call) : ℕ → ℕ → List Parm → Code
  | _, num_braces, [] => .call call :: List.replicate num_braces .leave
  | j, num_braces, pj :: ps =>
      (if num_required ≤ j then [.enter (.argcLe j), .call call, .leave] else []) ++
      (printTypecheck pj (if this then j + 1 else j) ++
        plainChecks num_required this call (j + 1)
          (num_braces + if pj.typecheck.isSome then 1 else 0) ps)

/-- What `Swig_overload_dispatch` prints for a method. -/
def plainMethod (this : Bool) (m : Method) : Code :=
  let num_required := emitNumRequired m.parms + if this then 1 else 0
  let num_arguments := emitNumArguments m.parms + if this then 1 else 0
  .enter (rangeTest (emitIsvarargs m.parms) num_required num_arguments) ::
    (plainChecks num_required this ⟨m.wrap_name, num_arguments⟩ 0 0 (walk 0 m.parms) ++ [.leave])

/-- `Swig_overload_dispatch`, fast mode off. -/
def swigOverloadDispatch (o : OverloadSet) : Code :=
  o.methods.flatMap (plainMethod o.wrap_this)

/-- `*maxargs` of `Swig_overload_dispatch`. -/
def maxargs (o : OverloadSet) : ℕ :=
  o.methods.foldl (fun n m =>
    max n (emitNumArguments m.parms + if o.wrap_this then 1 else 0)) 1

/-! ### The fast dispatcher -/

/-- The methods behind `m` that collide with it based on argument number. -/
def collisions (m : Method) (later : List Method) : List Method :=
  later.filter fun k =>
    let num_required := emitNumRequired m.parms
    let num_arguments := emitNumArguments m.parms
    let nrk := emitNumRequired k.parms
    let nak := emitNumArguments k.parms
    nrk ≥ num_required ∧ nrk ≤ num_arguments ∨ nak ≥ num_required ∧ nak ≤ num_arguments ∨
      nrk ≤ num_required ∧ nak ≥ num_arguments

/-- Some colliding method has another typecheck at position `j`, or none. -/
def emitcheck (coll : List Method) (j : ℕ) (tm : TypecheckCode) : Bool :=
  coll.any fun k =>
    !decide (emitNumArguments k.parms ≤ j) &&
      match (walk 0 k.parms)[j]? with
      | some pl => pl.tmap_typecheck != some tm
      | none => false

/-- The loop of `Swig_overload_dispatch_fast` over the parameters of the method
at index `i`, with the closing braces. -/
def fastChecks (num_required i : ℕ) (coll : List Method) : ℕ → ℕ → List Parm → Code
  | _, num_braces, [] => List.replicate num_braces .leave
  | j, num_braces, pj :: ps =>
      match pj.tmap_typecheck with
      | none => fastChecks num_required i coll (j + 1) num_braces ps
      | some tm =>
          if emitcheck coll j tm then
            let check := replaceImplicitconv (pj.implicitconv.getD "0") tm
            if num_required ≤ j then
              .enter (.argcGt j) :: .orElse (.typecheck check j) (i + 1) ::
                fastChecks num_required i coll (j + 1) (num_braces + 1) ps
            else
              .orElse (.typecheck check j) (i + 1) ::
                fastChecks num_required i coll (j + 1) num_braces ps
          else fastChecks num_required i coll (j + 1) num_braces ps

/-- Whether `Swig_overload_dispatch_fast` prints a check for the method, and so
the label behind it. -/
def printsCheck (coll : List Method) (parms : List Parm) : Bool :=
  parms.zipIdx.any fun (pj, j) => pj.tmap_typecheck.any (emitcheck coll j)

/-- What `Swig_overload_dispatch_fast` prints for the method at index `i`. -/
def fastMethod (i : ℕ) (m : Method) (later : List Method) : Code :=
  let num_required := emitNumRequired m.parms
  let num_arguments := emitNumArguments m.parms
  let coll := collisions m later
  let test := coll ≠ [] ∧ num_arguments ≠ 0
  .enter (rangeTest (emitIsvarargs m.parms) num_required num_arguments) ::
    ((if test then fastChecks num_required i coll 0 0 (walk 0 m.parms) else []) ++
      (.call ⟨m.wrap_name, num_arguments⟩ :: .leave ::
        if test ∧ printsCheck coll (walk 0 m.parms) then [.label (i + 1)] else []))

def fastFrom : ℕ → List Method → Code
  | _, [] => []
  | i, m :: later => fastMethod i m later ++ fastFrom (i + 1) later

/-- `Swig_overload_dispatch_fast`. -/
def swigOverloadDispatchFast (o : OverloadSet) : Code := fastFrom 0 o.methods

/-! ### Running the printed code -/

/-- The arguments of a call: their number and the argument vector, whose slots
behind the arguments hold whatever the wrapper left there. -/
structure Args (α : Type*) where
  argc : ℕ
  argv : ℕ → α

variable {α : Type*}

/-- `accepts` runs the code of a typecheck on an argument and gives `_v`. -/
def Test.holds (accepts : TypecheckCode → α → Bool) (a : Args α) : Test → Bool
  | .argcEq n => a.argc = n
  | .argcBetween n m => a.argc ≥ n ∧ a.argc ≤ m
  | .argcGe n => a.argc ≥ n
  | .argcLe n => a.argc ≤ n
  | .argcGt n => a.argc > n
  | .typecheck tm j => accepts tm (a.argv j)

/-- The call the printed code makes for the arguments. -/
def Code.run (accepts : TypecheckCode → α → Bool) (a : Args α) (code : Code) : Option Call :=
  exec (Test.holds accepts a) .running code

end Swig.Modules
