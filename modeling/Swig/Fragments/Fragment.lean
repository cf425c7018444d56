import Swig.DOH.CType
import Mathlib.Logic.Function.Basic
import Mathlib.Data.List.Basic

/-!
The code fragments of `fragment.c`: how they are registered, and how a fragment is
written with those it depends on.
-/

namespace Swig.Fragments

abbrev Name := List Byte

/-- What is used from other files: `Swig_string_mangle`, `SwigType_typedef_resolve_all`
and whether `Swig_filebyname` knows a section. -/
structure FragmentFns where
  mangle : Name → Name
  typedef_resolve_all : Name → Name
  filebyname : Name → Bool

/-- The `value` and `type` of a node for which fragments are emitted. A string
stands for a node with this value. -/
structure Request where
  value : Name
  type : Option Name
  deriving DecidableEq

/-- A keyword argument. -/
structure Kwarg where
  name : Name
  request : Request
  deriving DecidableEq

/-- The text kept for a fragment, with its `section` and `kwargs`. -/
structure Code where
  text : List Byte
  section_ : Option Name
  kwargs : List Kwarg
  deriving DecidableEq

/-- A `%fragment` node that is not `emitonly`. -/
structure FragmentNode where
  request : Request
  code : Code
  deriving DecidableEq

/-- Code that was written, and the fragment it belongs to. -/
structure Written where
  name : Name
  section_ : Name
  text : List Byte
  deriving DecidableEq

/-- A name is looked up: the fragments that are being written, its type and the
elements of its list that follow. -/
structure Lookup where
  looking : Name → Bool
  name : Name
  type : Option Name
  rest : List Name

/-- The two tables and what was written and warned of. `lookups` keeps the names
that were looked up. -/
structure State where
  fragments : Option (Name → Option Code)
  looking : Name → Bool
  out : List Written
  notFound : List (Option Name)
  badSection : List Name
  lookups : List Lookup

def State.init : State := ⟨none, fun _ => false, [], [], [], []⟩

/-- The entry of a fragment in the table. -/
def State.get (st : State) (name : Name) : Option Code := st.fragments.bind fun fragments => fragments name

def State.set (st : State) (name : Name) (code : Code) : State :=
  { st with fragments := some (Function.update (st.fragments.getD fun _ => none) name (some code)) }

def State.setLooking (st : State) (name : Name) (x : Bool) : State :=
  { st with looking := Function.update st.looking name x }

def State.look (st : State) (l : Lookup) : State := { st with lookups := st.lookups ++ [l] }

/-- The warning `WARN_FRAGMENT_NOT_FOUND`. -/
def State.warn (st : State) (name : Option Name) : State := { st with notFound := st.notFound ++ [name] }

/-- What is appended to the names of a request. -/
def FragmentFns.suffix (env : FragmentFns) (type : Option Name) : Name := (type.map env.mangle).getD []

variable (env : FragmentFns)

/-- `Swig_fragment_register` of a node that is not `emitonly`. -/
def fragmentRegister (st : State) (node : FragmentNode) : State :=
  let name := node.request.value ++ env.suffix node.request.type
  let st := { st with fragments := some (st.fragments.getD fun _ => none) }
  if (st.get name).isSome then st else st.set name node.code

/-- The text `ignore`, which takes the place of code that was written. -/
def ignored : Code := ⟨lit "ignore", none, []⟩

/-- The code of a fragment is written: it is no longer in the table, and the
fragment no longer being written. -/
def State.write (st : State) (name section_ : Name) (text : List Byte) : State :=
  let st : State := { st with out := st.out ++ [⟨name, section_, text⟩] }
  (st.set name ignored).setLooking name false

/-- The keyword arguments of a fragment that name others. -/
def emitKwargs (emit : Request → State → Option State) : List Kwarg → State → Option State
  | [], st => some st
  | k :: ks, st =>
      (if k.name = lit "fragment" then emit k.request st else some st).bind (emitKwargs emit ks)

/-- The code of a fragment is written after those it names. -/
def emitFragment (emit : Request → State → Option State) (name : Name) (code : Code) (st : State) : Option State :=
  (emitKwargs emit code.kwargs (st.setLooking name true)).map fun st =>
    match code.section_ with
    | none => st
    | some section_ =>
        if env.filebyname section_ then st.write name section_ code.text
        else { st with badSection := st.badSection ++ [name] }

/-- What is done for a typed request without a fragment: the whole value is
looked for once more under the same type, as a string. -/
def emitResolved (emit : Request → State → Option State) (r : Request) (st : State) : Option State :=
  match r.type with
  | none => some st
  | some type =>
      if type ≠ env.typedef_resolve_all type then emit ⟨r.value ++ env.mangle type, none⟩ st else some st

/-- The loop of `Swig_fragment_emit` over the elements of the list. -/
def emitToks (emit : Request → State → Option State) (r : Request) : List Name → State → Option State
  | [], st => some st
  | tok :: toks, st =>
      let name := tok ++ env.suffix r.type
      let st := st.look ⟨st.looking, name, r.type, toks⟩
      if st.looking name then some st
      else
        match st.get name with
        | some code =>
            if code.text ≠ lit "ignore" then
              (emitFragment env emit name code st).bind (emitToks emit r toks)
            else emitToks emit r toks st
        | none =>
            (emitResolved env emit r st).bind fun st => emitToks emit r toks (st.warn name)

/-- The elements of a comma-separated list. -/
def tokens (value : Name) : List Name := value.splitOnP (· == chr ',')

/-- `Swig_fragment_emit`, at most `fuel` calls deep. -/
def fragmentEmit : ℕ → Request → State → Option State
  | 0, _, _ => none
  | fuel + 1, r, st =>
      match st.fragments with
      | none => some (st.warn none)
      | some _ => emitToks env (fragmentEmit fuel) r (tokens r.value) st

/-- The fragments of a file are registered. -/
def registerAll (nodes : List FragmentNode) : State := nodes.foldl (fragmentRegister env) .init

/-- Requests one after the other. -/
def emitAll (fuel : ℕ) (requests : List Request) (st : State) : Option State :=
  requests.foldlM (fun st r => fragmentEmit env fuel r st) st

end Swig.Fragments
