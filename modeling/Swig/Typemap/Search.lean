import Swig.Typemap.Store
import Mathlib.Data.List.Basic

/-!
`typemap_search` (`typemap.c`). The search goes through candidates in a fixed order and
returns the first one with code, but a candidate for a default type ends it without.
-/

namespace Swig.Typemap

open DOH SType

/-! ### The search -/

/-- Where the search looks next: the hash of the type `ctype` or of its array
generalisation, or of a default type, in the scope `ts`. -/
inductive Point
  | type (ts : ℕ) (ctype : SwigType) (unstripped : Option SwigType)
  | array (ts : ℕ) (ctype noarrays : SwigType) (unstripped : Option SwigType)
  | default (ts : ℕ) (primitive : SwigType)

/-- What a group of tests does: `goto ret_result`, or going on. -/
inductive Outcome
  | ret (result : Method)
  | go (backup : Option Method)

/-- `if (result && Getattr(result, "code")) goto ret_result; if (result) backup = result;` -/
def testCode : List Method → Option Method → Outcome
  | [], backup => .go backup
  | result :: rs, _backup => if result.code.isSome then .ret result else testCode rs (some result)

/-- `if (result) goto ret_result;` -/
def testAny : List Method → Option Method → Outcome
  | [], backup => .go backup
  | result :: _, _backup => .ret result

/-- The results in the hash of a type: the type-name match and the type match. -/
def results (tm : Option TypeHash) (tm_method : List Byte) (cname : Option (List Byte)) : List Method :=
  match tm with
  | none => []
  | some tm =>
      (cname.bind fun cname => (tm.names.get cname).bind (·.get tm_method)).toList ++ (tm.methods.get tm_method).toList

/-- `*matchtype`. -/
def Point.matchtype : Point → Option SwigType
  | .type _ ctype _ | .array _ ctype _ _ => some ctype
  | .default _ _ => none

namespace Point

variable (f : TypeFns) (type : SwigType)

/-- The default type is looked at, or else the next scope. -/
def defaultPoint (ts : ℕ) : Option SwigType → Option Point
  | some primitive => some (.default ts primitive)
  | none =>
      match ts with
      | 0 => none
      | ts + 1 => some (.type ts type none)

/-- `ctype` has been resolved, and is not stripped of its qualifiers. -/
def resolvedPoint (ts : ℕ) : Option SwigType → Option Point
  | some ctype => some (.type ts ctype none)
  | none => defaultPoint type ts (f.default type)

/-- The end of the loop over the types. -/
def typePoint (ts : ℕ) (ctype : SwigType) : Option SwigType → Option Point
  | none =>
      if f.strip_qualifiers ctype ≠ ctype then some (.type ts (f.strip_qualifiers ctype) (some ctype))
      else resolvedPoint f type ts (f.typedef_resolve ctype)
  | some unstripped => resolvedPoint f type ts (f.typedef_resolve unstripped)

/-- The next point, or the end of the loops; no result where `strip_arrays` fails. -/
def next : Point → Option (Option Point)
  | .type ts ctype unstripped =>
      if isarray ctype then do return some (.array ts ctype (← stripArrays ctype) unstripped)
      else some (typePoint f type ts ctype unstripped)
  | .array ts ctype _ unstripped => some (typePoint f type ts ctype unstripped)
  | .default ts primitive => some (defaultPoint type ts (f.default primitive))

end Point

/-- The call. -/
structure Search where
  f : TypeFns
  T : Typemaps
  tm_method : List Byte
  type : SwigType
  cname : Option (List Byte)

namespace Search

variable (S : Search)

def resultsIn (ts : ℕ) (type : SwigType) : List Method :=
  results ((S.T.getTypemap S.f ts type).map Prod.snd) S.tm_method S.cname

/-- The tests at a point. -/
def examine : Point → Option Method → Outcome
  | .type ts ctype _, backup => testCode (S.resultsIn ts ctype) backup
  | .array ts _ noarrays _, backup => testCode (S.resultsIn ts noarrays) backup
  | .default ts primitive, backup => testAny (S.resultsIn ts primitive) backup

/-- The result and `*matchtype`, unless it has not come to an end after so many points. -/
def run : ℕ → Point → Option Method → Option (Option Method × Option SwigType)
  | 0, _, _ => none
  | n + 1, p, backup =>
      match S.examine p backup with
      | .ret result => some (some result, p.matchtype)
      | .go backup =>
          match p.next S.f S.type with
          | none => none
          | some none => some (backup, none)
          | some (some q) => run n q backup

/-- The search begins in the innermost scope. -/
def start : Point := .type S.T.tm_scope S.type none

end Search

/-- `(name) && Len(name)`. -/
def cnameOf (name : Option (List Byte)) : Option (List Byte) := name.filter (· ≠ [])

/-- `typemap_search`. -/
def typemapSearch (f : TypeFns) (T : Typemaps) (fuel : ℕ) (tmap_method : List Byte) (type : SwigType)
    (name : Option (List Byte)) : Option (Option Method × Option SwigType) :=
  let S : Search := ⟨f, T, methodName tmap_method, type, cnameOf name⟩
  S.run fuel S.start none

/-! ### The matching order -/

/-- A typemap that the search comes to. -/
structure Candidate where
  map : Method
  isDefault : Bool
  deriving DecidableEq

namespace Candidate

def coded (c : Candidate) : Bool := c.map.code.isSome

/-- It ends the search: the typemap of a default type does so without code, too. -/
def ends (c : Candidate) : Bool := c.coded || c.isDefault

end Candidate

namespace Search

variable (S : Search)

def candidatesAt : Point → List Candidate
  | .type ts ctype _ => (S.resultsIn ts ctype).map (⟨·, false⟩)
  | .array ts _ noarrays _ => (S.resultsIn ts noarrays).map (⟨·, false⟩)
  | .default ts primitive => (S.resultsIn ts primitive).map (⟨·, true⟩)

/-- The candidates at the first so many points, whether they carry code or not. -/
def candidates : ℕ → Point → List Candidate
  | 0, _ => []
  | n + 1, p =>
      S.candidatesAt p ++
        match p.next S.f S.type with
        | some (some q) => candidates n q
        | _ => []

end Search

/-- The candidates of `typemap_search` for a type and a name, in their order. -/
def matchingOrder (f : TypeFns) (T : Typemaps) (fuel : ℕ) (tmap_method : List Byte) (type : SwigType)
    (name : Option (List Byte)) : List Candidate :=
  let S : Search := ⟨f, T, methodName tmap_method, type, cnameOf name⟩
  S.candidates fuel S.start

/-! ### The search returns the candidate that ends it -/

variable {S : Search} {p : Point} {c : Candidate} {n : ℕ} {backup : Option Method}

theorem testCode_ret {rs : List Method} {r : Method} (h : rs.find? (·.code.isSome) = some r) :
    testCode rs backup = .ret r := by
  induction rs generalizing backup with
  | nil => cases h
  | cons r' rs ih =>
      rw [List.find?_cons] at h
      cases hr : r'.code.isSome with
      | true =>
          rw [hr] at h
          cases h
          rw [testCode, if_pos hr]
      | false =>
          rw [hr] at h
          rw [testCode, hr, if_neg Bool.false_ne_true]
          exact ih h

theorem testCode_go {rs : List Method} (h : rs.find? (·.code.isSome) = none) :
    ∃ backup', testCode rs backup = .go backup' := by
  induction rs generalizing backup with
  | nil => exact ⟨backup, rfl⟩
  | cons r' rs ih =>
      have hr : ¬r'.code.isSome := List.find?_eq_none.mp h r' List.mem_cons_self
      have hrs : rs.find? (·.code.isSome) = none :=
        List.find?_eq_none.mpr fun x hx => List.find?_eq_none.mp h x (List.mem_cons_of_mem r' hx)
      rw [testCode, if_neg hr]
      exact ih hrs

namespace Search

theorem find?_typed (rs : List Method) :
    (rs.map fun r => (⟨r, false⟩ : Candidate)).find? Candidate.ends =
      (rs.find? (·.code.isSome)).map (⟨·, false⟩) := by
  rw [List.find?_map]
  congr 2
  funext r
  exact Bool.or_false _

theorem find?_default (rs : List Method) :
    (rs.map fun r => (⟨r, true⟩ : Candidate)).find? Candidate.ends = rs.head?.map (⟨·, true⟩) := by
  cases rs with
  | nil => rfl
  | cons r rs => exact List.find?_cons_of_pos (Bool.or_true _)

theorem examine_ret (h : (S.candidatesAt p).find? Candidate.ends = some c) : S.examine p backup = .ret c.map := by
  cases p with
  | type ts ctype unstripped =>
      rw [candidatesAt, find?_typed] at h
      obtain ⟨r, hr, rfl⟩ := Option.map_eq_some_iff.mp h
      exact testCode_ret hr
  | array ts ctype noarrays unstripped =>
      rw [candidatesAt, find?_typed] at h
      obtain ⟨r, hr, rfl⟩ := Option.map_eq_some_iff.mp h
      exact testCode_ret hr
  | default ts primitive =>
      rw [candidatesAt, find?_default] at h
      obtain ⟨r, hr, rfl⟩ := Option.map_eq_some_iff.mp h
      obtain ⟨rs, hrs⟩ := List.head?_eq_some_iff.mp hr
      rw [examine, hrs, testAny]

theorem examine_go (h : (S.candidatesAt p).find? Candidate.ends = none) :
    ∃ backup', S.examine p backup = .go backup' := by
  cases p with
  | type ts ctype unstripped =>
      rw [candidatesAt, find?_typed, Option.map_eq_none_iff] at h
      exact testCode_go h
  | array ts ctype noarrays unstripped =>
      rw [candidatesAt, find?_typed, Option.map_eq_none_iff] at h
      exact testCode_go h
  | default ts primitive =>
      rw [candidatesAt, find?_default, Option.map_eq_none_iff, List.head?_eq_none_iff] at h
      exact ⟨backup, by rw [examine, h, testAny]⟩

/-- By induction on the points: one without a candidate that ends the search is passed. -/
theorem run_ends (h : (S.candidates n p).find? Candidate.ends = some c) :
    ∃ m, S.run n p backup = some (some c.map, m) := by
  induction n generalizing p backup with
  | zero => cases h
  | succ n ih =>
      rw [candidates, List.find?_append] at h
      cases hat : (S.candidatesAt p).find? Candidate.ends with
      | some d =>
          rw [hat, Option.some_or] at h
          cases h
          exact ⟨p.matchtype, by rw [run, examine_ret hat]⟩
      | none =>
          rw [hat, Option.none_or] at h
          have hgo : ∃ backup', S.examine p backup = .go backup' := examine_go hat
          obtain ⟨backup', hgo⟩ := hgo
          rw [run, hgo]
          match hnext : p.next S.f S.type with
          | none =>
              rw [hnext] at h
              cases h
          | some none =>
              rw [hnext] at h
              cases h
          | some (some q) =>
              rw [hnext] at h
              exact ih h

end Search

/-! ### When code is found -/

/-- A candidate that is not the first to end the search is not returned. -/
theorem exists_ends {l : List Candidate} {b c : Candidate} {before after : List Candidate}
    (hl : l = before ++ c :: after) (hbefore : ∀ b ∈ before, b.coded = false) (hb : b ∈ before)
    (hdefault : b.isDefault) : ∃ d, l.find? Candidate.ends = some d ∧ d.coded = false := by
  have hends : b.ends := by
    rw [Candidate.ends, hdefault, Bool.or_true]
  obtain ⟨d, hd⟩ := Option.isSome_iff_exists.mp (List.find?_isSome.mpr ⟨b, hb, hends⟩)
  refine ⟨d, ?_, hbefore d (List.mem_of_find?_eq_some hd)⟩
  rw [hl, List.find?_append, hd, Option.some_or]

theorem find?_ends {l : List Candidate} {before after : List Candidate} (hl : l = before ++ c :: after)
    (hc : c.coded) (hbefore : ∀ b ∈ before, b.coded = false) (hdefault : ∀ b ∈ before, b.isDefault = false) :
    l.find? Candidate.ends = some c := by
  have hnone : before.find? Candidate.ends = none := by
    refine List.find?_eq_none.mpr fun b hb => ?_
    rw [Candidate.ends, hbefore b hb, hdefault b hb]
    exact Bool.false_ne_true
  rw [hl, List.find?_append, hnone, Option.none_or]
  refine List.find?_cons_of_pos ?_
  rw [Candidate.ends, hc, Bool.true_or]

variable (f : TypeFns) (T : Typemaps) (tmap_method : List Byte) (type : SwigType) (name : Option (List Byte))

/-- The first candidate with code is returned, as soon as the search can have come to it. -/
def FindsFirst : Prop :=
  ∀ n before c after, matchingOrder f T n tmap_method type name = before ++ c :: after → c.coded →
    (∀ b ∈ before, b.coded = false) → ∃ m, typemapSearch f T n tmap_method type name = some (some c.map, m)

/-- The first candidate with code is the one returned exactly if there is no typemap
of a default type before it. -/
theorem findsFirst_iff :
    FindsFirst f T tmap_method type name ↔
      ∀ n before c after, matchingOrder f T n tmap_method type name = before ++ c :: after → c.coded →
        (∀ b ∈ before, b.coded = false) → ∀ b ∈ before, b.isDefault = false := by
  constructor
  · intro h n before c after hl hc hbefore b hb
    by_contra hdefault
    obtain ⟨d, hd, hcode⟩ := exists_ends hl hbefore hb (Bool.eq_true_of_not_eq_false hdefault)
    obtain ⟨m, hm⟩ := h n before c after hl hc hbefore
    have hrun : ∃ m', typemapSearch f T n tmap_method type name = some (some d.map, m') := Search.run_ends hd
    obtain ⟨m', hm'⟩ := hrun
    have hmap : c.map = d.map := by
      have heq := hm.symm.trans hm'
      simp only [Option.some.injEq, Prod.mk.injEq] at heq
      exact heq.1
    rw [Candidate.coded, ← hmap] at hcode
    exact Bool.false_ne_true (hcode.symm.trans hc)
  · intro h n before c after hl hc hbefore
    exact Search.run_ends (find?_ends hl hc hbefore (h n before c after hl hc hbefore))

/-- The types of a class without typedefs: `p.Foo`, `p.SWIGTYPE`, `SWIGTYPE`. -/
def classTypes : TypeFns where
  template_deftype := id
  type_qualify := id
  strip_qualifiers := id
  typedef_resolve := fun _ => none
  default := fun t =>
    if t = lit "SWIGTYPE" then none else if t = lit "p.SWIGTYPE" then some (lit "SWIGTYPE") else some (lit "p.SWIGTYPE")

/-- The typemap of `SWIGTYPE` is registered, that of `SWIGTYPE *` has been cleared. -/
def clearedPointer : Typemaps where
  typemaps := fun _ =>
    let hash (m : Method) : TypeHash := { TypeHash.new with methods := StringTable.new.set (lit "tmap:in") m }
    (StringTable.new.set (lit "SWIGTYPE") (hash { Method.new with code := some (lit "$1 = 0;") })).set
      (lit "p.SWIGTYPE") (hash .new)
  tm_scope := 0

theorem not_findsFirst_clearedPointer : ¬ FindsFirst classTypes clearedPointer (lit "in") (lit "p.Foo") none := by
  intro h
  have hrun : matchingOrder classTypes clearedPointer 3 (lit "in") (lit "p.Foo") none =
      [⟨Method.new, true⟩, ⟨{ Method.new with code := some (lit "$1 = 0;") }, true⟩] ∧
      typemapSearch classTypes clearedPointer 3 (lit "in") (lit "p.Foo") none = some (some Method.new, none) := by
    decide +kernel
  obtain ⟨m, hm⟩ := h 3 [⟨Method.new, true⟩] _ [] hrun.1 rfl (by simp [Candidate.coded, Method.new])
  rw [hrun.2] at hm
  cases hm

end Swig.Typemap
