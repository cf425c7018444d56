import Swig.Lib.Walks
import Swig.SType.Elements

/-!
The search of `Allocate::cDeclaration` (`allocate.cxx`) for the target of a smart pointer:
from an `operator ->` to the one of the class that it returns.
-/

namespace Swig.Modules

open SType Relation Walks

/-! ### The types -/

/-- `SwigType_strip_qualifiers`. -/
def stripQualifiers (t : SwigType) : SwigType := ((split t).filter fun e => !isqualifier e).flatten

/-- The declarations of `operator ->` in `N` and the classes in `C`, with what the search
asks the symbol tables and the type system for: `clookup` is the node of a type, if it is a
class, and `operatorArrow` what `operator ->` means in the scope of a class. -/
structure ClassGraph (N C : Type) where
  parms : N → Bool
  type : N → SwigType
  decl : N → SwigType
  typedef_resolve_all : SwigType → SwigType
  constName : SwigType → Bool
  clookup : SwigType → Option C
  operatorArrow : C → Option N
  smart_pointer_methods : C → Bool → List N

namespace ClassGraph

variable {N C : Type} (G : ClassGraph N C)

/-- `SwigType_check_decl`. -/
def checkDecl (ty decl : SwigType) : Bool := typePrefix (stripQualifiers (G.typedef_resolve_all ty)) = some decl

/-- The type that an `operator ->` returns. -/
def returned (sn : N) : Option SwigType :=
  (popFunction (push (G.typedef_resolve_all (G.type sn)) (G.decl sn))).map Prod.snd

/-- The attributes `allocate:smartpointer...` of the class. -/
structure Target (N : Type) where
  smartpointerconst : Bool
  smartpointer : List N
  smartpointerbase : SwigType
  deriving DecidableEq

/-- A round of the loop: what it leaves the loop with, or the declaration it goes on with.
`SwigType_pop_function` ends the program if the declaration isn't one of a function. -/
def searchRound (sn : N) : Option (Target N) ⊕ N :=
  if G.parms sn then .inr sn
  else
    match G.returned sn with
    | none => .inl none
    | some type =>
        match G.clookup (base type) with
        | none => .inl none
        | some sc =>
            if G.checkDecl type (lit "p.") then
              let const := isconst G.constName (pop type).2
              .inl (some ⟨const, G.smart_pointer_methods sc const, base type⟩)
            else if G.checkDecl type [] || G.checkDecl type (lit "r.") then
              match G.operatorArrow sc with
              | some nn => .inr nn
              | none => .inl none
            else .inl none

/-- The loop, in at most `n` rounds. -/
def search : ℕ → N → Option (Option (Target N)) := chase G.searchRound

/-! ### Where the search goes -/

/-- `sn` returns a value or a reference of a class, in whose scope `operator ->` is `nn`. -/
def Chases (sn nn : N) : Prop :=
  ∃ type sc, G.returned sn = some type ∧ G.clookup (base type) = some sc ∧ G.checkDecl type (lit "p.") = false ∧
    (G.checkDecl type [] ∨ G.checkDecl type (lit "r.")) ∧ G.operatorArrow sc = some nn

/-- The declaration that a round goes on with. -/
def next : N → Option N := goesOn G.searchRound

variable {G} {sn nn m : N}

theorem leads_iff (h : G.parms sn = false) : Leads G.next sn nn ↔ G.Chases sn nn := by
  rw [Leads, next, goesOn, searchRound, if_neg (ne_true_of_eq_false h)]
  constructor
  · intro hnext
    split at hnext
    case h_1 => cases hnext
    case h_2 type htype =>
      split at hnext
      case h_1 => cases hnext
      case h_2 sc hsc =>
        split_ifs at hnext with hpointer hvalue
        · cases hnext
        · split at hnext
          case h_1 nn' hnn =>
            obtain rfl := Option.some.inj hnext
            exact ⟨type, sc, htype, hsc, eq_false_of_ne_true hpointer, (Bool.or_eq_true _ _).mp hvalue, hnn⟩
          case h_2 => cases hnext
        · cases hnext
  · rintro ⟨type, sc, htype, hsc, hpointer, hvalue, hnn⟩
    rw [htype]
    dsimp only
    rw [hsc]
    dsimp only
    rw [if_neg (ne_true_of_eq_false hpointer), if_pos ((Bool.or_eq_true _ _).mpr hvalue), hnn]
    rfl

/-- A declaration with parameters is looked at again. -/
theorem leads_self (h : G.parms sn = true) : Leads G.next sn sn := by
  rw [Leads, next, goesOn, searchRound, if_pos h]
  rfl

/-- No declaration with parameters is come to. -/
def Plain (G : ClassGraph N C) (sn : N) : Prop := ∀ m, ReflTransGen G.Chases sn m → G.parms m = false

theorem Plain.leads (h : Plain G sn) (hm : ReflTransGen G.Chases sn m) : ReflTransGen (Leads G.next) sn m := by
  induction hm with
  | refl => exact .refl
  | tail hb hstep ih => exact ih.tail ((leads_iff (h _ hb)).mpr hstep)

theorem Plain.chases (h : Plain G sn) (hm : ReflTransGen (Leads G.next) sn m) : ReflTransGen G.Chases sn m := by
  induction hm with
  | refl => exact .refl
  | tail hb hstep ih => exact ih.tail ((leads_iff (h _ ih)).mp hstep)

theorem Plain.of_chases (h : Plain G sn) (hm : ReflTransGen G.Chases sn m) : Plain G m := fun b hb => h b (hm.trans hb)

/-- Where a declaration with parameters is come to, the first such one is looked at for ever. -/
theorem plain_of_acyclic (h : Acyclic (Leads G.next) sn) : Plain G sn := by
  intro m hm
  have hboth : ReflTransGen (Leads G.next) sn m ∧ G.parms m = false := by
    have hplain {m : N} (hm : ReflTransGen (Leads G.next) sn m) : G.parms m = false :=
      eq_false_of_ne_true fun hparms => h m hm (.single (leads_self hparms))
    induction hm with
    | refl => exact ⟨.refl, hplain .refl⟩
    | tail _ hstep ih =>
        have hb := ih.1.tail ((leads_iff ih.2).mpr hstep)
        exact ⟨hb, hplain hb⟩
  exact hboth.2

/-- Along declarations without parameters, the search comes back to one of them if the
declarations do. -/
theorem Plain.acyclic_iff (h : Plain G sn) : Acyclic (Leads G.next) sn ↔ Acyclic G.Chases sn := by
  constructor
  · intro hacyclic b hb hcycle
    obtain ⟨c, hstep, hback⟩ := TransGen.head'_iff.mp hcycle
    have hlead := (leads_iff (h b hb)).mpr hstep
    exact hacyclic b (h.leads hb) (TransGen.head'_iff.mpr ⟨c, hlead, (h.of_chases (hb.tail hstep)).leads hback⟩)
  · intro hacyclic b hb hcycle
    have hchases := h.chases hb
    obtain ⟨c, hstep, hback⟩ := TransGen.head'_iff.mp hcycle
    have hchase := (leads_iff (h b hchases)).mp hstep
    exact hacyclic b hchases
      (TransGen.head'_iff.mpr ⟨c, hchase, (h.of_chases (hchases.tail hchase)).chases hback⟩)

theorem exists_search_iff [Finite N] (G : ClassGraph N C) (sn : N) :
    (∃ n, (G.search n sn).isSome) ↔ Acyclic (Leads G.next) sn := by
  rw [search, exists_chase_iff]
  rfl

/-- The search ends exactly where it comes to no declaration with parameters, and to none
twice. -/
theorem search_ends_iff [Finite N] (G : ClassGraph N C) (sn : N) :
    (∃ n, (G.search n sn).isSome) ↔
      (∀ m, ReflTransGen G.Chases sn m → G.parms m = false) ∧ Acyclic G.Chases sn := by
  rw [exists_search_iff]
  constructor
  · intro h
    have hplain := plain_of_acyclic h
    exact ⟨hplain, hplain.acyclic_iff.mp h⟩
  · rintro ⟨hplain, h⟩
    exact Plain.acyclic_iff hplain |>.mpr h

/-- A class `A` whose `operator ->` returns a value of class `B`, and `B` with one that
returns a pointer or a value of class `B` itself. -/
def twoArrows (pointer : Bool) : ClassGraph Bool Unit where
  parms _ := false
  type _ := lit "B"
  decl
    | false => lit "f()."
    | true => if pointer then lit "f().p." else lit "f()."
  typedef_resolve_all := id
  constName _ := false
  clookup t := if t = lit "B" then some () else none
  operatorArrow _ := some true
  smart_pointer_methods _ _ := []

/-- `struct B { B operator->(); };` -/
theorem not_search_ends : ¬∀ (N C : Type) (_ : Finite N) (G : ClassGraph N C) sn, ∃ n, (G.search n sn).isSome := by
  intro h
  have hends := (exists_search_iff (twoArrows false) true).mp (h Bool Unit inferInstance (twoArrows false) true)
  refine (plain_of_acyclic hends).acyclic_iff.mp hends true .refl (.single ⟨lit "B", (), ?_⟩)
  decide

theorem chases_twoArrows {b c : Bool} (h : (twoArrows true).Chases b c) : b = false ∧ c = true := by
  obtain ⟨type, sc, htype, -, hpointer, -, hnn⟩ := h
  refine ⟨?_, (Option.some.inj hnn).symm⟩
  cases b with
  | false => rfl
  | true =>
      have hreturned : (twoArrows true).returned true = some (lit "p.B") := by decide
      obtain rfl := Option.some.inj (hreturned.symm.trans htype)
      have hcheck : (twoArrows true).checkDecl (lit "p.B") (lit "p.") = true := by decide
      cases hcheck.symm.trans hpointer

theorem search_ends_pointer : ∃ n, ((twoArrows true).search n false).isSome := by
  refine (search_ends_iff (twoArrows true) false).mpr ⟨fun _ _ => rfl, fun b _ hcycle => ?_⟩
  obtain ⟨c, hstep, hback⟩ := TransGen.head'_iff.mp hcycle
  obtain ⟨rfl, rfl⟩ := chases_twoArrows hstep
  obtain heq | ⟨d, hd, -⟩ := hback.cases_head
  · cases heq
  · cases (chases_twoArrows hd).1

end ClassGraph

end Swig.Modules
