import Swig.Lib.ExchangeSort
import Swig.Modules.Parms
import Swig.SType.FunctionType

/-!
`Swig_overload_rank` (`overload.cxx`): the overloaded declarations of a name in the order
a dispatch function tries them, by the arguments they require and then by the types of
their parameters. The warnings of the function are left out.
-/

namespace Swig.Modules

open SType ExchangeSort

/-! ### The function -/

/-- `atoi` of a number that an `int` holds. -/
def atoi (s : List Byte) : ℤ :=
  let s := s.dropWhile isspace
  let (negative, s) := match s with
    | 45 :: s => (true, s)
    | 43 :: s => (false, s)
    | s => (false, s)
  let n : ℤ := (s.takeWhile isdigit).foldl (fun n d => 10 * n + (d - chr '0').toNat) 0
  if negative then -n else n

/-- A parameter with the attributes that declarations are ranked by. -/
structure RankParm where
  parm : Parm
  type : SwigType
  ltype : Option SwigType
  typecheck_precedence : Option (List Byte)
  typecheck_SWIGTYPE : Bool
  deriving DecidableEq

/-- A declaration in a chain of overloaded ones. -/
structure RankDecl where
  name : List Byte
  error : Bool
  wrap_name : Option (List Byte)
  wrap_parms : List RankParm
  decl : Option SwigType
  deriving DecidableEq

/-- What the type system answers. -/
structure RankTypes where
  ltype : SwigType → SwigType
  issubtype : SwigType → SwigType → Bool
  const : SwigType → Bool

/-- `struct Overloaded`; the arguments and the parameters follow from the declaration. -/
structure Overloaded where
  n : RankDecl
  error : Bool
  deriving DecidableEq

def RankDecl.argc (d : RankDecl) : ℕ := emitNumRequired (d.wrap_parms.map (·.parm))

def Overloaded.argc (o : Overloaded) : ℕ := o.n.argc

/-- The parameters that the comparison of two declarations looks at. -/
def checkedFrom : (skip : ℕ) → List RankParm → List RankParm
  | _, [] => []
  | skip + 1, _ :: ps => checkedFrom skip ps
  | 0, p :: ps =>
      match p.parm.tmap_in with
      | none => p :: checkedFrom 0 ps
      | some tm =>
          if p.parm.ignored then checkedFrom tm.more ps
          else p :: checkedFrom (if ps.drop tm.more = [] then 0 else tm.more) ps

def RankDecl.checked (d : RankDecl) : List RankParm := checkedFrom 0 d.wrap_parms

namespace RankTypes

variable (T : RankTypes)

/-- The attribute `ltype`, or the type it is set to. -/
def rankType (p : RankParm) : SwigType :=
  p.ltype.getD (if p.typecheck_SWIGTYPE then addPointer (T.ltype p.type) else T.ltype p.type)

/-- A declaration without a rule for the type of a parameter is not supported. -/
def markUnsupported (t₁ t₂ : Option (List Byte)) (i j : Overloaded) : Overloaded × Overloaded :=
  if t₁.isNone ∧ ¬i.error then ({ i with error := true }, j)
  else if t₂.isNone ∧ ¬j.error then (i, { j with error := true })
  else (i, j)

/-- The loop over the parameters of `nodes[i]` and `nodes[j]`, with `n` more to check, and
the last value of `differ`. -/
def compareParms : ℕ → List RankParm → List RankParm → Overloaded → Overloaded → Overloaded × Overloaded × ℤ
  | n + 1, p₁ :: ps₁, p₂ :: ps₂, i, j =>
      let (i, j) := markUnsupported p₁.typecheck_precedence p₂.typecheck_precedence i j
      match p₁.typecheck_precedence, p₂.typecheck_precedence with
      | some t₁, some t₂ =>
          let differ := atoi t₁ - atoi t₂
          if 0 < differ then (j, i, differ)
          else if differ = 0 ∧ t₁ = lit "0" then
            let t₁ := T.rankType p₁
            let t₂ := T.rankType p₂
            let (i, j) := if T.issubtype t₂ t₁ then (j, i) else (i, j)
            if t₁ ≠ t₂ then (i, j, 1) else compareParms n ps₁ ps₂ i j
          else if differ ≠ 0 then (i, j, differ)
          else compareParms n ps₁ ps₂ i j
      | none, some _ => (j, i, 1)
      | _, none => (i, j, -1)
  | _, _, _, i, j => (i, j, 0)

/-- `SwigType_isconst`. -/
def declConst (d : SwigType) : Bool := isconst T.const d

/-- A declaration without its `const`. -/
def withoutConst (d : SwigType) : SwigType := if T.declConst d then (pop d).2 else d

/-- Declarations that differ by `const` only, and declarations that do not differ. -/
def compareDecls (script_lang_wrapping : Bool) (i j : Overloaded) : Overloaded × Overloaded :=
  let (i, j, differ) : Overloaded × Overloaded × Bool :=
    match i.n.decl, j.n.decl with
    | some d₁, some d₂ =>
        if T.withoutConst d₁ = T.withoutConst d₂ then
          if T.declConst d₁ ∧ ¬T.declConst d₂ then
            let (i, j) := if script_lang_wrapping then (j, i) else (i, j)
            (i, { j with error := true }, true)
          else if ¬T.declConst d₁ ∧ T.declConst d₂ then (i, { j with error := true }, true)
          else (i, j, false)
        else (i, j, false)
    | _, _ => (i, j, false)
  if differ then (i, j) else (i, { j with error := true })

/-- One round of the second sort. -/
def compareTypes (script_lang_wrapping : Bool) (i j : Overloaded) : Overloaded × Overloaded :=
  let (i, j, differ) := T.compareParms i.argc i.n.checked j.n.checked i j
  if differ = 0 then T.compareDecls script_lang_wrapping i j else (i, j)

end RankTypes

/-- One round of the first sort. -/
def compareArgc (i j : Overloaded) : Overloaded × Overloaded := if j.argc < i.argc then (j, i) else (i, j)

/-- `nodes`, unless there are more than `MAX_OVERLOAD` of them. -/
def overloadNodes (chain : List RankDecl) : Option (List Overloaded) :=
  let nodes := (chain.filter fun c => !c.error && c.wrap_name.isSome).map fun c => { n := c, error := false }
  if nodes.length ≤ 4096 then some nodes else none

/-- `Swig_overload_rank`: the declarations, with `overload:ignore` where it is set. -/
def overloadRank (T : RankTypes) (script_lang_wrapping : Bool) (chain : List RankDecl) :
    Option (List (RankDecl × Bool)) := do
  let nodes ← overloadNodes chain
  let nodes := exchangeSort (fun _ => 0) compareArgc nodes
  let nodes := exchangeSort Overloaded.argc (T.compareTypes script_lang_wrapping) nodes
  some (nodes.map fun o => (o.n, o.error))

/-! ### Preference -/

section

variable (T : RankTypes)

/-- A lower precedence, or at precedence 0 a subtype. -/
def LowerParm (p q : RankParm) : Prop :=
  ∃ t₁ t₂, p.typecheck_precedence = some t₁ ∧ q.typecheck_precedence = some t₂ ∧
    (atoi t₁ < atoi t₂ ∨ atoi t₁ = 0 ∧ atoi t₂ = 0 ∧ T.issubtype (T.rankType p) (T.rankType q))

/-- The same precedence, and at precedence 0 the same type. -/
def SameParm (p q : RankParm) : Prop :=
  ∃ t₁ t₂, p.typecheck_precedence = some t₁ ∧ q.typecheck_precedence = some t₂ ∧
    atoi t₁ = atoi t₂ ∧ (atoi t₁ = 0 → T.rankType p = T.rankType q)

/-- At the first of `n` positions where they differ, the first list is lower. -/
def FirstLower (lower : RankParm → RankParm → Prop) : ℕ → List RankParm → List RankParm → Prop
  | n + 1, p :: ps, q :: qs => lower p q ∨ SameParm T p q ∧ FirstLower lower n ps qs
  | _, _, _ => False

/-- `d` is strictly preferable to `e`. -/
def Preferable (d e : RankDecl) : Prop := FirstLower T (LowerParm T) d.argc d.checked e.checked

/-- A precedence of 0 is written `0`. -/
def ZeroWritten (d : RankDecl) : Prop :=
  ∀ p ∈ d.wrap_parms, ∀ t, p.typecheck_precedence = some t → atoi t = 0 → t = lit "0"

/-- Subtypes are proper, and those of subtypes are subtypes. -/
structure ProperSubtypes : Prop where
  irrefl : ∀ t, T.issubtype t t = false
  trans : ∀ s t u, T.issubtype s t → T.issubtype t u → T.issubtype s u

/-- What the loop decides by: a parameter with a rule comes before one without. -/
def EarlierParm (p q : RankParm) : Prop :=
  LowerParm T p q ∨ p.typecheck_precedence.isSome ∧ q.typecheck_precedence = none

end

variable {T : RankTypes} {p q r : RankParm} {ps qs rs : List RankParm} {n : ℕ}

/-! ### Positions -/

theorem SameParm.symm (h : SameParm T p q) : SameParm T q p := by
  obtain ⟨t₁, t₂, hp, hq, heq, htype⟩ := h
  exact ⟨t₂, t₁, hq, hp, heq.symm, fun hz => (htype (heq.trans hz)).symm⟩

theorem SameParm.trans (hpq : SameParm T p q) (hqr : SameParm T q r) : SameParm T p r := by
  obtain ⟨t₁, t₂, hp, hq, heq, htype⟩ := hpq
  obtain ⟨t₂', t₃, hq', hr, heq', htype'⟩ := hqr
  obtain rfl : t₂ = t₂' := Option.some.inj (hq.symm.trans hq')
  exact ⟨t₁, t₃, hp, hr, heq.trans heq', fun hz => (htype hz).trans (htype' (heq ▸ hz))⟩

theorem EarlierParm.same (hpq : EarlierParm T p q) (hqr : SameParm T q r) : EarlierParm T p r := by
  obtain ⟨t₂, t₃, hq, hr, heq, htype⟩ := hqr
  obtain ⟨t₁, t₂', hp, hq', hlow⟩ | ⟨-, hnone⟩ := hpq
  · obtain rfl : t₂ = t₂' := Option.some.inj (hq.symm.trans hq')
    refine .inl ⟨t₁, t₃, hp, hr, ?_⟩
    obtain hlt | ⟨hz₁, hz₂, hsub⟩ := hlow
    · exact .inl (heq ▸ hlt)
    · exact .inr ⟨hz₁, heq ▸ hz₂, htype hz₂ ▸ hsub⟩
  · rw [hq] at hnone
    cases hnone

theorem SameParm.earlier (hpq : SameParm T p q) (hqr : EarlierParm T q r) : EarlierParm T p r := by
  obtain ⟨t₁, t₂, hp, hq, heq, htype⟩ := hpq
  obtain ⟨t₂', t₃, hq', hr, hlow⟩ | ⟨-, hnone⟩ := hqr
  · obtain rfl : t₂ = t₂' := Option.some.inj (hq.symm.trans hq')
    refine .inl ⟨t₁, t₃, hp, hr, ?_⟩
    obtain hlt | ⟨hz₂, hz₃, hsub⟩ := hlow
    · exact .inl (heq ▸ hlt)
    · have hz₁ : atoi t₁ = 0 := heq.trans hz₂
      exact .inr ⟨hz₁, hz₃, (htype hz₁).symm ▸ hsub⟩
  · exact .inr ⟨by simp [hp], hnone⟩

theorem EarlierParm.trans (hT : ProperSubtypes T) (hpq : EarlierParm T p q) (hqr : EarlierParm T q r) :
    EarlierParm T p r := by
  obtain ⟨t₁, t₂, hp, hq, hlow⟩ | ⟨-, hnone⟩ := hpq
  · obtain ⟨t₂', t₃, hq', hr, hlow'⟩ | ⟨-, hnone⟩ := hqr
    · obtain rfl : t₂ = t₂' := Option.some.inj (hq.symm.trans hq')
      refine .inl ⟨t₁, t₃, hp, hr, ?_⟩
      obtain hlt | ⟨hz₁, hz₂, hsub⟩ := hlow
      · obtain hlt' | ⟨hz₂, hz₃, -⟩ := hlow'
        · exact .inl (Int.lt_trans hlt hlt')
        · exact .inl (by omega)
      · obtain hlt' | ⟨-, hz₃, hsub'⟩ := hlow'
        · exact .inl (by omega)
        · exact .inr ⟨hz₁, hz₃, hT.trans _ _ _ hsub hsub'⟩
    · exact .inr ⟨by simp [hp], hnone⟩
  · obtain ⟨t₂, t₃, hq, -⟩ | ⟨hsome, -⟩ := hqr
    · rw [hnone] at hq
      cases hq
    · rw [hnone] at hsome
      cases hsome

theorem EarlierParm.irrefl (hT : ProperSubtypes T) : ¬EarlierParm T p p := by
  rintro (⟨t₁, t₂, h₁, h₂, hlow⟩ | ⟨hsome, hnone⟩)
  · obtain rfl : t₁ = t₂ := Option.some.inj (h₁.symm.trans h₂)
    obtain hlt | ⟨-, -, hsub⟩ := hlow
    · exact Int.lt_irrefl _ hlt
    · rw [hT.irrefl] at hsub
      cases hsub
  · rw [hnone] at hsome
    cases hsome

/-! ### Lists of parameters -/

/-- The first `n` positions do not differ. -/
def SameParms (T : RankTypes) : ℕ → List RankParm → List RankParm → Prop
  | n + 1, p :: ps, q :: qs => SameParm T p q ∧ SameParms T n ps qs
  | 0, _, _ => True
  | _, _, _ => False

/-- What the loop decides by, over `n` positions. -/
def Earlier (T : RankTypes) : ℕ → List RankParm → List RankParm → Prop := FirstLower T (EarlierParm T)

theorem FirstLower.earlier (h : FirstLower T (LowerParm T) n ps qs) : Earlier T n ps qs := by
  induction n generalizing ps qs with
  | zero => cases h
  | succ n ih =>
      cases ps with
      | nil => cases h
      | cons p ps =>
          cases qs with
          | nil => cases h
          | cons q qs => exact h.imp .inl fun ⟨hsame, hrest⟩ => ⟨hsame, ih hrest⟩

theorem Earlier.trans (hT : ProperSubtypes T) (hpq : Earlier T n ps qs) (hqr : Earlier T n qs rs) :
    Earlier T n ps rs := by
  induction n generalizing ps qs rs with
  | zero => cases hpq
  | succ n ih =>
      cases ps with
      | nil => cases hpq
      | cons p ps =>
          cases qs with
          | nil => cases hpq
          | cons q qs =>
              cases rs with
              | nil => cases hqr
              | cons r rs =>
                  obtain hlow | ⟨hsame, hrest⟩ := hpq
                  · obtain hlow' | ⟨hsame', -⟩ := hqr
                    · exact .inl (hlow.trans hT hlow')
                    · exact .inl (hlow.same hsame')
                  · obtain hlow' | ⟨hsame', hrest'⟩ := hqr
                    · exact .inl (hsame.earlier hlow')
                    · exact .inr ⟨hsame.trans hsame', ih hrest hrest'⟩

theorem Earlier.irrefl (hT : ProperSubtypes T) : ¬Earlier T n ps ps := by
  induction n generalizing ps with
  | zero => exact fun h => h
  | succ n ih =>
      cases ps with
      | nil => exact fun h => h
      | cons p ps =>
          rintro (hlow | ⟨-, hrest⟩)
          · exact hlow.irrefl hT
          · exact ih hrest

theorem Earlier.sameParms (hqr : SameParms T n qs rs) (hpq : Earlier T n ps qs) : Earlier T n ps rs := by
  induction n generalizing ps qs rs with
  | zero => cases hpq
  | succ n ih =>
      cases ps with
      | nil => cases hpq
      | cons p ps =>
          cases qs with
          | nil => cases hpq
          | cons q qs =>
              cases rs with
              | nil => cases hqr
              | cons r rs =>
                  obtain ⟨hsame', hrest'⟩ := hqr
                  obtain hlow | ⟨hsame, hrest⟩ := hpq
                  · exact .inl (hlow.same hsame')
                  · exact .inr ⟨hsame.trans hsame', ih hrest' hrest⟩

theorem SameParms.symm (h : SameParms T n ps qs) : SameParms T n qs ps := by
  induction n generalizing ps qs with
  | zero => trivial
  | succ n ih =>
      cases ps with
      | nil => cases h
      | cons p ps =>
          cases qs with
          | nil => cases h
          | cons q qs => exact ⟨h.1.symm, ih h.2⟩

theorem SameParms.not_earlier (hT : ProperSubtypes T) (h : SameParms T n ps qs) : ¬Earlier T n ps qs :=
  fun hlow => Earlier.irrefl hT (hlow.sameParms h.symm)

/-! ### The loop over the parameters -/

section

variable {i j : Overloaded} {script_lang_wrapping : Bool}

theorem markUnsupported_n (t₁ t₂ : Option (List Byte)) (i j : Overloaded) :
    (RankTypes.markUnsupported t₁ t₂ i j).1.n = i.n ∧ (RankTypes.markUnsupported t₁ t₂ i j).2.n = j.n := by
  rw [RankTypes.markUnsupported]
  split
  · exact ⟨rfl, rfl⟩
  · split <;> exact ⟨rfl, rfl⟩

theorem earlierParm_iff {t₁ t₂ : List Byte} (hp : p.typecheck_precedence = some t₁)
    (hq : q.typecheck_precedence = some t₂) : EarlierParm T q p ↔
      atoi t₂ < atoi t₁ ∨ atoi t₂ = 0 ∧ atoi t₁ = 0 ∧ T.issubtype (T.rankType q) (T.rankType p) := by
  simp [EarlierParm, LowerParm, hp, hq]

theorem sameParm_iff {t₁ t₂ : List Byte} (hp : p.typecheck_precedence = some t₁)
    (hq : q.typecheck_precedence = some t₂) :
    SameParm T q p ↔ atoi t₂ = atoi t₁ ∧ (atoi t₂ = 0 → T.rankType q = T.rankType p) := by
  simp [SameParm, hp, hq]

/-- A round of the loop puts the second declaration first, or leaves it where it is, or goes on. -/
theorem compareParms_cases (hT : ProperSubtypes T) (p q : RankParm) (ps qs : List RankParm) (i j : Overloaded) : ∃ i' j', i'.n = i.n ∧ j'.n = j.n ∧
    ((∃ d, d ≠ 0 ∧ T.compareParms (n + 1) (p :: ps) (q :: qs) i j = (j', i', d) ∧ EarlierParm T q p) ∨
    (∃ d, d ≠ 0 ∧ T.compareParms (n + 1) (p :: ps) (q :: qs) i j = (i', j', d) ∧
      ¬EarlierParm T q p ∧ ¬SameParm T q p) ∨
    (T.compareParms (n + 1) (p :: ps) (q :: qs) i j = T.compareParms n ps qs i' j' ∧
      ((∀ t, p.typecheck_precedence = some t → atoi t = 0 → t = lit "0") → SameParm T q p))) := by
  obtain ⟨hi, hj⟩ := markUnsupported_n p.typecheck_precedence q.typecheck_precedence i j
  refine ⟨_, _, hi, hj, ?_⟩
  rw [RankTypes.compareParms]
  cases hp : p.typecheck_precedence with
  | none =>
      cases hq : q.typecheck_precedence with
      | none =>
          refine .inr (.inl ⟨-1, by decide, rfl, ?_, ?_⟩)
          · simp [EarlierParm, LowerParm, hp, hq]
          · simp [SameParm, hp]
      | some t₂ => exact .inl ⟨1, by decide, rfl, .inr ⟨by simp [hq], hp⟩⟩
  | some t₁ =>
      cases hq : q.typecheck_precedence with
      | none =>
          refine .inr (.inl ⟨-1, by decide, rfl, ?_, ?_⟩)
          · simp [EarlierParm, LowerParm, hq]
          · simp [SameParm, hq]
      | some t₂ =>
          rw [earlierParm_iff hp hq, sameParm_iff hp hq]
          dsimp only
          by_cases hlow : 0 < atoi t₁ - atoi t₂
          · rw [if_pos hlow]
            exact .inl ⟨_, by omega, rfl, .inl (by omega)⟩
          rw [if_neg hlow]
          by_cases hzero : atoi t₁ - atoi t₂ = 0 ∧ t₁ = lit "0"
          · rw [if_pos hzero]
            have h₁ : atoi t₁ = 0 := by rw [hzero.2]; decide
            have h₂ : atoi t₂ = 0 := by omega
            cases hsub : T.issubtype (T.rankType q) (T.rankType p) with
            | true =>
                have hne : T.rankType p ≠ T.rankType q := fun heq => by
                  rw [heq, hT.irrefl] at hsub
                  cases hsub
                rw [if_pos hne]
                exact .inl ⟨1, by decide, rfl, .inr ⟨h₂, h₁, rfl⟩⟩
            | false =>
                by_cases hne : T.rankType p ≠ T.rankType q
                · rw [if_pos hne]
                  refine .inr (.inl ⟨1, by decide, rfl, ?_, fun hsame => hne (hsame.2 h₂).symm⟩)
                  rintro (hlt | ⟨-, -, h⟩)
                  · omega
                  · cases h
                · rw [if_neg hne]
                  exact .inr (.inr ⟨rfl, fun _ => ⟨by omega, fun _ => (not_not.mp hne).symm⟩⟩)
          rw [if_neg hzero]
          by_cases hdiffer : atoi t₁ - atoi t₂ ≠ 0
          · rw [if_pos hdiffer]
            exact .inr (.inl ⟨_, hdiffer, rfl, by omega, fun hsame => by omega⟩)
          · rw [if_neg hdiffer]
            refine .inr (.inr ⟨rfl, fun hwritten => ⟨by omega, fun h₂ => ?_⟩⟩)
            exact absurd ⟨not_not.mp hdiffer, hwritten t₁ rfl (by omega)⟩ hzero

/-- `a` and `b` stand for the declarations of `i` and `j`, in this order or in the other. -/
def Exchanged (i j a b : Overloaded) : Prop := a.n = i.n ∧ b.n = j.n ∨ a.n = j.n ∧ b.n = i.n

theorem Exchanged.trans {a b c d : Overloaded} (h : Exchanged i j a b) (h' : Exchanged a b c d) :
    Exchanged i j c d := by
  obtain ⟨hi, hj⟩ | ⟨hi, hj⟩ := h
  · rwa [Exchanged, hi, hj] at h'
  · rw [Exchanged, hi, hj] at h'
    exact h'.symm

theorem compareParms_exchanged (hT : ProperSubtypes T) (n : ℕ) (ps qs : List RankParm) :
    Exchanged i j (T.compareParms n ps qs i j).1 (T.compareParms n ps qs i j).2.1 := by
  induction n generalizing ps qs i j with
  | zero => exact .inl ⟨rfl, rfl⟩
  | succ n ih =>
      cases ps with
      | nil => exact .inl ⟨rfl, rfl⟩
      | cons p ps =>
          cases qs with
          | nil => exact .inl ⟨rfl, rfl⟩
          | cons q qs =>
              obtain ⟨i', j', hi, hj, ⟨d, -, hr, -⟩ | ⟨d, -, hr, -⟩ | ⟨hr, -⟩⟩ :=
                compareParms_cases (n := n) hT p q ps qs i j
              · rw [hr]
                exact .inr ⟨hj, hi⟩
              · rw [hr]
                exact .inl ⟨hi, hj⟩
              · rw [hr]
                exact Exchanged.trans (.inl ⟨hi, hj⟩) (ih ps qs)

/-- The loop puts the declaration first that is lower at the first position where they differ. -/
theorem compareParms_order (hT : ProperSubtypes T) (hn : n ≤ ps.length) (hm : n ≤ qs.length)
    (hzero : ∀ p ∈ ps, ∀ t, p.typecheck_precedence = some t → atoi t = 0 → t = lit "0") :
    (Earlier T n qs ps ∧ (T.compareParms n ps qs i j).1.n = j.n ∧ (T.compareParms n ps qs i j).2.1.n = i.n ∧
      (T.compareParms n ps qs i j).2.2 ≠ 0) ∨
    (¬Earlier T n qs ps ∧ (T.compareParms n ps qs i j).1.n = i.n ∧ (T.compareParms n ps qs i j).2.1.n = j.n ∧
      ((T.compareParms n ps qs i j).2.2 = 0 → SameParms T n qs ps)) := by
  induction n generalizing ps qs i j with
  | zero => exact .inr ⟨fun h => h, rfl, rfl, fun _ => trivial⟩
  | succ n ih =>
      cases ps with
      | nil => cases hn
      | cons p ps =>
          cases qs with
          | nil => cases hm
          | cons q qs =>
              obtain ⟨i', j', hi, hj, ⟨d, hd, hr, hlow⟩ | ⟨d, hd, hr, hlow, hsame⟩ | ⟨hr, hsame⟩⟩ :=
                compareParms_cases (n := n) hT p q ps qs i j
              · rw [hr]
                exact .inl ⟨.inl hlow, hj, hi, hd⟩
              · rw [hr]
                exact .inr ⟨fun h => h.elim hlow fun h => hsame h.1, hi, hj, fun h => absurd h hd⟩
              · rw [hr]
                have hsame := hsame (hzero p List.mem_cons_self)
                have hno : ¬EarlierParm T q p := fun h => (h.same hsame.symm).irrefl hT
                have hrest := ih (i := i') (j := j') (Nat.le_of_succ_le_succ hn) (Nat.le_of_succ_le_succ hm)
                  fun p hp => hzero p (List.mem_cons_of_mem _ hp)
                rw [hi, hj] at hrest
                refine hrest.imp (fun ⟨h, hrest⟩ => ⟨.inr ⟨hsame, h⟩, hrest⟩) fun ⟨h, h₁, h₂, h₃⟩ =>
                  ⟨fun h' => h'.elim hno fun h' => h h'.2, h₁, h₂, fun hd => ⟨hsame, h₃ hd⟩⟩

/-! ### The comparison of two declarations -/

theorem compareDecls_exchanged (script_lang_wrapping : Bool) :
    Exchanged i j (T.compareDecls script_lang_wrapping i j).1 (T.compareDecls script_lang_wrapping i j).2 := by
  rw [RankTypes.compareDecls]
  cases i.n.decl with
  | none => exact .inl ⟨rfl, rfl⟩
  | some d₁ =>
      cases j.n.decl with
      | none => exact .inl ⟨rfl, rfl⟩
      | some d₂ =>
          dsimp only
          split
          · split
            · cases script_lang_wrapping with
              | true => exact .inr ⟨rfl, rfl⟩
              | false => exact .inl ⟨rfl, rfl⟩
            · split <;> exact .inl ⟨rfl, rfl⟩
          · exact .inl ⟨rfl, rfl⟩

theorem compareTypes_eq (script_lang_wrapping : Bool) (i j : Overloaded) :
    T.compareTypes script_lang_wrapping i j =
      if (T.compareParms i.argc i.n.checked j.n.checked i j).2.2 = 0 then
        T.compareDecls script_lang_wrapping (T.compareParms i.argc i.n.checked j.n.checked i j).1
          (T.compareParms i.argc i.n.checked j.n.checked i j).2.1
      else ((T.compareParms i.argc i.n.checked j.n.checked i j).1,
        (T.compareParms i.argc i.n.checked j.n.checked i j).2.1) := rfl

theorem compareTypes_exchanged (hT : ProperSubtypes T) (script_lang_wrapping : Bool) :
    Exchanged i j (T.compareTypes script_lang_wrapping i j).1 (T.compareTypes script_lang_wrapping i j).2 := by
  have hparms := compareParms_exchanged (i := i) (j := j) hT i.argc i.n.checked j.n.checked
  rw [compareTypes_eq]
  split
  · exact hparms.trans (compareDecls_exchanged script_lang_wrapping)
  · exact hparms

/-- `d` requires as many arguments as `e`, and the loop puts it first. -/
def Better (T : RankTypes) (d e : RankDecl) : Prop := d.argc = e.argc ∧ Earlier T d.argc d.checked e.checked

theorem numRequired_of_drop_eq_nil (compactdefargs : Bool) {skip : ℕ} {ps : List Parm} (h : ps.drop skip = []) :
    numRequired compactdefargs skip ps = 0 := by
  induction ps generalizing skip with
  | nil => rw [numRequired]
  | cons p ps ih =>
      cases skip with
      | zero => cases h
      | succ skip =>
          rw [numRequired]
          exact ih (by simpa using h)

theorem length_checkedFrom (compactdefargs : Bool) (skip : ℕ) (ps : List RankParm) :
    numRequired compactdefargs skip (ps.map (·.parm)) ≤ (checkedFrom skip ps).length := by
  fun_induction checkedFrom skip ps with
  | case1 => simp [numRequired]
  | case2 skip p ps ih => simpa [numRequired] using ih
  | case3 p ps hin ih =>
      simp only [List.map_cons, numRequired, hin, List.length_cons]
      split
      · exact Nat.zero_le _
      · omega
  | case4 p ps tm hin hignored ih =>
      have hzero : tm.numinputs = 0 := by simpa [Parm.ignored, hin] using hignored
      simpa only [List.map_cons, numRequired, hin, if_pos hzero] using ih
  | case5 p ps tm hin hignored ih =>
      have hzero : tm.numinputs ≠ 0 := by simpa [Parm.ignored, hin] using hignored
      have hle := tm.numinputs_le
      simp only [List.map_cons, numRequired, hin, if_neg hzero, List.length_cons]
      split
      · exact Nat.zero_le _
      · by_cases hdrop : ps.drop tm.more = []
        · have hdrop' : (ps.map (·.parm)).drop tm.more = [] := by rw [← List.map_drop, hdrop]; rfl
          have hnone := numRequired_of_drop_eq_nil compactdefargs hdrop'
          omega
        · rw [if_neg hdrop] at ih
          rw [if_neg hdrop]
          omega

theorem mem_checkedFrom {skip : ℕ} (h : p ∈ checkedFrom skip ps) : p ∈ ps := by
  fun_induction checkedFrom skip ps with
  | case1 => cases h
  | case2 skip q ps ih => exact List.mem_cons_of_mem q (ih h)
  | case3 q ps hin ih => exact List.mem_cons.mpr ((List.mem_cons.mp h).imp_right ih)
  | case4 q ps tm hin hignored ih => exact List.mem_cons_of_mem q (ih h)
  | case5 q ps tm hin hignored ih => exact List.mem_cons.mpr ((List.mem_cons.mp h).imp_right ih)

theorem RankDecl.argc_le (d : RankDecl) : d.argc ≤ d.checked.length :=
  length_checkedFrom _ 0 d.wrap_parms

/-- The second sort exchanges two declarations where the second is better. -/
theorem exchanges_compareTypes (hT : ProperSubtypes T) (script_lang_wrapping : Bool) :
    Exchanges Overloaded.n ZeroWritten Overloaded.argc (Better T) (T.compareTypes script_lang_wrapping) where
  ranked _ _ h := h.1
  first c x hrank := by
    obtain ⟨h, -⟩ | ⟨h, -⟩ := compareTypes_exchanged (i := c) (j := x) hT script_lang_wrapping
    · rw [Overloaded.argc, h, Overloaded.argc]
    · rw [Overloaded.argc, h, ← hrank, Overloaded.argc]
  second c x hrank := by
    obtain ⟨-, h⟩ | ⟨-, h⟩ := compareTypes_exchanged (i := c) (j := x) hT script_lang_wrapping
    · rw [Overloaded.argc, h, Overloaded.argc]
    · rw [Overloaded.argc, h, hrank, Overloaded.argc]
  step c x hc hx hrank := by
    have hrank : x.n.argc = c.n.argc := hrank
    have horder := compareParms_order (i := c) (j := x) hT c.n.argc_le (hrank ▸ x.n.argc_le)
      fun p hp => hc p (mem_checkedFrom hp)
    have hno {d e : RankDecl} (h : Better T d e) : ¬Better T e d := fun h' =>
      Earlier.irrefl hT (h.2.trans hT (h.1 ▸ h'.2))
    rw [compareTypes_eq]
    obtain ⟨hlow, h₁, h₂, hd⟩ | ⟨hlow, h₁, h₂, hd⟩ := horder
    · have hbetter : Better T x.n c.n := ⟨hrank, hrank ▸ hlow⟩
      have hup (z : RankDecl) (hz : Better T z x.n) : Better T z c.n :=
        ⟨hz.1.trans hrank, hz.2.trans hT (hz.1 ▸ hbetter.2)⟩
      have hd : ¬(T.compareParms c.argc c.n.checked x.n.checked c x).2.2 = 0 := hd
      rw [if_neg hd]
      exact .inr ⟨h₁, h₂, hno hbetter, hup⟩
    have hkept : ¬Better T x.n c.n := fun h => hlow (hrank ▸ h.2)
    by_cases hd' : (T.compareParms c.argc c.n.checked x.n.checked c x).2.2 = 0
    · have hsame := hd hd'
      rw [if_pos hd']
      obtain ⟨h₁', h₂'⟩ | ⟨h₁', h₂'⟩ := compareDecls_exchanged (T := T) script_lang_wrapping
        (i := (T.compareParms c.argc c.n.checked x.n.checked c x).1)
        (j := (T.compareParms c.argc c.n.checked x.n.checked c x).2.1)
      · exact .inl ⟨h₁'.trans h₁, h₂'.trans h₂, hkept⟩
      · refine .inr ⟨h₁'.trans h₂, h₂'.trans h₁, fun h => hsame.symm.not_earlier hT h.2, fun z hz => ?_⟩
        exact ⟨hz.1.trans hrank, hz.2.sameParms (hz.1.trans hrank ▸ hsame)⟩
    · rw [if_neg hd']
      exact .inl ⟨h₁, h₂, hkept⟩

theorem exchanges_compareArgc : Exchanges Overloaded.n (fun _ => True) (fun _ => 0)
    (fun d e => d.argc < e.argc) compareArgc where
  ranked _ _ _ := rfl
  first _ _ _ := rfl
  second _ _ _ := rfl
  step c x _ _ _ := by
    rw [compareArgc]
    by_cases h : x.argc < c.argc
    · rw [if_pos h]
      exact .inr ⟨rfl, rfl, Nat.not_lt.mpr (Nat.le_of_lt h), fun z hz => Nat.lt_trans hz h⟩
    · rw [if_neg h]
      exact .inl ⟨rfl, rfl, h⟩

end

/-- The declarations that are ranked. -/
def ranked (chain : List RankDecl) : List RankDecl := chain.filter fun c => !c.error && c.wrap_name.isSome

/-- A parameter with a rule for its type. -/
def typedParm (type : SwigType) (precedence : List Byte) : RankParm where
  parm := { tmap_in := some .single, tmap_typecheck := some [], tmap_default := false, value := false,
            implicitconv := none, compactdefargs := false, emit_varargs := false }
  type := type
  ltype := none
  typecheck_precedence := some precedence
  typecheck_SWIGTYPE := false

/-- `name(parms..)`. -/
def typedDecl (name : String) (parms : List RankParm) : RankDecl where
  name := lit name
  error := false
  wrap_name := some (lit name)
  wrap_parms := parms
  decl := some (addFunction [] (parms.map (·.type)))

/-- Types that stay as they are, with the subtypes `sub`. -/
def plainTypes (sub : SwigType → SwigType → Bool) : RankTypes := ⟨id, sub, fun _ => false⟩

/-- `B` is derived from `A`. -/
def derived : RankTypes := plainTypes fun s t => s == lit "B" && t == lit "A"

theorem derived_proper : ProperSubtypes derived where
  irrefl t := by
    cases ht : t == lit "B" with
    | false => simp [derived, plainTypes, ht]
    | true =>
        rw [beq_iff_eq.mp ht]
        decide
  trans s t u hst htu := by
    simp only [derived, plainTypes, Bool.and_eq_true, beq_iff_eq] at hst htu
    have hne : lit "A" ≠ lit "B" := by decide
    exact absurd (hst.2.symm.trans htu.1) hne

/-- `f(A)` and `f(B)`. -/
def baseDecl (precedence : String) : RankDecl := typedDecl "f_A" [typedParm (lit "A") (lit precedence)]

def derivedDecl (precedence : String) : RankDecl := typedDecl "f_B" [typedParm (lit "B") (lit precedence)]

/-- `f(A, C)` and `f(A, D)`, with a higher precedence for `D`. -/
def pairDecl (name : String) (type precedence : String) : RankDecl :=
  typedDecl name [typedParm (lit "A") (lit "0"), typedParm (lit type) (lit precedence)]

end Swig.Modules
