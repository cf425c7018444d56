import Mathlib.Logic.Relation
import Swig.DOH.ReplaceMarker
import Swig.DOH.ReplaceWords
import Swig.Lib.Fuel

/-!
`Swig_cparse_replace_descriptor` (`CParse/util.c`).
-/

namespace Swig.CParse.Descriptor

open DOH ByteBlock Fuel
open Relation (ReflTransGen)

/-- A text as a C string has it. -/
abbrev CString := { s : List Byte // ∀ c ∈ s, c ≠ 0 }

/-- The parser of types, and the mangled names, which are of letters, digits and `_`. -/
structure TypeNames where
  SwigType : Type
  cparse_type : List Byte → Option SwigType
  manglestr : SwigType → List Byte
  isIdent_manglestr : ∀ t, ∀ c ∈ manglestr t, isIdent c = true

def descriptorMarker : List Byte := lit "$descriptor("

/-- `*d = c` behind what has been written to `tmp`; no result outside of the buffer. -/
def put (tmp : List Byte) (c : Byte) : Option (List Byte) := if tmp.length < 512 then some (tmp ++ [c]) else none

/-- `if (*c == '(') level++`. -/
def opened (level : ℤ) (c : Byte) : ℤ := if c = chr '(' then level + 1 else level

/-- The loop that copies the macro, up to its closing parenthesis. -/
def copyLoop : ℤ → List Byte → List Byte → Option (List Byte)
  | _, tmp, [] => some tmp
  | level, tmp, c :: cs =>
      if c = chr ')' then
        if opened level c - 1 = 0 then some tmp else (put tmp c).bind (copyLoop (opened level c - 1) · cs)
      else (put tmp c).bind (copyLoop (opened level c) · cs)

/-- `Swig_cparse_replace_descriptor`. -/
def replaceDescriptor (T : TypeNames) : ℕ → List Byte → Option (List Byte)
  | 0, _ => none
  | fuel + 1, s =>
      match indexOf descriptorMarker s with
      | none => some s
      | some c => do
          let tmp ← copyLoop 0 [] (s.drop c)
          let _ ← put tmp 0
          match T.cparse_type (tmp.drop 12) with
          | none => return s
          | some t =>
              let tmp ← put tmp (chr ')')
              let _ ← put tmp 0
              let s ← replaceText s tmp (lit "SWIGTYPE" ++ T.manglestr t) DOH_REPLACE_ANY
              replaceDescriptor T fuel s

/-! ### The texts searched -/

/-- The text in front of the parenthesis that closes the ones opened, or all of it, and whether there is one. -/
def argument : ℤ → List Byte → List Byte × Bool
  | _, [] => ([], false)
  | level, c :: cs =>
      if c = chr ')' ∧ opened level c - 1 = 0 then ([], true)
      else
        let rest := argument (if c = chr ')' then opened level c - 1 else opened level c) cs
        (c :: rest.1, rest.2)

/-- The first macro of a text without its last parenthesis, and whether it has one. -/
def firstDescriptor (s : List Byte) : Option (List Byte × Bool) :=
  (indexOf descriptorMarker s).map fun c => argument 0 (s.drop c)

/-- A macro of a type is replaced in every place. -/
inductive Rewrites (T : TypeNames) : List Byte → List Byte → Prop
  | mk {s tmp : List Byte} {t : T.SwigType} (h : firstDescriptor s = some (tmp, true))
      (ht : T.cparse_type (tmp.drop 12) = some t) :
      Rewrites T s (replacedAll (tmp ++ [chr ')']) (lit "SWIGTYPE" ++ T.manglestr t) s)

/-- The first macro is closed or has no type, and fits into the buffer. -/
def Fits (T : TypeNames) (s : List Byte) : Prop :=
  ∀ tmp closed, firstDescriptor s = some (tmp, closed) →
    if (T.cparse_type (tmp.drop 12)).isSome then closed = true ∧ tmp.length + 1 < 512 else tmp.length < 512

variable {T : TypeNames} {s s' tmp : List Byte} {c : ℕ} {level : ℤ} {t : T.SwigType}

theorem argument_close {b : Byte} {bs : List Byte} (h : b = chr ')' ∧ opened level b - 1 = 0) :
    argument level (b :: bs) = ([], true) := if_pos h

theorem argument_cons {b : Byte} {bs : List Byte} (h : ¬(b = chr ')' ∧ opened level b - 1 = 0)) :
    argument level (b :: bs) =
      (b :: (argument (if b = chr ')' then opened level b - 1 else opened level b) bs).1,
        (argument (if b = chr ')' then opened level b - 1 else opened level b) bs).2) := if_neg h

theorem copyLoop_eq (htmp : tmp.length ≤ 512) (level : ℤ) (s : List Byte) : copyLoop level tmp s =
    if tmp.length + (argument level s).1.length ≤ 512 then some (tmp ++ (argument level s).1) else none := by
  induction s generalizing level tmp with
  | nil => simp [copyLoop, argument, htmp]
  | cons c cs ih =>
      have hput (level : ℤ) : (put tmp c).bind (copyLoop level · cs) =
          if tmp.length + (c :: (argument level cs).1).length ≤ 512 then some (tmp ++ c :: (argument level cs).1)
          else none := by
        rw [put]
        split
        · have hlen : (tmp ++ [c]).length = tmp.length + 1 := List.length_append
          rw [Option.bind_some, ih (by omega), hlen, List.length_cons, List.append_assoc, Nat.add_assoc,
            Nat.add_comm 1]
          rfl
        · rw [if_neg (by rw [List.length_cons]; omega)]
          rfl
      rw [copyLoop]
      by_cases hc : c = chr ')'
      · rw [if_pos hc]
        by_cases hlevel : opened level c - 1 = 0
        · rw [if_pos hlevel, argument_close ⟨hc, hlevel⟩, List.append_nil]
          exact (if_pos htmp).symm
        · rw [if_neg hlevel, argument_cons fun h => hlevel h.2, if_pos hc]
          exact hput _
      · rw [if_neg hc, argument_cons fun h => hc h.1, if_neg hc]
        exact hput _

/-! ### The macro -/

theorem argument_marker (s : List Byte) : argument 0 (descriptorMarker ++ s) =
    (descriptorMarker ++ (argument 1 s).1, (argument 1 s).2) := rfl

theorem prefix_of_argument (level : ℤ) (s : List Byte) : (argument level s).1 <+: s ∧
    ((argument level s).2 = true → (argument level s).1 ++ [chr ')'] <+: s) ∧
    ((argument level s).2 = false → (argument level s).1 = s) := by
  induction s generalizing level with
  | nil => exact ⟨List.prefix_rfl, by rintro ⟨⟩, fun _ => rfl⟩
  | cons c cs ih =>
      by_cases hc : c = chr ')' ∧ opened level c - 1 = 0
      · rw [argument_close hc]
        exact ⟨List.nil_prefix, fun _ => hc.1 ▸ List.prefix_append [c] cs, by rintro ⟨⟩⟩
      · rw [argument_cons hc]
        obtain ⟨hpre, hclosed, hopen⟩ := ih (if c = chr ')' then opened level c - 1 else opened level c)
        exact ⟨List.cons_prefix_cons.mpr ⟨rfl, hpre⟩, fun h => List.cons_prefix_cons.mpr ⟨rfl, hclosed h⟩,
          fun h => congrArg (c :: ·) (hopen h)⟩

theorem firstDescriptor_eq_none : firstDescriptor s = none ↔ indexOf descriptorMarker s = none := Option.map_eq_none_iff

/-- The place of the first macro. -/
theorem firstDescriptor_spec {closed : Bool} (h : firstDescriptor s = some (tmp, closed)) :
    ∃ c, indexOf descriptorMarker s = some c ∧ argument 0 (s.drop c) = (tmp, closed) ∧
      descriptorMarker <+: tmp ∧ (∀ i < c, ¬Occurs descriptorMarker s i) ∧
      (closed = true → Occurs (tmp ++ [chr ')']) s c) ∧ (closed = false → tmp = s.drop c) := by
  obtain ⟨c, hc, harg⟩ := Option.map_eq_some_iff.mp h
  obtain ⟨hocc, hfirst⟩ := (indexOf_spec descriptorMarker s).1 c hc
  obtain ⟨v, hv⟩ := hocc
  obtain ⟨-, hclosed, hopen⟩ := prefix_of_argument 0 (s.drop c)
  rw [harg] at hclosed hopen
  refine ⟨c, hc, harg, ?_, hfirst, hclosed, hopen⟩
  rw [← hv, argument_marker] at harg
  exact (Prod.mk.inj harg).1 ▸ List.prefix_append _ _

/-! ### One round -/

theorem unmarked_descriptor (T : TypeNames) (t : T.SwigType) :
    Unmarked descriptorMarker (lit "SWIGTYPE" ++ T.manglestr t) := by
  refine ⟨List.append_ne_nil_of_left_ne_nil (by decide) _, fun c hc hmem => ?_, fun c hc hmem => ?_⟩
  · obtain rfl : chr '$' = c := Option.some.inj hc
    obtain hmem | hmem := List.mem_append.mp hmem
    · exact absurd hmem (by decide)
    · exact absurd (T.isIdent_manglestr t _ hmem) (by decide)
  · obtain rfl : chr 'S' = c := Option.some.inj hc
    exact absurd hmem (by decide)

theorem nulFree_descriptor (T : TypeNames) (t : T.SwigType) : ∀ c ∈ lit "SWIGTYPE" ++ T.manglestr t, c ≠ 0 := by
  intro c hc
  obtain hc | hc := List.mem_append.mp hc
  · rintro rfl
    exact absurd hc (by decide)
  · exact isIdent_ne_zero (T.isIdent_manglestr t c hc)

theorem replaceDescriptor_none (h : firstDescriptor s = none) (fuel : ℕ) :
    replaceDescriptor T (fuel + 1) s = some s := by
  rw [replaceDescriptor, firstDescriptor_eq_none.mp h]

/-- What is returned after a round with the macro `tmp`. -/
def roundResult (T : TypeNames) (fuel : ℕ) (s tmp : List Byte) : Option (List Byte) :=
  match T.cparse_type (tmp.drop 12) with
  | none => if tmp.length < 512 then some s else none
  | some t =>
      if tmp.length + 1 < 512 then
        replaceDescriptor T fuel (replacedAll (tmp ++ [chr ')']) (lit "SWIGTYPE" ++ T.manglestr t) s)
      else none

theorem roundResult_none (h : T.cparse_type (tmp.drop 12) = none) (fuel : ℕ) (s : List Byte) :
    roundResult T fuel s tmp = if tmp.length < 512 then some s else none := by
  rw [roundResult, h]

theorem roundResult_some (h : T.cparse_type (tmp.drop 12) = some t) (fuel : ℕ) (s : List Byte) :
    roundResult T fuel s tmp = if tmp.length + 1 < 512 then
      replaceDescriptor T fuel (replacedAll (tmp ++ [chr ')']) (lit "SWIGTYPE" ++ T.manglestr t) s) else none := by
  rw [roundResult, h]

theorem replaceDescriptor_some (hs : ∀ c ∈ s, c ≠ 0) {closed : Bool} (h : firstDescriptor s = some (tmp, closed))
    (fuel : ℕ) : replaceDescriptor T (fuel + 1) s = roundResult T fuel s tmp := by
  obtain ⟨c, hc, harg, hmarker, -⟩ := firstDescriptor_spec h
  have hcopy := @copyLoop_eq [] (Nat.zero_le _) 0 (s.drop c)
  rw [harg, List.length_nil, Nat.zero_add, List.nil_append] at hcopy
  dsimp only at hcopy
  have htoken : tmp ++ [chr ')'] ≠ [] := List.append_ne_nil_of_right_ne_nil tmp (List.cons_ne_nil _ _)
  have hput (u : List Byte) (c : Byte) (hu : u.length < 512) : put u c = some (u ++ [c]) := if_pos hu
  have hfull (u : List Byte) (c : Byte) (hu : ¬u.length < 512) : put u c = none := if_neg hu
  have hlen : (tmp ++ [chr ')']).length = tmp.length + 1 := List.length_append
  rw [replaceDescriptor, hc]
  dsimp only
  by_cases hlt : tmp.length < 512
  · rw [hcopy, if_pos (Nat.le_of_lt hlt)]
    simp only [Option.bind_eq_bind, Option.bind_some, hput tmp _ hlt]
    cases ht : T.cparse_type (tmp.drop 12) with
    | none => exact ((roundResult_none ht fuel s).trans (if_pos hlt)).symm
    | some t =>
        rw [roundResult_some ht]
        dsimp only
        by_cases hlt' : tmp.length + 1 < 512
        · rw [hput _ 0 (hlen ▸ hlt'), if_pos hlt', replaceText_any htoken (nulFree_descriptor T t) hs]
          rfl
        · rw [hfull _ 0 (hlen ▸ hlt'), if_neg hlt']
          rfl
  · rw [hcopy]
    have hnone : roundResult T fuel s tmp = none := by
      rw [roundResult]
      cases T.cparse_type (tmp.drop 12) with
      | none => exact if_neg hlt
      | some t => exact if_neg (by omega)
    rw [hnone]
    split
    · rw [Option.bind_eq_bind, Option.bind_some, hfull tmp 0 hlt]
      rfl
    · rfl

/-! ### All rounds -/

theorem nulFree_rewrites (h : Rewrites T s s') (hs : ∀ c ∈ s, c ≠ 0) : ∀ c ∈ s', c ≠ 0 := by
  obtain ⟨h, ht⟩ := h
  exact nulFree_replacedAll (List.append_ne_nil_of_right_ne_nil _ (List.cons_ne_nil _ _)) (nulFree_descriptor T _) hs

/-- Each rewriting leaves fewer macros. -/
theorem occurrences_rewrites (h : Rewrites T s s') :
    occurrences descriptorMarker s' < occurrences descriptorMarker s := by
  obtain ⟨h, ht⟩ := h
  obtain ⟨c, -, -, hmarker, -, hclosed, -⟩ := firstDescriptor_spec h
  exact occurrences_replacedAll (by decide) (hmarker.trans (List.prefix_append _ _)) (unmarked_descriptor T _)
    (hclosed rfl)

/-- A macro that is not closed is not found again when its parenthesis is added. -/
theorem replacedAll_open (h : firstDescriptor s = some (tmp, false)) (rep : List Byte) :
    replacedAll (tmp ++ [chr ')']) rep s = s := by
  obtain ⟨c, -, -, hmarker, hfirst, -, hopen⟩ := firstDescriptor_spec h
  refine replaced_absent (fun k _ hocc => ?_) false
  have hmarker' : Occurs descriptorMarker s k := (hmarker.trans (List.prefix_append _ _)).trans hocc
  have hck : c ≤ k := Nat.le_of_not_lt fun hlt => hfirst k hlt hmarker'
  have hlen := hocc.length_le
  rw [hopen rfl, List.length_append, List.length_drop, List.length_drop, List.length_singleton] at hlen
  omega

theorem fits_iff {closed : Bool} (h : firstDescriptor s = some (tmp, closed)) : Fits T s ↔
    if (T.cparse_type (tmp.drop 12)).isSome then closed = true ∧ tmp.length + 1 < 512 else tmp.length < 512 := by
  constructor
  · exact fun hfits => hfits tmp closed h
  · intro hfits tmp' closed' h'
    obtain ⟨rfl, rfl⟩ := Prod.mk.inj (Option.some.inj (h.symm.trans h'))
    exact hfits

theorem rewrites_eq {closed : Bool} (h : firstDescriptor s = some (tmp, closed)) (hr : Rewrites T s s') :
    ∃ t, T.cparse_type (tmp.drop 12) = some t ∧
      s' = replacedAll (tmp ++ [chr ')']) (lit "SWIGTYPE" ++ T.manglestr t) s := by
  obtain ⟨h', ht⟩ := hr
  obtain ⟨rfl, -⟩ := Prod.mk.inj (Option.some.inj (h.symm.trans h'))
  exact ⟨_, ht, rfl⟩

theorem fits_of_run {n : ℕ} {out : List Byte} (hs : ∀ c ∈ s, c ≠ 0) (hrun : replaceDescriptor T n s = some out)
    (hreach : ReflTransGen (Rewrites T) s s') : Fits T s' := by
  induction n generalizing s with
  | zero => cases hrun
  | succ n ih =>
      cases hfirst : firstDescriptor s with
      | none =>
          obtain rfl | ⟨s₁, ⟨h, -⟩, -⟩ := hreach.cases_head
          · exact fun tmp closed h => by cases hfirst.symm.trans h
          · cases hfirst.symm.trans h
      | some p =>
          obtain ⟨tmp, closed⟩ := p
          rw [replaceDescriptor_some hs hfirst] at hrun
          cases ht : T.cparse_type (tmp.drop 12) with
          | none =>
              rw [roundResult_none ht] at hrun
              obtain rfl | ⟨s₁, hr, -⟩ := hreach.cases_head
              · rw [fits_iff hfirst, ht]
                show tmp.length < 512
                by_contra hlen
                have hnone : (if tmp.length < 512 then some s else none) = none := if_neg hlen
                cases hnone.symm.trans hrun
              · obtain ⟨t, ht', -⟩ := rewrites_eq hfirst hr
                cases ht.symm.trans ht'
          | some t =>
              rw [roundResult_some ht] at hrun
              split at hrun
              · rename_i hlen
                cases closed with
                | false =>
                    -- the same text is searched again
                    rw [replacedAll_open hfirst] at hrun
                    exact ih hs hrun hreach
                | true =>
                    obtain rfl | ⟨s₁, hr, hrest⟩ := hreach.cases_head
                    · rw [fits_iff hfirst, ht]
                      exact ⟨rfl, hlen⟩
                    · have hs₁ := nulFree_rewrites hr hs
                      obtain ⟨t', ht', rfl⟩ := rewrites_eq hfirst hr
                      obtain rfl := Option.some.inj (ht.symm.trans ht')
                      exact ih hs₁ hrun hrest
              · cases hrun

theorem returns_of_fits (hs : ∀ c ∈ s, c ≠ 0) (hfits : ∀ s', ReflTransGen (Rewrites T) s s' → Fits T s') :
    ∃ s', Returns (fun fuel => replaceDescriptor T fuel s) s' := by
  obtain ⟨n, hn⟩ : ∃ n, occurrences descriptorMarker s = n := ⟨_, rfl⟩
  induction n using Nat.strong_induction_on generalizing s with
  | _ n ih =>
      cases hfirst : firstDescriptor s with
      | none => exact ⟨s, (Returns.const s).congr (fun n => replaceDescriptor_none hfirst n) |>.of_succ⟩
      | some p =>
          obtain ⟨tmp, closed⟩ := p
          have hfit := (fits_iff hfirst).mp (hfits s .refl)
          cases ht : T.cparse_type (tmp.drop 12) with
          | none =>
              rw [ht] at hfit
              have hround (fuel : ℕ) : replaceDescriptor T (fuel + 1) s = some s := by
                rw [replaceDescriptor_some hs hfirst, roundResult_none ht]
                exact if_pos hfit
              exact ⟨s, ((Returns.const s).congr hround).of_succ⟩
          | some t =>
              rw [ht] at hfit
              obtain ⟨rfl, hlen⟩ : closed = true ∧ tmp.length + 1 < 512 := hfit
              have hr : Rewrites T s _ := .mk hfirst ht
              obtain ⟨out, hout⟩ := ih _ (hn ▸ occurrences_rewrites hr) (nulFree_rewrites hr hs)
                (fun s' hreach => hfits s' (hreach.head hr)) rfl
              refine ⟨out, (hout.congr fun fuel => ?_).of_succ⟩
              rw [replaceDescriptor_some hs hfirst, roundResult_some ht]
              exact if_pos hlen

/-- The macros are replaced, with every access inside of the buffer, if and only if in each text searched the
first macro is closed or has no type, and fits into the buffer. -/
theorem replaceDescriptor_returns_iff (hs : ∀ c ∈ s, c ≠ 0) :
    (∃ s', Returns (fun fuel => replaceDescriptor T fuel s) s') ↔
      ∀ s', ReflTransGen (Rewrites T) s s' → Fits T s' := by
  constructor
  · rintro ⟨out, N, hN⟩ s' hreach
    exact fits_of_run hs (hN N (Nat.le_refl N)) hreach
  · exact returns_of_fits hs

end Swig.CParse.Descriptor
