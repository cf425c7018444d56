import Swig.DOH.Printf
import Mathlib.Data.Bool.AllAny

/-!
The rounds of `DohvPrintf` that read the parts of a directive: when they stay within `newformat`
and `temp`, and what they leave there.
-/

namespace Swig.DOH

open Errors (formatInt digitsVal)

/-! ### Partial results -/

/-- There is a result under the condition, and then it is the value. -/
def Yields {α : Type*} (x : Option α) (p : Prop) (a : α) : Prop := ∀ r, x = some r ↔ p ∧ r = a

namespace Yields

variable {α β : Type*} {x : Option α} {f : α → Option β} {p p' : Prop} {a : α} {b : β}

theorem some (a : α) : Yields (some a) True a := fun r => by
  rw [Option.some.injEq, true_and]
  exact eq_comm

theorem ite [Decidable p] (a : α) : Yields (if p then Option.some a else none) p a := fun r => by
  rw [Option.ite_none_right_eq_some, Option.some.injEq]
  exact and_congr_right fun _ => eq_comm

theorem congr (h : Yields x p a) (hp : p ↔ p') : Yields x p' a := fun r => (h r).trans (and_congr_left fun _ => hp)

/-- The second step starts from the result of the first. -/
theorem bind (hx : Yields x p a) (hf : p → Yields (f a) p' b) : Yields (x.bind f) (p ∧ p') b := by
  intro r
  rw [Option.bind_eq_some_iff]
  constructor
  · rintro ⟨y, hy, hr⟩
    obtain ⟨hp, rfl⟩ := (hx y).mp hy
    obtain ⟨hp', rfl⟩ := (hf hp r).mp hr
    exact ⟨⟨hp, hp'⟩, rfl⟩
  · rintro ⟨⟨hp, hp'⟩, rfl⟩
    exact ⟨a, (hx a).mpr ⟨hp, rfl⟩, (hf hp r).mpr ⟨hp', rfl⟩⟩

theorem map (hx : Yields x p a) (g : α → β) : Yields (x.map g) p (g a) := by
  rw [Option.map_eq_bind]
  exact (hx.bind fun _ => some (g a)).congr (iff_of_eq (and_true p))

theorem eq_some (h : Yields x p a) (hp : p) : x = Option.some a := (h a).mpr ⟨hp, rfl⟩

/-- A condition that is checked in front. -/
theorem guard [Decidable p] (hx : p → Yields x p' a) : Yields (if p then x else none) (p ∧ p') a := by
  intro r
  rw [Option.ite_none_right_eq_some, and_assoc]
  exact and_congr_right fun hp => hx hp r

end Yields

/-! ### The buffers -/

/-- The text written from the beginning of a buffer on, over what it holds. -/
def overlay (buffer s : List Byte) : List Byte := s ++ buffer.drop s.length

theorem set_overlay {buffer s : List Byte} (hs : s.length < buffer.length) (c : Byte) :
    (overlay buffer s).set s.length c = overlay buffer (s ++ [c]) := by
  rw [overlay, overlay, List.set_append_right s.length _ le_rfl, Nat.sub_self, List.append_assoc, List.length_append,
    List.length_singleton, List.drop_eq_getElem_cons hs]
  rfl

theorem length_overlay {buffer s : List Byte} (hs : s.length ≤ buffer.length) :
    (overlay buffer s).length = buffer.length := by
  rw [overlay, List.length_append, List.length_drop]
  omega

/-- A number fits into `temp`, and into an `int`. -/
def Small (ds : List Byte) : Prop := ds.length < 64 ∧ digitsVal ds < 2 ^ 31

theorem small_nil : Small [] := ⟨by decide, by decide⟩

theorem digitsVal_zeros {zs rest : List Byte} (h : ∀ d ∈ zs, d = chr '0') :
    digitsVal (zs ++ rest) = digitsVal rest := by
  induction zs with
  | nil => rfl
  | cons d zs ih =>
      obtain ⟨rfl, hzs⟩ := List.forall_mem_cons.mp h
      exact ih hzs

namespace Printf

variable {encode : List Byte → List Byte → List Byte} {q r : Printf} {b s : List Byte} {c : Byte}

/-- The locals with a text in `newformat`. -/
def formed (q : Printf) (b s : List Byte) : Printf := { q with newformat := overlay b s, fmt := s.length }

def digits (q : Printf) (u : List Byte) : Option Printf := u.foldlM digit q

theorem put_yields (hb : b.length = 256) : Yields ((q.formed b s).put c) (s.length < 256) (q.formed b (s ++ [c])) := by
  intro r
  rw [put, Option.ite_none_right_eq_some, Option.some.injEq]
  refine and_congr_right fun hs => ?_
  have hset := set_overlay (hb ▸ hs : s.length < b.length) c
  dsimp only [formed] at hs ⊢
  rw [hset, List.length_append, List.length_singleton]
  exact eq_comm

theorem puts_yields (hb : b.length = 256) (hs : s.length ≤ 256) (u : List Byte) :
    Yields ((q.formed b s).puts u) ((s ++ u).length ≤ 256) (q.formed b (s ++ u)) := by
  induction u generalizing s with
  | nil =>
      rw [puts, List.foldlM_nil, List.append_nil]
      exact (Yields.some _).congr (iff_of_true trivial hs)
  | cons c u ih =>
      have hlen : (s ++ [c]).length = s.length + 1 := by rw [List.length_append, List.length_singleton]
      have hrest (hlt : s.length < 256) := ih (s := s ++ [c]) (by omega)
      rw [List.append_assoc] at hrest
      rw [puts, List.foldlM_cons]
      refine ((put_yields hb).bind hrest).congr ?_
      rw [List.singleton_append, List.length_append, List.length_cons]
      omega

theorem digit_yields (hb : b.length = 256) : Yields ((q.formed b s).digit c) (q.temp.length < 64 ∧ s.length < 256)
    ({ q with temp := q.temp ++ [c] }.formed b (s ++ [c])) :=
  Yields.guard fun _ => put_yields (q := { q with temp := q.temp ++ [c] }) hb

theorem digits_yields (hb : b.length = 256) (hs : s.length ≤ 256) (ht : q.temp.length ≤ 64) (u : List Byte) :
    Yields ((q.formed b s).digits u) ((s ++ u).length ≤ 256 ∧ (q.temp ++ u).length ≤ 64)
      ({ q with temp := q.temp ++ u }.formed b (s ++ u)) := by
  induction u generalizing q s with
  | nil =>
      rw [digits, List.foldlM_nil, List.append_nil, List.append_nil]
      exact (Yields.some _).congr (iff_of_true trivial ⟨hs, ht⟩)
  | cons c u ih =>
      have hlen (t : List Byte) : (t ++ [c]).length = t.length + 1 := by
        rw [List.length_append, List.length_singleton]
      have hrest (h : q.temp.length < 64 ∧ s.length < 256) :=
        ih (q := { q with temp := q.temp ++ [c] }) (s := s ++ [c]) (by rw [hlen]; omega)
          (by dsimp only; rw [hlen]; omega)
      dsimp only at hrest
      rw [List.append_assoc, List.append_assoc] at hrest
      rw [digits, List.foldlM_cons]
      refine ((digit_yields hb).bind hrest).congr ?_
      rw [List.singleton_append, List.length_append, List.length_append, List.length_cons]
      omega

theorem atoi_yields (u : List Byte) : Yields (atoi u) (digitsVal u < 2 ^ 31) (digitsVal u) := Yields.ite _

theorem closeWidth_yields (q : Printf) :
    Yields q.closeWidth (Small q.temp) { q with widthval := digitsVal q.temp } :=
  Yields.guard fun _ => (atoi_yields q.temp).map _

theorem closePrecision_yields (q : Printf) :
    Yields q.closePrecision (Small q.temp) { q with precval := digitsVal q.temp } :=
  Yields.guard fun _ => (atoi_yields q.temp).map _

/-! ### The rounds of a directive -/

/-- Rounds that all do the same. -/
theorem foldlM_step {f : Printf → Byte → Option Printf} (P : Printf → Prop) {cs : List Byte}
    (hstep : ∀ q c, P q → c ∈ cs → step encode q c = f q c) (hkeep : ∀ q c r, P q → f q c = some r → P r)
    (hq : P q) : cs.foldlM (step encode) q = cs.foldlM f q := by
  induction cs generalizing q with
  | nil => rfl
  | cons c cs ih =>
      rw [List.foldlM_cons, List.foldlM_cons, hstep q c hq (List.mem_cons_self ..)]
      cases hf : f q c with
      | none => rfl
      | some r =>
          exact ih (fun q d hq hd => hstep q d hq (List.mem_cons_of_mem c hd)) (hkeep q c r hq hf)

theorem run_one (q : Printf) (c : Byte) : [c].foldlM (step encode) q = step encode q c := by
  rw [List.foldlM_cons]
  cases step encode q c <;> rfl

theorem state_of_put (h : q.put c = some r) : r.state = q.state := by
  rw [put] at h
  split at h
  · cases h
    rfl
  · cases h

theorem state_of_digit (h : q.digit c = some r) : r.state = q.state := by
  rw [digit] at h
  split at h
  · exact state_of_put (q := { q with temp := q.temp ++ [c] }) h
  · cases h

theorem flag_facts : ∀ c : Byte, isFlag c = true ∨ c = chr '.' →
    ¬ (isdigit c = true ∧ c ≠ chr '0') ∧ c ∉ fmtCodes ∧ c ≠ chr '*' ∧ c ≠ chr '%' ∧ c ≠ chr '(' := by decide +kernel

/-- Flags and a point are copied in state 10. -/
theorem step_flag (hstate : q.state = .flags) (hc : isFlag c = true ∨ c = chr '.') : step encode q c = q.put c := by
  obtain ⟨hdigit, hcode, hstar, hpercent, hparen⟩ := flag_facts c hc
  rw [step, hstate]
  dsimp only
  rw [if_neg hdigit, if_neg hcode, if_neg hstar, if_neg hpercent, if_neg hparen]

theorem run_flags (hstate : q.state = .flags) {cs : List Byte} (hcs : ∀ c ∈ cs, isFlag c = true) :
    cs.foldlM (step encode) q = q.puts cs :=
  foldlM_step (fun q => q.state = .flags) (fun _ c hq hc => step_flag hq (.inl (hcs c hc)))
    (fun _ _ _ hq h => (state_of_put h).trans hq) hstate

/-- The digits of a width behind the first. -/
theorem run_width (hstate : q.state = .width) {cs : List Byte} (hcs : ∀ c ∈ cs, isdigit c = true) :
    cs.foldlM (step encode) q = q.digits cs := by
  refine foldlM_step (fun q => q.state = .width) (fun q c hq hc => ?_) (fun _ _ _ hq h => (state_of_digit h).trans hq)
    hstate
  rw [step, hq]
  exact if_pos (hcs c hc)

theorem run_precision (hstate : q.state = .precisionDigits) {cs : List Byte} (hcs : ∀ c ∈ cs, isdigit c = true) :
    cs.foldlM (step encode) q = q.digits cs := by
  refine foldlM_step (fun q => q.state = .precisionDigits) (fun q c hq hc => ?_)
    (fun _ _ _ hq h => (state_of_digit h).trans hq) hstate
  rw [step, hq]
  exact if_pos (hcs c hc)

theorem not_code_of_digit : ∀ c : Byte, isdigit c = true → c ∉ fmtCodes := by decide +kernel

/-- The digits of a precision that begins with a zero. -/
theorem run_waiting (hstate : q.state = .waiting) {cs : List Byte} (hcs : ∀ c ∈ cs, isdigit c = true) :
    cs.foldlM (step encode) q = q.puts cs := by
  refine foldlM_step (fun q => q.state = .waiting) (fun q c hq hc => ?_) (fun _ _ _ hq h => (state_of_put h).trans hq)
    hstate
  rw [step, hq]
  exact if_neg (not_code_of_digit c (hcs c hc))

/-- What is done in front of a code, or of the point behind a width. -/
def settle (q : Printf) : Option Printf :=
  match q.state with
  | .width => q.closeWidth
  | .precisionDigits => q.closePrecision
  | _ => some q

theorem code_facts : ∀ c ∈ fmtCodes, isdigit c = false ∧ c ≠ chr '*' ∧ c ≠ chr '.' := List.all_iff_forall_prop.mp rfl

theorem step_code (hstate : q.state ≠ .text ∧ q.state ≠ .encoder) (hc : c ∈ fmtCodes) :
    step encode q c = q.settle.bind fun q => q.emit encode c := by
  obtain ⟨hdigit, hstar, hpoint⟩ := code_facts c hc
  have hno : ¬ isdigit c = true := by rw [hdigit]; exact Bool.false_ne_true
  rw [step, settle]
  cases h : q.state with
  | text => exact absurd h hstate.1
  | encoder => exact absurd h hstate.2
  | flags =>
      dsimp only
      rw [if_neg fun h => hno h.1, if_pos hc]
      rfl
  | width =>
      dsimp only
      rw [if_neg hno]
      simp only [if_pos hc]
  | argWidth =>
      dsimp only
      rw [if_neg hpoint, if_pos hc]
      rfl
  | precision =>
      dsimp only
      rw [if_neg fun h => hno h.1, if_neg hstar, if_pos hc]
      rfl
  | precisionDigits =>
      dsimp only
      rw [if_neg hno]
      simp only [if_pos hc]
  | waiting =>
      dsimp only
      rw [if_pos hc]
      rfl

theorem step_point (hstate : q.state = .width ∨ q.state = .argWidth) :
    step encode q (chr '.') = q.settle.bind fun q => { q with temp := [], state := .precision }.put (chr '.') := by
  have hcode : chr '.' ∉ fmtCodes := by decide
  rw [step, settle]
  rcases hstate with h | h
  · rw [h]
    dsimp only
    rw [if_neg (show ¬ isdigit (chr '.') = true by decide)]
    simp only [if_neg hcode, if_true]
  · rw [h]
    rfl

/-! ### Widths and precisions -/

variable {v : ℤ} {args : List PrintfArg}

theorem step_star (hstate : q.state = .flags) : step encode q (chr '*') = q.argWidth := by
  rw [step, hstate]
  rfl

theorem step_starPrecision (hstate : q.state = .precision) : step encode q (chr '*') = q.argPrecision := by
  rw [step, hstate]
  rfl

theorem argWidth_yields (hb : b.length = 256) (hs : s.length ≤ 256) (hargs : q.args = .int v :: args) :
    Yields (q.formed b s).argWidth ((s ++ formatInt v).length ≤ 256)
      ({ q with widthval := v, args := args, state := .argWidth }.formed b (s ++ formatInt v)) := by
  rw [argWidth, show (q.formed b s).args = _ from hargs]
  exact (puts_yields (q := { q with widthval := v, args := args }) hb hs (formatInt v)).map (goto · .argWidth)

theorem argPrecision_yields (hb : b.length = 256) (hs : s.length ≤ 256) (hargs : q.args = .int v :: args) :
    Yields (q.formed b s).argPrecision ((s ++ formatInt v).length ≤ 256)
      ({ q with precval := v, args := args, state := .waiting }.formed b (s ++ formatInt v)) := by
  rw [argPrecision, show (q.formed b s).args = _ from hargs]
  exact (puts_yields (q := { q with precval := v, args := args }) hb hs (formatInt v)).map (goto · .waiting)

section

variable (encode)

/-- A number is read digit by digit, from the first that is no zero. -/
theorem run_number {cs : List Byte} (hstate : q.state = .flags) (hc : isdigit c = true ∧ c ≠ chr '0')
    (hcs : ∀ d ∈ cs, isdigit d = true) :
    (c :: cs).foldlM (step encode) q = { q with temp := [], state := .width }.digits (c :: cs) := by
  rw [digits, List.foldlM_cons, List.foldlM_cons]
  have hstep : step encode q c = { q with temp := [], state := .width }.digit c := by
    rw [step, hstate]
    exact if_pos hc
  rw [hstep]
  cases hdigit : { q with temp := [], state := .width }.digit c with
  | none => rfl
  | some r => exact run_width (state_of_digit hdigit) hcs

/-- A precision behind a width, from a first digit that is no zero. -/
theorem run_precision_number {cs : List Byte} (hstate : q.state = .precision) (hc : isdigit c = true ∧ c ≠ chr '0')
    (hcs : ∀ d ∈ cs, isdigit d = true) :
    (c :: cs).foldlM (step encode) q = { q with state := .precisionDigits }.digits (c :: cs) := by
  rw [digits, List.foldlM_cons, List.foldlM_cons]
  have hstep : step encode q c = { q with state := .precisionDigits }.digit c := by
    rw [step, hstate]
    exact if_pos hc
  rw [hstep]
  cases hdigit : { q with state := .precisionDigits }.digit c with
  | none => rfl
  | some r => exact run_precision (state_of_digit hdigit) hcs

/-- A precision behind a width, from a zero on. -/
theorem run_precision_zero {cs : List Byte} (hstate : q.state = .precision) (hcs : ∀ d ∈ cs, isdigit d = true) :
    (chr '0' :: cs).foldlM (step encode) q = { q with state := .waiting }.puts (chr '0' :: cs) := by
  rw [puts, List.foldlM_cons, List.foldlM_cons]
  have hstep : step encode q (chr '0') = { q with state := .waiting }.put (chr '0') := by
    rw [step, hstate]
    rfl
  rw [hstep]
  cases hput : { q with state := .waiting }.put (chr '0') with
  | none => rfl
  | some r => exact run_waiting (state_of_put hput) hcs

end

theorem settle_width (hstate : q.state = .width) : q.settle = q.closeWidth := by rw [settle, hstate]

theorem settle_precision (hstate : q.state = .precisionDigits) : q.settle = q.closePrecision := by rw [settle, hstate]

theorem settle_other (hstate : q.state ≠ .width ∧ q.state ≠ .precisionDigits) : q.settle = some q := by
  rw [settle]
  split
  · exact absurd ‹_› hstate.1
  · exact absurd ‹_› hstate.2
  · rfl

theorem digits_temp (hb : b.length = 256) (hs : s.length ≤ 256) (htemp : q.temp = []) (ds : List Byte) :
    Yields ((q.formed b s).digits ds) ((s ++ ds).length ≤ 256 ∧ ds.length ≤ 64)
      ({ q with temp := ds }.formed b (s ++ ds)) := by
  have hdigits := digits_yields hb hs (by rw [htemp]; exact Nat.zero_le 64) ds
  rwa [htemp, List.nil_append] at hdigits

theorem small_room {u ds : List Byte} :
    ((s ++ u).length ≤ 256 ∧ ds.length ≤ 64) ∧ Small ds ↔ (s ++ u).length ≤ 256 ∧ Small ds :=
  ⟨fun h => ⟨h.1.1, h.2⟩, fun h => ⟨⟨h.1, h.2.1.le⟩, h.2⟩⟩

/-! ### Up to a code -/

/-- The rounds over a text that comes before a code or a point, and what is recorded in front of it. -/
structure Reads (encode : List Byte → List Byte → List Byte) (q : Printf) (cs : List Byte) (p : Prop)
    (a : Printf) : Prop where
  state : ∀ r, cs.foldlM (step encode) q = some r → r.state = a.state
  yields : Yields ((cs.foldlM (step encode) q).bind settle) p a

namespace Reads

variable {cs ds : List Byte} {p p' : Prop} {a a' : Printf}

theorem congr (h : Reads encode q cs p a) (hp : p ↔ p') : Reads encode q cs p' a := ⟨h.state, h.yields.congr hp⟩

theorem of_yields (h : Yields (cs.foldlM (step encode) q) p a) (ha : a.state ≠ .width ∧ a.state ≠ .precisionDigits) :
    Reads encode q cs p a := by
  refine ⟨fun r hr => congrArg Printf.state ((h r).mp hr).2, ?_⟩
  have hsettle : Yields a.settle True a := by
    rw [settle_other ha]
    exact Yields.some a
  exact (h.bind fun _ => hsettle).congr (iff_of_eq (and_true p))

theorem nil (ha : a.state ≠ .width ∧ a.state ≠ .precisionDigits) : Reads encode a [] True a :=
  of_yields (Yields.some a) ha

theorem after (h : Yields (cs.foldlM (step encode) q) p a) (hds : p → Reads encode a ds p' a') :
    Reads encode q (cs ++ ds) (p ∧ p') a' := by
  constructor
  · intro r hr
    rw [List.foldlM_append, Option.bind_eq_bind, Option.bind_eq_some_iff] at hr
    obtain ⟨q', hq', hr⟩ := hr
    obtain ⟨hp, rfl⟩ := (h q').mp hq'
    exact (hds hp).state r hr
  · rw [List.foldlM_append, Option.bind_eq_bind, Option.bind_assoc]
    exact h.bind fun hp => (hds hp).yields

/-- The code behind the text. -/
theorem code (h : Reads encode q cs p a) (ha : a.state ≠ .text ∧ a.state ≠ .encoder) (hc : c ∈ fmtCodes)
    (hemit : p → Yields (a.emit encode c) p' a') : Yields ((cs ++ [c]).foldlM (step encode) q) (p ∧ p') a' := by
  have hstep : (cs ++ [c]).foldlM (step encode) q =
      ((cs.foldlM (step encode) q).bind settle).bind fun q => q.emit encode c := by
    rw [List.foldlM_append, Option.bind_eq_bind, Option.bind_assoc]
    cases hrun : cs.foldlM (step encode) q with
    | none => rfl
    | some r =>
        rw [Option.bind_some, Option.bind_some, run_one]
        exact step_code (by rwa [h.state r hrun]) hc
  rw [hstep]
  exact h.yields.bind hemit

/-- The point behind a width, and the precision. -/
theorem point (h : Reads encode q cs p (a.formed b s)) (ha : a.state = .width ∨ a.state = .argWidth)
    (hb : b.length = 256)
    (hds : s.length < 256 →
      Reads encode ({ a with temp := [], state := .precision }.formed b (s ++ [chr '.'])) ds p' a') :
    Reads encode q (cs ++ chr '.' :: ds) ((p ∧ s.length < 256) ∧ p') a' := by
  have hpoint : Yields ((cs ++ [chr '.']).foldlM (step encode) q) (p ∧ s.length < 256)
      ({ a with temp := [], state := .precision }.formed b (s ++ [chr '.'])) := by
    have hstep : (cs ++ [chr '.']).foldlM (step encode) q = ((cs.foldlM (step encode) q).bind settle).bind
        fun q => { q with temp := [], state := .precision }.put (chr '.') := by
      rw [List.foldlM_append, Option.bind_eq_bind, Option.bind_assoc]
      cases hrun : cs.foldlM (step encode) q with
      | none => rfl
      | some r =>
          rw [Option.bind_some, Option.bind_some, run_one]
          exact step_point (by rwa [h.state r hrun])
    rw [hstep]
    exact h.yields.bind fun _ => put_yields (q := { a with temp := [], state := .precision }) hb
  have hrest := after hpoint fun hp => hds hp.2
  rwa [List.append_assoc] at hrest

variable (encode)

/-- The digits of a width. -/
theorem width (hb : b.length = 256) (hs : s.length ≤ 256) (hstate : q.state = .flags)
    (hc : isdigit c = true ∧ c ≠ chr '0') (hcs : ∀ d ∈ cs, isdigit d = true) :
    Reads encode (q.formed b s) (c :: cs) ((s ++ c :: cs).length ≤ 256 ∧ Small (c :: cs))
      ({ q with temp := c :: cs, widthval := digitsVal (c :: cs), state := .width }.formed b (s ++ c :: cs)) := by
  have hdigits := digits_temp (q := { q with temp := [], state := .width }) hb hs rfl (c :: cs)
  have hrun := run_number encode (q := q.formed b s) hstate hc hcs
  constructor
  · intro r hr
    rw [hrun] at hr
    rw [((hdigits r).mp hr).2]
    rfl
  · rw [hrun]
    refine (hdigits.bind fun _ => ?_).congr small_room
    rw [settle_width rfl]
    exact closeWidth_yields _

/-- The digits of a precision behind a width, from one that is no zero. -/
theorem precision (hb : b.length = 256) (hs : s.length ≤ 256) (hstate : q.state = .precision) (htemp : q.temp = [])
    (hc : isdigit c = true ∧ c ≠ chr '0') (hcs : ∀ d ∈ cs, isdigit d = true) :
    Reads encode (q.formed b s) (c :: cs) ((s ++ c :: cs).length ≤ 256 ∧ Small (c :: cs))
      ({ q with temp := c :: cs, precval := digitsVal (c :: cs), state := .precisionDigits }.formed b
        (s ++ c :: cs)) := by
  have hdigits := digits_temp (q := { q with state := .precisionDigits }) hb hs htemp (c :: cs)
  have hrun := run_precision_number encode (q := q.formed b s) hstate hc hcs
  constructor
  · intro r hr
    rw [hrun] at hr
    rw [((hdigits r).mp hr).2]
    rfl
  · rw [hrun]
    refine (hdigits.bind fun _ => ?_).congr small_room
    rw [settle_precision rfl]
    exact closePrecision_yields _

/-- The digits of a precision behind a width, from a zero on. -/
theorem zero (hb : b.length = 256) (hs : s.length ≤ 256) (hstate : q.state = .precision)
    (hcs : ∀ d ∈ cs, isdigit d = true) :
    Reads encode (q.formed b s) (chr '0' :: cs) ((s ++ chr '0' :: cs).length ≤ 256)
      ({ q with state := .waiting }.formed b (s ++ chr '0' :: cs)) := by
  refine of_yields ?_ ⟨nofun, nofun⟩
  rw [run_precision_zero encode (q := q.formed b s) hstate hcs]
  exact puts_yields (q := { q with state := .waiting }) hb hs _

theorem star (hb : b.length = 256) (hs : s.length ≤ 256) (hstate : q.state = .flags) (hargs : q.args = .int v :: args) :
    Reads encode (q.formed b s) [chr '*'] ((s ++ formatInt v).length ≤ 256)
      ({ q with widthval := v, args := args, state := .argWidth }.formed b (s ++ formatInt v)) := by
  refine of_yields ?_ ⟨nofun, nofun⟩
  rw [run_one, step_star (q := q.formed b s) hstate]
  exact argWidth_yields hb hs hargs

theorem starPrecision (hb : b.length = 256) (hs : s.length ≤ 256) (hstate : q.state = .precision)
    (hargs : q.args = .int v :: args) :
    Reads encode (q.formed b s) [chr '*'] ((s ++ formatInt v).length ≤ 256)
      ({ q with precval := v, args := args, state := .waiting }.formed b (s ++ formatInt v)) := by
  refine of_yields ?_ ⟨nofun, nofun⟩
  rw [run_one, step_starPrecision (q := q.formed b s) hstate]
  exact argPrecision_yields hb hs hargs

/-- Flags, and the zeros of a precision without a width. -/
theorem flags (hb : b.length = 256) (hs : s.length ≤ 256) (hstate : q.state = .flags)
    (hcs : ∀ c ∈ cs, isFlag c = true) (hds : (s ++ cs).length ≤ 256 → Reads encode (q.formed b (s ++ cs)) ds p a) :
    Reads encode (q.formed b s) (cs ++ ds) ((s ++ cs).length ≤ 256 ∧ p) a := by
  have hrun : Yields (cs.foldlM (step encode) (q.formed b s)) ((s ++ cs).length ≤ 256) (q.formed b (s ++ cs)) := by
    rw [run_flags (q := q.formed b s) hstate hcs]
    exact puts_yields hb hs cs
  exact after hrun hds

end Reads

end Printf

end Swig.DOH
