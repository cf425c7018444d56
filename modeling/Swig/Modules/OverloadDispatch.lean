import Swig.Modules.Overload
import Mathlib.Data.List.Nodup

/-!
What the code of `Swig_overload_dispatch` calls.

`Selects` says which methods fit the arguments. The printed code reaches the
call of a method if it also passes the checks of slots that hold no argument of
the method; with `wrap:this` it makes one such check for an omitted argument.
-/

namespace Swig.Modules

open BlockCode

variable {α : Type*} {accepts : TypecheckCode → α → Bool} {a : Args α}

/-- The argument counts a method admits. -/
def Method.InRange (this : Bool) (m : Method) (argc : ℕ) : Prop :=
  emitNumRequired m.parms + (if this then 1 else 0) ≤ argc ∧
    (emitIsvarargs m.parms = true ∨ argc ≤ emitNumArguments m.parms + if this then 1 else 0)

instance (this : Bool) (m : Method) (argc : ℕ) : Decidable (m.InRange this argc) :=
  inferInstanceAs (Decidable (_ ∧ _))

/-- The typecheck typemap of a parameter, if there is one, accepts `x`. -/
def Parm.passes (accepts : TypecheckCode → α → Bool) (p : Parm) (x : α) : Bool :=
  p.typecheck.all fun tm => accepts tm x

/-- The number of arguments is in range and every one that is supplied passes
the typecheck of its parameter. -/
def Method.Selects (accepts : TypecheckCode → α → Bool) (this : Bool) (a : Args α)
    (m : Method) : Prop :=
  m.InRange this a.argc ∧ ∀ i (_ : i < (inputs m.parms).length),
    i + (if this then 1 else 0) < a.argc →
      (inputs m.parms)[i].passes accepts (a.argv (i + if this then 1 else 0)) = true

instance (this : Bool) (m : Method) : Decidable (m.Selects accepts this a) :=
  inferInstanceAs (Decidable (_ ∧ _))

def Method.call (this : Bool) (m : Method) : Call :=
  ⟨m.wrap_name, emitNumArguments m.parms + if this then 1 else 0⟩

/-- The call of the first method in rank order that fits the arguments. -/
def firstSelected (accepts : TypecheckCode → α → Bool) (o : OverloadSet) (a : Args α) :
    Option Call :=
  (o.methods.find? fun m => decide (m.Selects accepts o.wrap_this a)).map (·.call o.wrap_this)

/-- The checks that concern no argument of the method are passed: with
`wrap:this` that of the first omitted parameter, on the slot behind the last
argument, and those of parameters behind the ones that take an argument. -/
def Method.StrayChecksPass (accepts : TypecheckCode → α → Bool) (this : Bool) (a : Args α)
    (m : Method) : Prop :=
  ∀ j (_ : j < (walk 0 m.parms).length), j < a.argc →
    (this = true ∧ j + 1 = a.argc ∨ emitNumArguments m.parms ≤ j) →
      (walk 0 m.parms)[j].passes accepts (a.argv (j + if this then 1 else 0)) = true

/-! ### The checks of one method -/

theorem rangeTest_holds {varargs : Bool} {n m : ℕ} :
    (rangeTest varargs n m).holds accepts a =
      decide (n ≤ a.argc ∧ (varargs = true ∨ a.argc ≤ m)) := by
  rw [Bool.eq_iff_iff, decide_eq_true_iff]
  unfold rangeTest
  by_cases hvarargs : varargs = true
  · simp [hvarargs, Test.holds]
  · rw [if_pos hvarargs]
    split
    · rename_i h
      subst h
      simp only [Test.holds, Bool.not_eq_true _ ▸ hvarargs, Bool.false_eq_true, false_or,
        decide_eq_true_eq]
      omega
    · simp [hvarargs, Test.holds]

theorem opens_printTypecheck (p : Parm) (j : ℕ) :
    Opens (if p.typecheck.isSome then 1 else 0) (printTypecheck p j) := by
  unfold printTypecheck
  cases p.typecheck with
  | none => exact opens_nil
  | some tm => exact opens_enter _

/-- Passing over the checks leaves the blocks that were open before them. -/
theorem exec_skip_plainChecks {num_required : ℕ} {this : Bool} {call : Call} {ps : List Parm}
    {j n d : ℕ} {rest : Code} :
    exec (Test.holds accepts a) (.skipping d) (plainChecks num_required this call j n ps ++ rest) =
      exec (Test.holds accepts a) (.skipping d) (List.replicate n .leave ++ rest) := by
  induction ps generalizing j n d with
  | nil =>
      have hcall := opens_call call (T := Test) (Test.holds accepts a) d
        (List.replicate n .leave ++ rest)
      simpa [plainChecks] using hcall
  | cons p ps ih =>
      have hearly : Opens 0 (if num_required ≤ j then
          [Line.enter (Test.argcLe j), .call call, .leave] else []) := by
        split
        · exact ((opens_enter _).append (opens_call call)).closed
        · exact opens_nil
      rw [plainChecks, List.append_assoc, hearly, List.append_assoc,
        opens_printTypecheck p _ _ _ _, ih, Nat.add_zero]
      rw [Nat.add_comm n, ← List.replicate_append_replicate, List.append_assoc, exec_skip_leaves]

/-- The checks from position `j` on, for a number of arguments that is enough. -/
theorem exec_plainChecks {num_required : ℕ} {this : Bool} {call : Call} {ps : List Parm}
    {j n : ℕ} {rest : Code} (hreq : num_required ≤ a.argc) :
    exec (Test.holds accepts a) .running
        (plainChecks num_required this call j n ps ++ .leave :: rest) =
      if ∀ i (_ : i < ps.length), j + i < a.argc →
          ps[i].passes accepts (a.argv (j + i + if this then 1 else 0)) = true then some call
      else exec (Test.holds accepts a) .running rest := by
  induction ps generalizing j n with
  | nil => simp [plainChecks]
  | cons p ps ih =>
      rw [plainChecks, List.append_assoc]
      by_cases hj : a.argc ≤ j
      · -- the call that leaves out the argument at `j`
        have hnone : ∀ i (_ : i < (p :: ps).length), j + i < a.argc →
            (p :: ps)[i].passes accepts (a.argv (j + i + if this then 1 else 0)) = true := by
          intro i _ hi
          omega
        rw [if_pos (Nat.le_trans hreq hj), if_pos hnone]
        exact exec_enter_true (by simpa [Test.holds] using hj)
      · have hskip : exec (Test.holds accepts a) .running
            ((if num_required ≤ j then [.enter (Test.argcLe j), .call call, .leave] else []) ++
              (printTypecheck p (if this then j + 1 else j) ++
                plainChecks num_required this call (j + 1)
                  (n + if p.typecheck.isSome then 1 else 0) ps ++ .leave :: rest)) =
            exec (Test.holds accepts a) .running (printTypecheck p (if this then j + 1 else j) ++
              plainChecks num_required this call (j + 1)
                (n + if p.typecheck.isSome then 1 else 0) ps ++ .leave :: rest) := by
          split
          · refine (exec_enter_false (by simp [Test.holds, hj])).trans ?_
            exact exec_skip_block (opens_call call)
          · rfl
        have hall : (∀ i (_ : i < (p :: ps).length), j + i < a.argc →
              (p :: ps)[i].passes accepts (a.argv (j + i + if this then 1 else 0)) = true) ↔
            p.passes accepts (a.argv (j + if this then 1 else 0)) = true ∧
              ∀ i (_ : i < ps.length), j + 1 + i < a.argc →
                ps[i].passes accepts (a.argv (j + 1 + i + if this then 1 else 0)) = true := by
          constructor
          · intro h
            refine ⟨h 0 (by simp) (by omega), fun i hi hlt => ?_⟩
            have := h (i + 1) (by simpa using hi) (by omega)
            rwa [show j + (i + 1) = j + 1 + i by omega] at this
          · rintro ⟨h0, hrest⟩ i hi hlt
            cases i with
            | zero => exact h0
            | succ i =>
                have := hrest i (by simpa using hi) (by omega)
                rwa [show j + 1 + i = j + (i + 1) by omega] at this
        have hslot : (if this then j + 1 else j) = j + if this then 1 else 0 := by
          split <;> rfl
        rw [hskip]
        simp only [hall]
        rw [List.append_assoc, hslot]
        cases htm : p.typecheck with
        | none =>
            have hpass : p.passes accepts (a.argv (j + if this then 1 else 0)) = true := by
              simp [Parm.passes, htm]
            simpa [printTypecheck, htm, hpass] using ih (j := j + 1) (n := n)
        | some tm =>
            have hpass : p.passes accepts (a.argv (j + if this then 1 else 0)) =
                accepts tm (a.argv (j + if this then 1 else 0)) := by
              simp [Parm.passes, htm]
            rw [printTypecheck, htm]
            cases hacc : accepts tm (a.argv (j + if this then 1 else 0)) with
            | true =>
                refine (exec_enter_true (by simpa [Test.holds] using hacc)).trans ?_
                simpa [hpass, hacc] using ih (j := j + 1) (n := n + 1)
            | false =>
                refine (exec_enter_false (by simpa [Test.holds] using hacc)).trans ?_
                have hskipped : exec (Test.holds accepts a) (.skipping 0)
                    (plainChecks num_required this call (j + 1) (n + 1) ps ++ .leave :: rest) =
                      exec (Test.holds accepts a) .running rest := by
                  rw [exec_skip_plainChecks]
                  exact exec_leaves
                simpa [hpass, hacc] using hskipped

/-- The printed code reaches the call of a method. -/
def Method.Reached (accepts : TypecheckCode → α → Bool) (this : Bool) (a : Args α)
    (m : Method) : Prop :=
  m.InRange this a.argc ∧ ∀ j (_ : j < (walk 0 m.parms).length), j < a.argc →
    (walk 0 m.parms)[j].passes accepts (a.argv (j + if this then 1 else 0)) = true

instance (this : Bool) (m : Method) : Decidable (m.Reached accepts this a) :=
  inferInstanceAs (Decidable (_ ∧ _))

theorem exec_plainMethod {this : Bool} {m : Method} {rest : Code} :
    exec (Test.holds accepts a) .running (plainMethod this m ++ rest) =
      if m.Reached accepts this a then some (m.call this)
      else exec (Test.holds accepts a) .running rest := by
  unfold plainMethod
  simp only [List.cons_append, List.append_assoc, List.nil_append]
  by_cases hrange : m.InRange this a.argc
  · refine (exec_enter_true (rangeTest_holds.trans (by simpa [Method.InRange] using hrange))).trans ?_
    rw [exec_plainChecks hrange.1]
    simp [Method.Reached, hrange, Method.call]
  · refine (exec_enter_false (rangeTest_holds.trans (by simpa [Method.InRange] using hrange))).trans ?_
    rw [exec_skip_plainChecks, if_neg fun h => hrange h.1]
    rfl

theorem run_swigOverloadDispatch (o : OverloadSet) :
    (swigOverloadDispatch o).run accepts a =
      (o.methods.find? fun m => decide (m.Reached accepts o.wrap_this a)).map
        (·.call o.wrap_this) := by
  unfold Code.run swigOverloadDispatch
  generalize o.methods = methods
  induction methods with
  | nil => simp
  | cons m methods ih =>
      rw [List.flatMap_cons, exec_plainMethod, ih, List.find?_cons]
      by_cases h : m.Reached accepts o.wrap_this a <;> simp [h]

/-! ### The method called -/

theorem Method.reached_iff {this : Bool} {m : Method} :
    m.Reached accepts this a ↔ m.Selects accepts this a ∧ m.StrayChecksPass accepts this a := by
  obtain ⟨rest, hwalk⟩ := walk_eq m.mapped
  have hlen := length_inputs m.parms
  have hget (i : ℕ) (hi : i < (inputs m.parms).length) (hi' : i < (walk 0 m.parms).length) :
      (walk 0 m.parms)[i] = (inputs m.parms)[i] := by
    simp only [hwalk]
    exact List.getElem_append_left hi
  have hle : (inputs m.parms).length ≤ (walk 0 m.parms).length := by
    rw [hwalk, List.length_append]
    exact Nat.le_add_right _ _
  constructor
  · rintro ⟨hrange, hall⟩
    refine ⟨⟨hrange, fun i hi hlt => ?_⟩, fun j hj hlt _ => hall j hj hlt⟩
    rw [← hget i hi (by omega)]
    exact hall i (by omega) (by omega)
  · rintro ⟨⟨hrange, hargs⟩, hstray⟩
    refine ⟨hrange, fun j hj hlt => ?_⟩
    by_cases hinput : j < emitNumArguments m.parms
    · by_cases hshift : j + (if this then 1 else 0) < a.argc
      · rw [hget j (by omega) hj]
        exact hargs j (by omega) hshift
      · have hthis : this = true ∧ j + 1 = a.argc := by
          cases this with
          | true => exact ⟨rfl, by simp at hshift; omega⟩
          | false => simp at hshift; omega
        exact hstray j hj hlt (.inl hthis)
    · exact hstray j hj hlt (.inr (by omega))

/-- A search for the first element with a stronger property finds the same one
just if the one found has it. -/
theorem find?_map_eq_iff {β γ : Type*} {p q : β → Bool} {f : β → γ} {l : List β}
    (hqp : ∀ x ∈ l, q x = true → p x = true) (hf : ∀ x ∈ l, ∀ y ∈ l, f x = f y → x = y) :
    (l.find? q).map f = (l.find? p).map f ↔ ∀ x, l.find? p = some x → q x = true := by
  induction l with
  | nil => simp
  | cons y l ih =>
      have ih := ih (fun x hx => hqp x (List.mem_cons_of_mem _ hx))
        fun x hx z hz => hf x (List.mem_cons_of_mem _ hx) z (List.mem_cons_of_mem _ hz)
      by_cases hp : p y = true
      · rw [List.find?_cons_of_pos hp]
        by_cases hq : q y = true
        · simp [List.find?_cons_of_pos hq, hq]
        · rw [List.find?_cons_of_neg hq]
          refine iff_of_false (fun heq => ?_) (by simpa using hq)
          obtain ⟨x, hx, hfx⟩ := Option.map_eq_some_iff.mp heq
          have hxy : x = y := hf x (List.mem_cons_of_mem _ (List.mem_of_find?_eq_some hx)) y
            List.mem_cons_self hfx
          exact hq (hxy ▸ List.find?_some hx)
      · have hq : ¬q y = true := fun hq => hp (hqp y List.mem_cons_self hq)
        rw [List.find?_cons_of_neg hp, List.find?_cons_of_neg hq]
        exact ih

/-- The printed code calls the first method that fits the arguments just if
that method passes its stray checks. -/
theorem run_eq_firstSelected_iff (accepts : TypecheckCode → α → Bool) (o : OverloadSet)
    (a : Args α) :
    (swigOverloadDispatch o).run accepts a = firstSelected accepts o a ↔
      ∀ m, (o.methods.find? fun m => decide (m.Selects accepts o.wrap_this a)) = some m →
        m.StrayChecksPass accepts o.wrap_this a := by
  have hinj : ∀ x ∈ o.methods, ∀ y ∈ o.methods,
      x.call o.wrap_this = y.call o.wrap_this → x = y := by
    intro x hx y hy hxy
    exact List.inj_on_of_nodup_map o.nodup hx hy (congrArg Call.wrap_name hxy)
  rw [run_swigOverloadDispatch, firstSelected, find?_map_eq_iff ?_ hinj]
  · refine forall₂_congr fun m hm => ?_
    have hsel : m.Selects accepts o.wrap_this a := by simpa using List.find?_some hm
    simp [Method.reached_iff, hsel]
  · intro m _ hm
    simpa using (Method.reached_iff.mp (by simpa using hm)).1

/-- `Foo(int n = 3)` with a typecheck on `n`, wrapped with the object in front. -/
def defaultConstructor : OverloadSet where
  methods := [{
    wrap_name := "new_Foo__SWIG_0"
    parms := [{
      tmap_in := some .single
      tmap_typecheck := some [.input]
      tmap_default := false
      value := true
      implicitconv := none
      compactdefargs := true
      emit_varargs := false }]
    mapped := trivial }]
  wrap_this := true
  nodup := List.nodup_singleton _

/-- Called with the object alone, the printed code checks the slot behind it and
calls nothing. -/
theorem defaultConstructor_not_called :
    (swigOverloadDispatch defaultConstructor).run (fun _ x => x) ⟨1, fun j => j == 0⟩ = none ∧
      firstSelected (fun _ x => x) defaultConstructor ⟨1, fun j => j == 0⟩ =
        some ⟨"new_Foo__SWIG_0", 2⟩ := by
  decide

end Swig.Modules
