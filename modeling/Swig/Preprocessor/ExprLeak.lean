import Swig.Lib.TwoRuns
import Swig.Preprocessor.Expr

/-!
What one call of `Preprocessor_expr` sees of the calls before it.

The stack is static and a call starts without clearing it. The call is compared
with the same call on the cleared stack: the two stay in step until a parenthesis
is opened on an entry that still holds a string.
-/

namespace Swig.Preprocessor

open TwoRuns

/-- Both calls end for the same reason, with the same message. -/
def SameFailure (e f : Failure) : Prop :=
  e.reason = f.reason ∧ (e.reason = .error → e.state.errmsg = f.state.errmsg)

abbrev Agreeing {α β : Type} (R : α → β → Prop) (x : Eval α) (y : Eval β) : Prop :=
  Agree SameFailure R x y

/-- The entries at one position of the two stacks, where `operand` says that
the entry below is an operator. The value of an operand is not always written
before the operand is read, the strings of operators and open ends never. -/
structure EntryAgrees (operand : Prop) (v w : ExprVal) : Prop where
  op : w.op = v.op
  code : v.op = .op → w.value = v.value
  svalue : v.op = .value ∨ v.op = .group → w.svalue = v.svalue
  number : v.op = .value → v.svalue = none → w.value = v.value
  value : ¬operand → w.value = v.value

/-- The stacks `s` and `f` below position `k`, where `f` was cleared at first. -/
structure Below (s f : ℕ → ExprVal) (k : ℕ) : Prop where
  strings : ∀ i, (f i).svalue = none ∨ (f i).svalue = (s i).svalue
  entries : ∀ i < k, EntryAgrees (0 < i ∧ (s (i - 1)).op = .op) (s i) (f i)
  binary : ∀ i, i + 1 < k → (s (i + 1)).op = .op → unaryOf (s (i + 1)).value = none →
    (s i).op = .value

/-- Both calls are in the same place. -/
structure Lockstep (st ft : ExprState) : Prop where
  sp : ft.sp = st.sp
  below : Below st.stack ft.stack (st.sp + 1)

theorem Below.mono {s f : ℕ → ExprVal} {j k : ℕ} (h : Below s f k) (hjk : j ≤ k) : Below s f j :=
  ⟨h.strings, fun i hi => h.entries i (by omega), fun i hi => h.binary i (by omega)⟩

/-- The entry at `k` is written in both stacks. -/
theorem Below.write {s f : ℕ → ExprVal} {k : ℕ} (h : Below s f k) {v w : ExprVal}
    (hstring : w.svalue = none ∨ w.svalue = v.svalue)
    (hentry : EntryAgrees (0 < k ∧ (s (k - 1)).op = .op) v w)
    (hbinary : 0 < k → v.op = .op → unaryOf v.value = none → (s (k - 1)).op = .value) :
    Below (Function.update s k v) (Function.update f k w) (k + 1) := by
  refine ⟨fun i => ?_, fun i hi => ?_, fun i hi => ?_⟩
  · by_cases hik : i = k
    · subst hik
      simpa using hstring
    · simpa [hik] using h.strings i
  · by_cases hik : i = k
    · subst hik
      by_cases hzero : i = 0
      · simpa [hzero] using hentry
      · simpa [show i - 1 ≠ i by omega] using hentry
    · simpa [hik, show i - 1 ≠ k by omega] using h.entries i (by omega)
  · by_cases hik : i + 1 = k
    · subst hik
      simpa using hbinary (by omega)
    · simpa [hik, show i ≠ k by omega] using h.binary i (by omega)

variable {st ft : ExprState}

theorem Lockstep.top (h : Lockstep st ft) :
    EntryAgrees (0 < st.sp ∧ (st.stack (st.sp - 1)).op = .op) (st.stack st.sp) (ft.stack st.sp) :=
  h.below.entries _ (Nat.lt_succ_self _)

/-! ### The accesses -/

theorem agreeing_fail {α β : Type} {R : α → β → Prop} (msg : String) :
    Agreeing R (st.fail msg) (ft.fail msg) := .error ⟨rfl, fun _ => rfl⟩

theorem agreeing_stop {α β : Type} {R : α → β → Prop} {reason : Stop} (h : reason ≠ .error) :
    Agreeing R (st.stop reason) (ft.stop reason) := .error ⟨rfl, fun e => absurd e h⟩

theorem agreeing_get (i : ℕ) :
    Agreeing (fun v w => v = st.stack i ∧ w = ft.stack i) (st.get i) (ft.get i) :=
  .ite Iff.rfl (fun _ _ => .ok ⟨rfl, rfl⟩) fun _ _ => agreeing_stop (by simp)

theorem agreeing_set (i : ℕ) (v w : ExprVal) :
    Agreeing (fun s t => s = { st with stack := Function.update st.stack i v } ∧
      t = { ft with stack := Function.update ft.stack i w }) (st.set i v) (ft.set i w) :=
  .ite Iff.rfl (fun _ _ => .ok ⟨rfl, rfl⟩) fun _ _ => agreeing_stop (by simp)

/-! ### Reductions -/

/-- The value at `k` is replaced in both stacks, and `k` becomes the top. -/
def Replaced (st ft st' ft' : ExprState) : Prop :=
  ∃ k v, k < st.sp ∧
    st' = { st with stack := Function.update st.stack k { st.stack k with value := v }, sp := k } ∧
    ft' = { ft with stack := Function.update ft.stack k { ft.stack k with value := v }, sp := k }

theorem agreeing_storeBinary (hsp : ft.sp = st.sp) (hpos : 2 ≤ st.sp) (v : Long) :
    Agreeing (Replaced st ft) (storeBinary st v) (storeBinary ft v) := by
  unfold storeBinary
  rw [hsp]
  refine (agreeing_get _).bind ?_
  rintro _ _ ⟨rfl, rfl⟩
  refine (agreeing_set _ _ _).bind ?_
  rintro _ _ ⟨rfl, rfl⟩
  exact .ok ⟨st.sp - 2, v, by omega, rfl, by simp [hsp]⟩

theorem Lockstep.reduceStrings (h : Lockstep st ft) (hpos : 2 ≤ st.sp)
    (hleft : (st.stack (st.sp - 2)).op = .value) (code : Long) (s : List Byte) :
    Agreeing (Replaced st ft) (reduceStrings st code s) (reduceStrings ft code s) := by
  unfold Preprocessor.reduceStrings
  rw [h.sp]
  refine (agreeing_get _).bind ?_
  rintro _ _ ⟨rfl, rfl⟩
  rw [(h.below.entries (st.sp - 2) (by omega)).svalue (.inl hleft)]
  split
  · exact agreeing_storeBinary h.sp hpos _
  · exact agreeing_storeBinary h.sp hpos _
  · exact agreeing_fail _

theorem Lockstep.reduceNumbers (h : Lockstep st ft) (hpos : 0 < st.sp) {code : Long}
    (htop : (ft.stack st.sp).value = (st.stack st.sp).value)
    (hleft : unaryOf code = none → 2 ≤ st.sp ∧
      (ft.stack (st.sp - 2)).value = (st.stack (st.sp - 2)).value) :
    Agreeing (Replaced st ft) (reduceNumbers st code) (reduceNumbers ft code) := by
  unfold Preprocessor.reduceNumbers
  rw [h.sp]
  refine (agreeing_get _).bind ?_
  rintro _ _ ⟨rfl, rfl⟩
  rw [htop]
  split
  · refine (agreeing_get _).bind ?_
    rintro _ _ ⟨rfl, rfl⟩
    refine (agreeing_set _ _ _).bind ?_
    rintro _ _ ⟨rfl, rfl⟩
    exact .ok ⟨st.sp - 1, _, by omega, rfl, by simp [h.sp]⟩
  · rename_i hcode _
    obtain ⟨htwo, hvalue⟩ := hleft hcode
    refine (agreeing_get _).bind ?_
    rintro _ _ ⟨rfl, rfl⟩
    rw [hvalue]
    split
    · exact agreeing_storeBinary h.sp htwo _
    · exact agreeing_stop (by simp)
  · exact agreeing_fail _

/-- What the checks of `reduce_op` ensure. -/
def Checked (st : ExprState) : Prop :=
  match unaryOf (st.stack (st.sp - 1)).value with
  | some _ => (st.stack st.sp).svalue = none
  | none => 2 ≤ st.sp ∧ (st.stack (st.sp - 2)).op = .value ∧
      ((st.stack st.sp).svalue = none → (st.stack (st.sp - 2)).svalue = none)

theorem Lockstep.checkOperands (h : Lockstep st ft) (hpos : 0 < st.sp)
    (hop : (st.stack (st.sp - 1)).op = .op) (htop : (st.stack st.sp).op = .value) :
    Agreeing (fun _ _ => Checked st)
      (checkOperands st (st.stack (st.sp - 1)).value (st.stack st.sp))
      (checkOperands ft (st.stack (st.sp - 1)).value (ft.stack st.sp)) := by
  unfold Preprocessor.checkOperands Checked
  rw [h.sp, h.top.svalue (.inl htop), h.top.op]
  cases hcode : unaryOf (st.stack (st.sp - 1)).value with
  | some o =>
      refine .ite Iff.rfl (fun _ _ => ?_) fun hno _ => absurd rfl hno
      refine .ite Iff.rfl (fun _ _ => agreeing_fail _) fun hnone _ => .ok ?_
      simpa using hnone
  | none =>
      refine .ite Iff.rfl (fun hyes _ => by cases hyes) fun _ _ => ?_
      refine .ite Iff.rfl (fun _ _ => agreeing_fail _) fun hone _ => ?_
      refine .ite Iff.rfl (fun _ _ => agreeing_fail _) fun _ _ => ?_
      have hleft : (st.stack (st.sp - 2)).op = .value := by
        have := h.below.binary (st.sp - 2) (by omega)
        rw [show st.sp - 2 + 1 = st.sp - 1 by omega] at this
        exact this hop hcode
      refine (agreeing_get _).bind ?_
      rintro _ _ ⟨rfl, rfl⟩
      rw [(h.below.entries (st.sp - 2) (by omega)).svalue (.inl hleft)]
      refine .ite Iff.rfl (fun _ _ => agreeing_fail _) fun hsame _ => .ok ?_
      refine ⟨by omega, hleft, fun hnone => ?_⟩
      simpa [hnone] using hsame

/-- A reduction leaves a value at the top. -/
structure Reduced (st st' ft' : ExprState) : Prop where
  lockstep : Lockstep st' ft'
  sp_lt : st'.sp < st.sp
  top : (st'.stack st'.sp).op = .value

/-- The reduced operand takes its place. -/
theorem Lockstep.replaced (h : Lockstep st ft) {st' ft' : ExprState}
    (hr : Replaced st ft st' ft') :
    Agreeing (Reduced st)
      (do
        let top ← st'.get st'.sp
        st'.set st'.sp { top with op := .value, svalue := none })
      (do
        let top ← ft'.get ft'.sp
        ft'.set ft'.sp { top with op := .value, svalue := none }) := by
  obtain ⟨k, v, hk, rfl, rfl⟩ := hr
  refine (agreeing_get _).bind ?_
  rintro _ _ ⟨rfl, rfl⟩
  refine (agreeing_set _ _ _).mono ?_
  rintro _ _ ⟨rfl, rfl⟩
  refine ⟨⟨rfl, ?_⟩, hk, by simp⟩
  simp only [Function.update_self, Function.update_idem]
  refine (h.below.mono (by omega)).write (.inl rfl) ⟨rfl, by simp, by simp, by simp, by simp⟩ ?_
  intro _ hop
  cases hop

theorem Lockstep.reduceOp (h : Lockstep st ft) :
    Agreeing (Reduced st) (Preprocessor.reduceOp st) (Preprocessor.reduceOp ft) := by
  unfold Preprocessor.reduceOp
  rw [h.sp]
  refine .ite Iff.rfl (fun _ _ => agreeing_stop (by simp)) fun hpos _ => ?_
  have hpos : 0 < st.sp := by omega
  have hbelow := h.below.entries (st.sp - 1) (by omega)
  refine (agreeing_get _).bind ?_
  rintro _ _ ⟨rfl, rfl⟩
  rw [hbelow.op]
  refine .ite Iff.rfl (fun _ _ => agreeing_stop (by simp)) fun hop _ => ?_
  have hop : (st.stack (st.sp - 1)).op = .op := by simpa using hop
  refine (agreeing_get _).bind ?_
  rintro _ _ ⟨rfl, rfl⟩
  rw [h.top.op]
  refine .ite Iff.rfl (fun _ _ => agreeing_fail _) fun htop _ => ?_
  have htop : (st.stack st.sp).op = .value := by simpa using htop
  rw [hbelow.code hop]
  refine (h.checkOperands hpos hop htop).bind ?_
  intro _ _ hcheck
  rw [h.top.svalue (.inl htop)]
  unfold Checked at hcheck
  cases hsvalue : (st.stack st.sp).svalue with
  | some s =>
      cases hcode : unaryOf (st.stack (st.sp - 1)).value with
      | some o => simp [hcode, hsvalue] at hcheck
      | none =>
          rw [hcode] at hcheck
          exact (h.reduceStrings hcheck.1 hcheck.2.1 _ s).bind fun _ _ hr => h.replaced hr
  | none =>
      refine (h.reduceNumbers hpos (h.top.number htop hsvalue) fun hcode => ?_).bind
        fun _ _ hr => h.replaced hr
      rw [hcode] at hcheck
      obtain ⟨htwo, hleft, hnone⟩ := hcheck
      exact ⟨htwo, (h.below.entries (st.sp - 2) (by omega)).number hleft (hnone hsvalue)⟩

/-- All operators below the top are reduced. -/
structure AllReduced (st' ft' : ExprState) : Prop where
  lockstep : Lockstep st' ft'
  top : (st'.stack st'.sp).op = .value
  below : ¬(0 < st'.sp ∧ (st'.stack (st'.sp - 1)).op = .op)

theorem Lockstep.reduceLoop (h : Lockstep st ft) (htop : (st.stack st.sp).op = .value) {fuel : ℕ}
    (hfuel : st.sp ≤ fuel) :
    Agreeing AllReduced (Preprocessor.reduceLoop fuel st) (Preprocessor.reduceLoop fuel ft) := by
  induction fuel generalizing st ft with
  | zero => exact .ok ⟨h, htop, by omega⟩
  | succ fuel ih =>
      unfold Preprocessor.reduceLoop
      rw [h.sp]
      refine .ite Iff.rfl (fun hzero _ => .ok ⟨h, htop, by omega⟩) fun hpos _ => ?_
      refine (agreeing_get _).bind ?_
      rintro _ _ ⟨rfl, rfl⟩
      rw [(h.below.entries (st.sp - 1) (by omega)).op]
      refine .ite Iff.rfl (fun _ _ => ?_) fun hop _ => .ok ⟨h, htop, fun hno => hop hno.2⟩
      refine h.reduceOp.bind fun st' ft' hr => ?_
      have hlt := hr.sp_lt
      exact ih hr.lockstep hr.top (by omega)

/-! ### Tokens -/

/-- An operand or an open end at the top is replaced by a value. -/
theorem Lockstep.setValue (h : Lockstep st ft) {v w : ExprVal} (hop : v.op = .value)
    (hop' : w.op = .value) (hsvalue : w.svalue = v.svalue)
    (hvalue : (v.svalue = none ∨ ¬(0 < st.sp ∧ (st.stack (st.sp - 1)).op = .op)) →
      w.value = v.value) :
    Agreeing Lockstep (st.set st.sp v) (ft.set st.sp w) := by
  refine (agreeing_set _ _ _).mono ?_
  rintro _ _ ⟨rfl, rfl⟩
  refine ⟨h.sp, (h.below.mono (Nat.le_succ _)).write (.inr hsvalue)
    ⟨hop'.trans hop.symm, fun e => ?_, fun _ => hsvalue, fun _ hn => hvalue (.inl hn),
      fun hno => hvalue (.inr hno)⟩ fun _ e => ?_⟩
  · rw [hop] at e
    cases e
  · rw [hop] at e
    cases e

theorem Lockstep.pushBinary (h : Lockstep st ft) (htop : (st.stack st.sp).op = .value)
    (o : BinaryOp) :
    Agreeing Lockstep (Preprocessor.pushBinary st o) (Preprocessor.pushBinary ft o) := by
  unfold Preprocessor.pushBinary
  rw [h.sp]
  refine (agreeing_get _).bind ?_
  rintro _ _ ⟨rfl, rfl⟩
  refine (agreeing_set _ _ _).bind ?_
  rintro _ _ ⟨rfl, rfl⟩
  rw [h.sp]
  refine (agreeing_get _).bind ?_
  rintro _ _ ⟨rfl, rfl⟩
  refine (agreeing_set _ _ _).bind ?_
  rintro _ _ ⟨rfl, rfl⟩
  refine .ok ⟨by simp, ?_⟩
  have hopen := h.below.write (k := st.sp + 1)
    (v := { st.stack (st.sp + 1) with op := .op, value := BitVec.ofNat 64 o.code })
    (w := { ft.stack (st.sp + 1) with op := .op, value := BitVec.ofNat 64 o.code })
    (h.below.strings _) ⟨rfl, fun _ => rfl, by simp, by simp, fun _ => rfl⟩ fun _ _ _ => htop
  simp only [ne_eq, Nat.reduceEqDiff, not_false_eq_true, Function.update_of_ne, Nat.add_left_cancel_iff]
  exact hopen.write (h.below.strings _) ⟨rfl, by simp, by simp, by simp, fun _ => rfl⟩
    fun _ e => by cases e

theorem Lockstep.pushUnary (h : Lockstep st ft) (o : UnaryOp) :
    Agreeing Lockstep (Preprocessor.pushUnary st o) (Preprocessor.pushUnary ft o) := by
  unfold Preprocessor.pushUnary
  rw [h.sp]
  refine (agreeing_get _).bind ?_
  rintro _ _ ⟨rfl, rfl⟩
  refine (agreeing_set _ _ _).bind ?_
  rintro _ _ ⟨rfl, rfl⟩
  rw [h.sp]
  refine (agreeing_get _).bind ?_
  rintro _ _ ⟨rfl, rfl⟩
  refine (agreeing_set _ _ _).bind ?_
  rintro _ _ ⟨rfl, rfl⟩
  refine .ok ⟨by simp, ?_⟩
  have hunary : unaryOf (BitVec.ofNat 64 o.code) = some o := by cases o <;> decide
  have hopen := (h.below.mono (Nat.le_succ _)).write (k := st.sp)
    (v := { st.stack st.sp with op := .op, value := BitVec.ofNat 64 o.code })
    (w := { ft.stack st.sp with op := .op, value := BitVec.ofNat 64 o.code })
    (h.below.strings _) ⟨rfl, fun _ => rfl, by simp, by simp, fun _ => rfl⟩
    fun _ _ hnone => by simp [hunary] at hnone
  refine hopen.write (.inl rfl) ⟨rfl, by simp, by simp, by simp, ?_⟩ fun _ e => by cases e
  intro hno
  exact absurd ⟨Nat.succ_pos _, by simp⟩ hno

/-- A parenthesis is opened on an entry without a string. -/
theorem Lockstep.pushGroup (h : Lockstep st ft) (hclean : (st.stack st.sp).svalue = none) :
    Agreeing Lockstep (Preprocessor.pushGroup st) (Preprocessor.pushGroup ft) := by
  unfold Preprocessor.pushGroup
  rw [h.sp]
  refine (agreeing_get _).bind ?_
  rintro _ _ ⟨rfl, rfl⟩
  refine (agreeing_set _ _ _).bind ?_
  rintro _ _ ⟨rfl, rfl⟩
  rw [h.sp]
  refine (agreeing_get _).bind ?_
  rintro _ _ ⟨rfl, rfl⟩
  refine (agreeing_set _ _ _).bind ?_
  rintro _ _ ⟨rfl, rfl⟩
  refine .ok ⟨by simp, ?_⟩
  have hstring := h.below.strings st.sp
  have hopen := (h.below.mono (Nat.le_succ _)).write (k := st.sp)
    (v := { st.stack st.sp with op := .group }) (w := { ft.stack st.sp with op := .group })
    hstring ⟨rfl, by simp, fun _ => ?_, by simp, h.top.value⟩ fun _ e => by cases e
  · exact hopen.write (.inl rfl) ⟨rfl, by simp, by simp, by simp, fun _ => rfl⟩ fun _ e => by cases e
  · rcases hstring with hnone | hsame
    · exact hnone.trans hclean.symm
    · exact hsame

/-- The start of an operand. -/
theorem Lockstep.exprTop (h : Lockstep st ft) (t : ExprToken)
    (hclean : t.1 = .lparen → (st.stack st.sp).svalue = none) :
    Agreeing Lockstep (Preprocessor.exprTop st t) (Preprocessor.exprTop ft t) := by
  unfold Preprocessor.exprTop
  split
  case h_9 heq => exact h.pushGroup (hclean heq)
  case h_11 =>
    rw [h.sp]
    refine (agreeing_get _).bind ?_
    rintro _ _ ⟨rfl, rfl⟩
    refine h.setValue rfl rfl rfl ?_
    rintro (hnone | hno)
    · cases hnone
    · exact h.top.value hno
  all_goals first
    | exact agreeing_fail _
    | exact .ok h
    | exact h.pushUnary _
    | (rw [h.sp]; exact h.setValue rfl rfl rfl fun _ => rfl)

theorem Lockstep.exprBinary (h : Lockstep st ft) (htop : (st.stack st.sp).op = .value)
    (o : BinaryOp) :
    Agreeing Lockstep (Preprocessor.exprBinary st o) (Preprocessor.exprBinary ft o) := by
  unfold Preprocessor.exprBinary
  rw [h.sp]
  refine .ite Iff.rfl (fun _ _ => h.pushBinary htop o) fun hpos _ => ?_
  have hbelow := h.below.entries (st.sp - 1) (by omega)
  refine (agreeing_get _).bind ?_
  rintro _ _ ⟨rfl, rfl⟩
  rw [hbelow.op]
  refine .ite Iff.rfl (fun _ _ => h.pushBinary htop o) fun _ _ => ?_
  refine .ite Iff.rfl (fun _ _ => agreeing_fail _) fun hop _ => ?_
  rw [hbelow.code (by simpa using hop)]
  refine .ite Iff.rfl (fun _ _ => ?_) fun _ _ => h.pushBinary htop o
  exact h.reduceOp.bind fun _ _ hr => hr.lockstep.pushBinary hr.top o

theorem Lockstep.exprRparen (h : Lockstep st ft) (htop : (st.stack st.sp).op = .value) :
    Agreeing Lockstep (Preprocessor.exprRparen st) (Preprocessor.exprRparen ft) := by
  unfold Preprocessor.exprRparen
  rw [h.sp]
  refine .ite Iff.rfl (fun _ _ => agreeing_fail _) fun _ _ => ?_
  refine (h.reduceLoop htop (Nat.le_refl _)).bind fun st' ft' hr => ?_
  have h' := hr.lockstep
  rw [h'.sp]
  refine .ite Iff.rfl (fun _ _ => agreeing_fail _) fun hpos _ => ?_
  have hbelow := h'.below.entries (st'.sp - 1) (by omega)
  refine (agreeing_get _).bind ?_
  rintro _ _ ⟨rfl, rfl⟩
  rw [hbelow.op]
  refine .ite Iff.rfl (fun _ _ => agreeing_fail _) fun hgroup _ => ?_
  have hgroup : (st'.stack (st'.sp - 1)).op = .group := by simpa using hgroup
  refine (agreeing_get _).bind ?_
  rintro _ _ ⟨rfl, rfl⟩
  refine (agreeing_set _ _ _).bind ?_
  rintro _ _ ⟨rfl, rfl⟩
  refine .ok ⟨by simp [h'.sp], ?_⟩
  -- the value is the one inside; the string is that of the entry of the parenthesis
  have hsvalue := hbelow.svalue (.inr hgroup)
  have hvalue := h'.top.value hr.below
  exact (h'.below.mono (by omega)).write (.inr hsvalue)
    ⟨rfl, by simp, fun _ => hsvalue, fun _ _ => hvalue, fun _ => hvalue⟩ fun _ e => by cases e

theorem Lockstep.exprStep (h : Lockstep st ft) (t : ExprToken)
    (hclean : (st.stack st.sp).op = .top → t.1 = .lparen → (st.stack st.sp).svalue = none) :
    Agreeing Lockstep (Preprocessor.exprStep st t) (Preprocessor.exprStep ft t) := by
  unfold Preprocessor.exprStep
  rw [h.sp]
  refine (agreeing_get _).bind ?_
  rintro _ _ ⟨rfl, rfl⟩
  rw [h.top.op]
  cases hop : (st.stack st.sp).op with
  | top => exact h.exprTop t (hclean hop)
  | value =>
      unfold exprValue
      cases tokenBinary t.1 with
      | some o => exact h.exprBinary hop o
      | none =>
          exact .ite Iff.rfl (fun _ _ => h.exprRparen hop) fun _ _ => agreeing_fail _
  | unset => exact agreeing_stop (by simp)
  | op => exact agreeing_stop (by simp)
  | group => exact agreeing_stop (by simp)

/-- The results of both calls have the same value at the top. -/
def SameValue (st' ft' : ExprState) : Prop :=
  (ft'.stack ft'.sp).value = (st'.stack st'.sp).value

theorem Lockstep.exprFinish (h : Lockstep st ft) :
    Agreeing SameValue (Preprocessor.exprFinish st) (Preprocessor.exprFinish ft) := by
  unfold Preprocessor.exprFinish
  rw [h.sp]
  refine (agreeing_get _).bind ?_
  rintro _ _ ⟨rfl, rfl⟩
  rw [h.top.op]
  cases hop : (st.stack st.sp).op with
  | top => exact agreeing_fail _
  | value =>
      unfold exprEnd
      simp only [h.sp]
      refine (h.reduceLoop hop (Nat.le_refl _)).bind fun st' ft' hr => ?_
      have h' := hr.lockstep
      rw [h'.sp]
      refine .ite Iff.rfl (fun hzero _ => .ok ?_) fun hpos _ => ?_
      · rw [SameValue, h'.sp]
        exact h'.top.value (by omega)
      · refine (agreeing_get _).bind ?_
        rintro _ _ ⟨rfl, rfl⟩
        rw [(h'.below.entries (st'.sp - 1) (by omega)).op]
        exact .ite Iff.rfl (fun _ _ => agreeing_fail _) fun _ _ => agreeing_fail _
  | unset => exact agreeing_stop (by simp)
  | op => exact agreeing_stop (by simp)
  | group => exact agreeing_stop (by simp)

/-! ### Whole calls -/

/-- From `st` on, no parenthesis is opened on an entry that holds a string. -/
def groupsClean (st : ExprState) : List ExprToken → Bool
  | [] => true
  | t :: ts =>
      if skipped t.1 then groupsClean st ts
      else if t.1 = .eof then true
      else
        !((st.stack st.sp).op == .top && t.1 == .lparen && (st.stack st.sp).svalue.isSome) &&
          match exprStep st t with
          | .ok st' => groupsClean st' ts
          | .error _ => true

theorem Lockstep.exprLoop (h : Lockstep st ft) {ts : List ExprToken} (hclean : groupsClean st ts = true) :
    Agreeing SameValue (Preprocessor.exprLoop st ts) (Preprocessor.exprLoop ft ts) := by
  induction ts generalizing st ft with
  | nil => exact h.exprFinish
  | cons t ts ih =>
      unfold Preprocessor.exprLoop
      unfold groupsClean at hclean
      refine .ite Iff.rfl (fun hskip _ => ih h (by simpa [hskip] using hclean)) fun hskip _ => ?_
      rw [if_neg hskip] at hclean
      refine .ite Iff.rfl (fun _ _ => h.exprFinish) fun heof _ => ?_
      rw [if_neg heof, Bool.and_eq_true] at hclean
      obtain ⟨hparen, hrest⟩ := hclean
      refine (h.exprStep t fun hop ht => ?_).bind_of_eq fun st' _ hst' _ h' => ih h' ?_
      · simpa [hop, ht] using hparen
      · simpa [hst'] using hrest

/-- The state in which the loop of a call starts. -/
def started (st : ExprState) : ExprState :=
  { st with sp := 0, stack := Function.update st.stack 0 { st.stack 0 with op := .top, value := 0 } }

theorem preprocessorExprLoop_eq (st : ExprState) (ts : List ExprToken) :
    preprocessorExprLoop st ts = exprLoop (started st) ts := rfl

theorem lockstep_started (st : ExprState) : Lockstep (started st) (started .initial) := by
  refine ⟨rfl, ?_⟩
  have hnone : Below st.stack ExprState.initial.stack 0 :=
    ⟨fun _ => .inl rfl, fun i hi => by omega, fun i hi => by omega⟩
  exact hnone.write (.inl rfl) ⟨rfl, by simp, by simp, by simp, fun _ => rfl⟩ fun h => by omega

/-- What the caller sees: the value, the error flag, and the message if there
is an error. -/
structure Outcome where
  result : ExprResult
  message : Option (List Byte)
  deriving DecidableEq

def outcome (st : ExprState) (ts : List ExprToken) : Option Outcome :=
  (preprocessorExpr st ts).map fun (r, st') =>
    ⟨r, if r.error = 1 then st'.errmsg else none⟩

/-- A call that opens no parenthesis on a string has the outcome it has on the
cleared stack. -/
theorem outcome_eq_of_groupsClean {st : ExprState} {ts : List ExprToken}
    (hclean : groupsClean (started st) ts = true) : outcome st ts = outcome .initial ts := by
  have h := (lockstep_started st).exprLoop hclean
  unfold outcome preprocessorExpr
  rw [preprocessorExprLoop_eq, preprocessorExprLoop_eq]
  cases hs : exprLoop (started st) ts with
  | ok st' =>
      rw [hs] at h
      cases hf : exprLoop (started .initial) ts with
      | ok ft' =>
          rw [hf] at h
          cases h with
          | ok hvalue => simp [show (ft'.stack ft'.sp).value = (st'.stack st'.sp).value from hvalue]
      | error f =>
          rw [hf] at h
          cases h
  | error e =>
      rw [hs] at h
      cases hf : exprLoop (started .initial) ts with
      | ok ft' =>
          rw [hf] at h
          cases h
      | error f =>
          rw [hf] at h
          cases h with
          | error hsame =>
              obtain ⟨reason, est⟩ := e
              obtain ⟨reason', fst⟩ := f
              obtain ⟨hreason, hmessage⟩ := hsame
              obtain rfl : reason = reason' := hreason
              cases reason with
              | error => simp [show est.errmsg = fst.errmsg from hmessage rfl]
              | outOfBounds => rfl
              | assertion => rfl
              | undefined => rfl
              | abort => rfl

/-- The static state after a sequence of calls, if all of them return. -/
def stateAfter (history : List (List ExprToken)) : Option ExprState :=
  history.foldlM (fun st ts => (preprocessorExpr st ts).map (·.2)) .initial

/-- The outcome of a call after a sequence of calls. -/
def outcomeAfter (history : List (List ExprToken)) (ts : List ExprToken) : Option Outcome :=
  (stateAfter history).bind (outcome · ts)

end Swig.Preprocessor
