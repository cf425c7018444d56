import Swig.Modules.OverloadDispatch

/-!
What the code of `Swig_overload_dispatch_fast` calls, against what the code of
`Swig_overload_dispatch` calls for the same methods.

The fast dispatcher keeps a typecheck if a later method whose declared number of
arguments overlaps has another one at the same position, or none.
-/

namespace Swig.Modules

open BlockCode

variable {α : Type*} {accepts : TypecheckCode → α → Bool} {a : Args α}

/-- The typecheck of a parameter at position `j` that the fast dispatcher prints. -/
def keptCheck (coll : List Method) (j : ℕ) (p : Parm) : Option TypecheckCode :=
  if p.tmap_typecheck.any (emitcheck coll j) then p.typecheck else none

theorem keptCheck_none {coll : List Method} {j : ℕ} {p : Parm} (h : p.tmap_typecheck = none) :
    keptCheck coll j p = none := by
  simp [keptCheck, h]

theorem keptCheck_some {coll : List Method} {j : ℕ} {p : Parm} {tm : TypecheckCode}
    (h : p.tmap_typecheck = some tm) :
    keptCheck coll j p = if emitcheck coll j tm then
      some (replaceImplicitconv (p.implicitconv.getD "0") tm) else none := by
  simp [keptCheck, Parm.typecheck, h]

/-! ### The checks of one method -/

section

variable {num_required i : ℕ} {coll : List Method} {ps : List Parm} {j n d l : ℕ} {rest : Code}

/-- `fastChecks` in terms of the checks that are kept. -/
theorem fastChecks_cons (p : Parm) :
    fastChecks num_required i coll j n (p :: ps) =
      match keptCheck coll j p with
      | none => fastChecks num_required i coll (j + 1) n ps
      | some tm =>
          if num_required ≤ j then
            .enter (.argcGt j) :: .orElse (.typecheck tm j) (i + 1) ::
              fastChecks num_required i coll (j + 1) (n + 1) ps
          else
            .orElse (.typecheck tm j) (i + 1) :: fastChecks num_required i coll (j + 1) n ps := by
  rw [fastChecks]
  cases htm : p.tmap_typecheck with
  | none => simp [keptCheck_none htm]
  | some tm =>
      rw [keptCheck_some htm]
      by_cases hemit : emitcheck coll j tm = true <;> simp [hemit]

theorem exec_skip_fastChecks :
    exec (Test.holds accepts a) (.skipping d) (fastChecks num_required i coll j n ps ++ rest) =
      exec (Test.holds accepts a) (.skipping d) (List.replicate n .leave ++ rest) := by
  induction ps generalizing j n d with
  | nil => rfl
  | cons p ps ih =>
      rw [fastChecks_cons]
      cases keptCheck coll j p with
      | none => exact ih
      | some tm =>
          have hcheck := opens_orElse (K := Call) (Test.typecheck tm j) (i + 1)
            (Test.holds accepts a)
          by_cases hj : num_required ≤ j
          · have hskip := hcheck (d + 1) (fastChecks num_required i coll (j + 1) (n + 1) ps ++ rest)
            rw [ih] at hskip
            simp only [hj, if_true, List.cons_append]
            exact hskip
          · have hskip := hcheck d (fastChecks num_required i coll (j + 1) n ps ++ rest)
            rw [ih] at hskip
            simp only [hj, if_false, List.cons_append]
            exact hskip

theorem before_fastChecks : Before l (fastChecks num_required i coll j n ps) := by
  induction ps generalizing j n with
  | nil =>
      intro line hline
      rw [fastChecks] at hline
      rw [List.eq_of_mem_replicate hline]
      nofun
  | cons p ps ih =>
      rw [fastChecks_cons]
      cases keptCheck coll j p with
      | none => exact ih
      | some tm =>
          intro line hline
          by_cases hj : num_required ≤ j
          · simp only [hj, if_true, List.mem_cons] at hline
            rcases hline with rfl | rfl | hline
            · nofun
            · nofun
            · exact ih line hline
          · simp only [hj, if_false, List.mem_cons] at hline
            rcases hline with rfl | hline
            · nofun
            · exact ih line hline

/-- The checks from position `j` on, the call, and the label behind the method,
which stands there if a check is printed. -/
theorem exec_fastChecks {call : Call} {behind : Code} (hreq : num_required ≤ a.argc)
    (hlabel : (∃ k p, ps[k]? = some p ∧ (keptCheck coll (j + k) p).isSome) →
      behind = [.label (i + 1)]) :
    exec (Test.holds accepts a) .running
        (fastChecks num_required i coll j n ps ++ .call call :: .leave :: (behind ++ rest)) =
      if ∀ k (_ : k < ps.length), j + k < a.argc →
          (keptCheck coll (j + k) ps[k]).all (fun tm => accepts tm (a.argv (j + k))) = true then
        some call
      else exec (Test.holds accepts a) .running rest := by
  induction ps generalizing j n with
  | nil =>
      rw [fastChecks, exec_leaves]
      simp
  | cons p ps ih =>
      have ih {n : ℕ} := ih (j := j + 1) (n := n) fun ⟨k, q, hq, hkept⟩ =>
        hlabel ⟨k + 1, q, hq, by rwa [show j + (k + 1) = j + 1 + k by omega]⟩
      have hall : (∀ k (_ : k < (p :: ps).length), j + k < a.argc →
            (keptCheck coll (j + k) (p :: ps)[k]).all (fun tm => accepts tm (a.argv (j + k))) = true) ↔
          (j < a.argc → (keptCheck coll j p).all (fun tm => accepts tm (a.argv j)) = true) ∧
            ∀ k (_ : k < ps.length), j + 1 + k < a.argc →
              (keptCheck coll (j + 1 + k) ps[k]).all
                (fun tm => accepts tm (a.argv (j + 1 + k))) = true := by
        constructor
        · intro h
          refine ⟨fun hj => h 0 (by simp) hj, fun k hk hlt => ?_⟩
          have := h (k + 1) (by simpa using hk) (by omega)
          rwa [show j + (k + 1) = j + 1 + k by omega] at this
        · rintro ⟨h0, hrest⟩ k hk hlt
          cases k with
          | zero => exact h0 hlt
          | succ k =>
              have := hrest k (by simpa using hk) (by omega)
              rwa [show j + 1 + k = j + (k + 1) by omega] at this
      simp only [hall]
      rw [fastChecks_cons]
      cases hkept : keptCheck coll j p with
      | none => simpa using ih (n := n)
      | some tm =>
          have hbehind : behind = [.label (i + 1)] := hlabel ⟨0, p, rfl, by simp [hkept]⟩
          -- a check that fails goes to the label behind the call
          have hcheck {n : ℕ} (hj : j < a.argc) : exec (Test.holds accepts a) .running
              (.orElse (.typecheck tm j) (i + 1) :: (fastChecks num_required i coll (j + 1) n ps ++
                .call call :: .leave :: (behind ++ rest))) =
              if (j < a.argc → (some tm).all (fun tm => accepts tm (a.argv j)) = true) ∧
                ∀ k (_ : k < ps.length), j + 1 + k < a.argc →
                  (keptCheck coll (j + 1 + k) ps[k]).all
                    (fun tm => accepts tm (a.argv (j + 1 + k))) = true
              then some call else exec (Test.holds accepts a) .running rest := by
            cases hacc : accepts tm (a.argv j) with
            | true =>
                rw [exec_orElse_true (by simpa [Test.holds] using hacc), ih]
                simp [hacc]
            | false =>
                rw [exec_orElse_false (by simpa [Test.holds] using hacc),
                  exec_seek before_fastChecks, hbehind]
                simp [hacc, hj, exec]
          by_cases hle : num_required ≤ j
          · simp only [hle, if_true, List.cons_append]
            by_cases hj : j < a.argc
            · rw [exec_enter_true (by simpa [Test.holds] using hj), hcheck hj]
            · rw [exec_enter_false (by simpa [Test.holds] using hj), if_pos ⟨fun h => absurd h hj,
                fun k _ hlt => by omega⟩]
              have hskip := opens_orElse (K := Call) (Test.typecheck tm j) (i + 1)
                (Test.holds accepts a) 0 (fastChecks num_required i coll (j + 1) (n + 1) ps ++
                  .call call :: .leave :: (behind ++ rest))
              rw [exec_skip_fastChecks] at hskip
              exact hskip.trans exec_leaves
          · simp only [hle, if_false, List.cons_append]
            exact hcheck (by omega)

end

/-! ### The method the fast dispatcher calls -/

/-- The declared numbers of arguments of two methods overlap. -/
def Method.Overlaps (m k : Method) : Prop :=
  emitNumRequired k.parms ≤ emitNumArguments m.parms ∧
    emitNumRequired m.parms ≤ emitNumArguments k.parms

/-- A later method that overlaps `m` takes an argument at position `j` and has
another typecheck there, or none. -/
def Method.Distinguished (m : Method) (later : List Method) (j : ℕ) (tm : TypecheckCode) : Prop :=
  ∃ k ∈ later, m.Overlaps k ∧ j < emitNumArguments k.parms ∧
    ∃ pl, (walk 0 k.parms)[j]? = some pl ∧ pl.tmap_typecheck ≠ some tm

/-- A supplied argument fails a typecheck that distinguishes the method. -/
def Method.Rejected (accepts : TypecheckCode → α → Bool) (a : Args α) (m : Method)
    (later : List Method) : Prop :=
  emitNumArguments m.parms ≠ 0 ∧ ∃ j p tm, (walk 0 m.parms)[j]? = some p ∧ j < a.argc ∧
    p.tmap_typecheck = some tm ∧ m.Distinguished later j tm ∧ p.passes accepts (a.argv j) = false

/-- The code of the fast dispatcher reaches the call of the method. -/
def Method.FastReached (accepts : TypecheckCode → α → Bool) (a : Args α) (m : Method)
    (later : List Method) : Prop :=
  m.InRange false a.argc ∧ ¬m.Rejected accepts a later

theorem numRequired_le (compactdefargs : Bool) (skip : ℕ) (parms : List Parm) :
    numRequired compactdefargs skip parms ≤ numArguments skip parms := by
  fun_induction numArguments skip parms with
  | case1 => simp [numRequired]
  | case2 _ _ _ ih => simpa [numRequired] using ih
  | case3 p ps hin ih =>
      simp only [numRequired, hin]
      split
      · exact Nat.zero_le _
      · exact ih
  | case4 p ps tm hin ih =>
      simp only [numRequired, hin]
      split
      · omega
      · split <;> omega

theorem emitNumRequired_le (parms : List Parm) : emitNumRequired parms ≤ emitNumArguments parms :=
  numRequired_le _ 0 parms

/-- The collisions are the later methods that overlap. -/
theorem mem_collisions {m k : Method} {later : List Method} :
    k ∈ collisions m later ↔ k ∈ later ∧ m.Overlaps k := by
  have hm := emitNumRequired_le m.parms
  have hk := emitNumRequired_le k.parms
  simp only [collisions, List.mem_filter, decide_eq_true_eq, Method.Overlaps]
  refine and_congr_right fun _ => ?_
  omega

theorem emitcheck_iff {m : Method} {later : List Method} {j : ℕ} {tm : TypecheckCode} :
    emitcheck (collisions m later) j tm = true ↔ m.Distinguished later j tm := by
  simp only [emitcheck, List.any_eq_true, mem_collisions, Method.Distinguished, Bool.and_eq_true,
    Bool.not_eq_true', decide_eq_false_iff_not, Nat.not_le]
  constructor
  · rintro ⟨k, ⟨hk, hover⟩, hj, hcheck⟩
    cases hpl : (walk 0 k.parms)[j]? with
    | none => simp [hpl] at hcheck
    | some pl => exact ⟨k, hk, hover, hj, pl, hpl, by simpa [hpl] using hcheck⟩
  · rintro ⟨k, hk, hover, hj, pl, hpl, hcheck⟩
    exact ⟨k, ⟨hk, hover⟩, hj, by simpa [hpl] using hcheck⟩

/-- A method passes the checks that are kept unless it is rejected. -/
theorem keptChecks_pass_iff {m : Method} {later : List Method} (hargs : emitNumArguments m.parms ≠ 0) :
    (∀ k (_ : k < (walk 0 m.parms).length), k < a.argc →
      (keptCheck (collisions m later) k (walk 0 m.parms)[k]).all
        (fun tm => accepts tm (a.argv k)) = true) ↔ ¬m.Rejected accepts a later := by
  constructor
  · rintro hall ⟨-, j, p, tm, hp, hj, htm, hdist, hfail⟩
    obtain ⟨hlen, rfl⟩ := List.getElem?_eq_some_iff.mp hp
    have hpass := hall j hlen hj
    rw [keptCheck_some htm, if_pos (emitcheck_iff.mpr hdist)] at hpass
    simp [Parm.passes, Parm.typecheck, htm] at hfail hpass
    simp [hpass] at hfail
  · intro hnot k hlen hk
    cases htm : (walk 0 m.parms)[k].tmap_typecheck with
    | none => simp [keptCheck_none htm]
    | some tm =>
        rw [keptCheck_some htm]
        split
        · rename_i hemit
          by_contra hfail
          refine hnot ⟨hargs, k, _, tm, List.getElem?_eq_getElem hlen, hk, htm,
            emitcheck_iff.mp hemit, ?_⟩
          simpa [Parm.passes, Parm.typecheck, htm] using hfail
        · rfl

theorem printsCheck_of_kept {coll : List Method} {ps : List Parm} {k : ℕ} {p : Parm}
    (hp : ps[k]? = some p) (hkept : (keptCheck coll k p).isSome) : printsCheck coll ps = true := by
  rw [printsCheck, List.any_eq_true]
  refine ⟨(p, k), List.mk_mem_zipIdx_iff_getElem?.mpr hp, ?_⟩
  by_contra hno
  simp [keptCheck, hno] at hkept

open Classical in
theorem exec_fastMethod {i : ℕ} {m : Method} {later : List Method} {rest : Code} :
    exec (Test.holds accepts a) .running (fastMethod i m later ++ rest) =
      if m.FastReached accepts a later then some (m.call false)
      else exec (Test.holds accepts a) .running rest := by
  unfold fastMethod
  by_cases hrange : m.InRange false a.argc
  · refine (exec_enter_true (rangeTest_holds.trans (by simpa [Method.InRange] using hrange))).trans ?_
    by_cases htest : collisions m later ≠ [] ∧ emitNumArguments m.parms ≠ 0
    · have hchecks : exec (Test.holds accepts a) .running
          (fastChecks (emitNumRequired m.parms) i (collisions m later) 0 0 (walk 0 m.parms) ++
            .call (m.call false) :: .leave :: ((if printsCheck (collisions m later) (walk 0 m.parms)
              then [.label (i + 1)] else []) ++ rest)) =
          if ∀ k (_ : k < (walk 0 m.parms).length), 0 + k < a.argc →
              (keptCheck (collisions m later) (0 + k) (walk 0 m.parms)[k]).all
                (fun tm => accepts tm (a.argv (0 + k))) = true
          then some (m.call false) else exec (Test.holds accepts a) .running rest :=
        exec_fastChecks (by simpa using hrange.1) (by
          rintro ⟨k, p, hp, hkept⟩
          exact if_pos (printsCheck_of_kept hp (by simpa using hkept)))
      simp only [Nat.zero_add, keptChecks_pass_iff htest.2] at hchecks
      simpa [htest, Method.FastReached, hrange, Method.call] using hchecks
    · have hpass : ¬m.Rejected accepts a later := by
        rintro ⟨hargs, j, p, tm, -, -, -, ⟨k, hk, hover, -⟩, -⟩
        exact htest ⟨List.ne_nil_of_mem (mem_collisions.mpr ⟨hk, hover⟩), hargs⟩
      simp [htest, Method.FastReached, hrange, hpass, Method.call]
  · rw [if_neg fun h => hrange h.1]
    refine (exec_enter_false (rangeTest_holds.trans (by simpa [Method.InRange] using hrange))).trans ?_
    have hchecks (r : Code) : exec (Test.holds accepts a) (.skipping 0)
        ((if collisions m later ≠ [] ∧ emitNumArguments m.parms ≠ 0 then
          fastChecks (emitNumRequired m.parms) i (collisions m later) 0 0 (walk 0 m.parms)
        else []) ++ r) = exec (Test.holds accepts a) (.skipping 0) r := by
      split
      · exact exec_skip_fastChecks
      · rfl
    refine (congrArg _ (List.append_assoc _ _ rest)).trans ((hchecks _).trans ?_)
    show exec _ .running ((if _ then [Line.label (i + 1)] else []) ++ rest) = _
    split <;> rfl

/-- The first method that is reached, with the methods behind it. -/
inductive FirstReached (accepts : TypecheckCode → α → Bool) (a : Args α) :
    List Method → Method → Prop
  | here {m later} (h : m.FastReached accepts a later) : FirstReached accepts a (m :: later) m
  | there {e later m} (h : ¬e.FastReached accepts a later) (hm : FirstReached accepts a later m) :
      FirstReached accepts a (e :: later) m

theorem FirstReached.mem {methods : List Method} {m : Method}
    (h : FirstReached accepts a methods m) : m ∈ methods := by
  induction h with
  | here => exact List.mem_cons_self
  | there _ _ ih => exact List.mem_cons_of_mem _ ih

theorem exec_fastFrom {i : ℕ} {methods : List Method} {c : Call} :
    exec (Test.holds accepts a) .running (fastFrom i methods) = some c ↔
      ∃ m, FirstReached accepts a methods m ∧ m.call false = c := by
  induction methods generalizing i with
  | nil =>
      refine iff_of_false (by simp [fastFrom]) ?_
      rintro ⟨m, hm, -⟩
      cases hm
  | cons e later ih =>
      rw [fastFrom, exec_fastMethod]
      by_cases he : e.FastReached accepts a later
      · rw [if_pos he]
        constructor
        · rintro ⟨⟩
          exact ⟨e, .here he, rfl⟩
        · rintro ⟨m, hm, rfl⟩
          cases hm with
          | here => rfl
          | there hno => exact absurd he hno
      · rw [if_neg he, ih]
        refine exists_congr fun m => and_congr_left fun _ => ⟨.there he, fun hm => ?_⟩
        cases hm with
        | here h => exact absurd h he
        | there _ hm => exact hm

theorem run_swigOverloadDispatchFast {o : OverloadSet} {c : Call} :
    (swigOverloadDispatchFast o).run accepts a = some c ↔
      ∃ m, FirstReached accepts a o.methods m ∧ m.call false = c :=
  exec_fastFrom

theorem firstReached_append_iff {earlier later : List Method} {m : Method}
    (hnodup : (earlier ++ m :: later).Nodup) :
    FirstReached accepts a (earlier ++ m :: later) m ↔ m.FastReached accepts a later ∧
      ∀ e₁ e e₂, earlier = e₁ ++ e :: e₂ → ¬e.FastReached accepts a (e₂ ++ m :: later) := by
  induction earlier with
  | nil =>
      constructor
      · intro h
        cases h with
        | here h => exact ⟨h, fun e₁ e e₂ he => by simp at he⟩
        | there _ h => exact absurd h.mem (List.nodup_cons.mp hnodup).1
      · exact fun h => .here h.1
  | cons e earlier ih =>
      obtain ⟨hnot, hnodup⟩ := List.nodup_cons.mp hnodup
      have hne : e ≠ m := fun h => hnot (h ▸ List.mem_append_right _ List.mem_cons_self)
      have hsplit : FirstReached accepts a (e :: (earlier ++ m :: later)) m ↔
          ¬e.FastReached accepts a (earlier ++ m :: later) ∧
            FirstReached accepts a (earlier ++ m :: later) m := by
        constructor
        · intro h
          cases h with
          | here h => exact absurd rfl hne
          | there hno h => exact ⟨hno, h⟩
        · exact fun h => .there h.1 h.2
      rw [List.cons_append, hsplit, ih hnodup]
      constructor
      · rintro ⟨he, hm, hearlier⟩
        refine ⟨hm, fun e₁ x e₂ hx => ?_⟩
        cases e₁ with
        | nil =>
            obtain ⟨rfl, rfl⟩ := List.cons.inj hx
            exact he
        | cons y e₁ => exact hearlier e₁ x e₂ (List.cons.inj hx).2
      · rintro ⟨hm, hearlier⟩
        exact ⟨hearlier [] e earlier rfl, hm, fun e₁ x e₂ hx =>
          hearlier (e :: e₁) x e₂ (congrArg (e :: ·) hx)⟩

/-! ### The fast dispatcher against the plain one -/

/-- The method the plain dispatcher calls is called by the fast one. -/
def FastCallsSame (accepts : TypecheckCode → α → Bool) (o : OverloadSet) (a : Args α) : Prop :=
  ∀ c, (swigOverloadDispatch o).run accepts a = some c →
    ((swigOverloadDispatchFast o).run accepts a).map (·.wrap_name) = some c.wrap_name

theorem OverloadSet.methods_nodup (o : OverloadSet) : o.methods.Nodup := .of_map _ o.nodup

theorem OverloadSet.eq_of_wrap_name {o : OverloadSet} {m k : Method} (hm : m ∈ o.methods)
    (hk : k ∈ o.methods) (h : m.wrap_name = k.wrap_name) : m = k :=
  List.inj_on_of_nodup_map o.nodup hm hk h

/-- Without `wrap:this` a method that passes all its checks is not rejected. -/
theorem Method.Reached.fastReached {m : Method} {later : List Method}
    (h : m.Reached accepts false a) : m.FastReached accepts a later := by
  refine ⟨h.1, ?_⟩
  rintro ⟨-, j, p, tm, hp, hj, -, -, hfail⟩
  obtain ⟨hlen, rfl⟩ := List.getElem?_eq_some_iff.mp hp
  have hpass := h.2 j hlen hj
  simp [hfail] at hpass

/-- Where no method before the one called is reached by the fast dispatcher, and with
`wrap:this` the method itself is, both call the same one. -/
theorem fastCallsSame_of_reached {o : OverloadSet}
    (hcond : ∀ earlier m later, o.methods = earlier ++ m :: later →
      m.Reached accepts o.wrap_this a → (∀ e ∈ earlier, ¬e.Reached accepts o.wrap_this a) →
        (o.wrap_this = true → m.FastReached accepts a later) ∧
          ∀ e₁ e e₂, earlier = e₁ ++ e :: e₂ → ¬e.FastReached accepts a (e₂ ++ m :: later)) :
    FastCallsSame accepts o a := by
  intro c hc
  rw [run_swigOverloadDispatch] at hc
  obtain ⟨m, hfind, rfl⟩ := Option.map_eq_some_iff.mp hc
  obtain ⟨hm, earlier, later, hsplit, hearlier⟩ := List.find?_eq_some_iff_append.mp hfind
  have hm : m.Reached accepts o.wrap_this a := by simpa using hm
  obtain ⟨hthis, hnone⟩ := hcond earlier m later hsplit hm
    fun e he => by simpa using hearlier e he
  have hreached : m.FastReached accepts a later := by
    cases h : o.wrap_this with
    | true => exact hthis h
    | false => exact (h ▸ hm).fastReached
  have hnodup := o.methods_nodup
  rw [hsplit] at hnodup
  have hfirst := (firstReached_append_iff hnodup).mpr ⟨hreached, hnone⟩
  rw [← hsplit] at hfirst
  rw [run_swigOverloadDispatchFast.mpr ⟨m, hfirst, rfl⟩]
  rfl

/-- The method called is the same just if no method before it is reached by the
fast dispatcher: each one in range is rejected by a typecheck that distinguishes
it. With `wrap:this`, which the fast dispatcher does not look at, the method
itself has to be reached as well. -/
theorem fastCallsSame_iff (accepts : TypecheckCode → α → Bool) (o : OverloadSet) (a : Args α) :
    FastCallsSame accepts o a ↔
      ∀ earlier m later, o.methods = earlier ++ m :: later →
        m.Reached accepts o.wrap_this a → (∀ e ∈ earlier, ¬e.Reached accepts o.wrap_this a) →
          (o.wrap_this = true → m.FastReached accepts a later) ∧
            ∀ e₁ e e₂, earlier = e₁ ++ e :: e₂ →
              ¬e.FastReached accepts a (e₂ ++ m :: later) := by
  constructor
  · intro hsame earlier m later hsplit hm hearlier
    have hfind : (o.methods.find? fun m => decide (m.Reached accepts o.wrap_this a)) = some m := by
      rw [List.find?_eq_some_iff_append]
      exact ⟨by simpa using hm, earlier, later, hsplit, fun e he => by simpa using hearlier e he⟩
    have hrun := hsame (m.call o.wrap_this) (by rw [run_swigOverloadDispatch, hfind]; rfl)
    obtain ⟨c, hc, hname⟩ := Option.map_eq_some_iff.mp hrun
    obtain ⟨k, hk, rfl⟩ := run_swigOverloadDispatchFast.mp hc
    have hmem : m ∈ o.methods := by simp [hsplit]
    obtain rfl : k = m := OverloadSet.eq_of_wrap_name hk.mem hmem hname
    have hnodup := o.methods_nodup
    rw [hsplit] at hk hnodup
    obtain ⟨hreached, hnone⟩ := (firstReached_append_iff hnodup).mp hk
    exact ⟨fun _ => hreached, hnone⟩
  · exact fastCallsSame_of_reached

/-- Methods with the same typecheck typemap at a position check the same there. -/
def OverloadSet.SharesChecks (o : OverloadSet) : Prop :=
  ∀ m ∈ o.methods, ∀ k ∈ o.methods, ∀ (j : ℕ) (p q : Parm),
    (walk 0 m.parms)[j]? = some p → (walk 0 k.parms)[j]? = some q →
      p.tmap_typecheck = q.tmap_typecheck → p.typecheck = q.typecheck

/-- With no variable arguments, no `wrap:this` and no difference hidden in
`$implicitconv`, both dispatchers call the same method. -/
theorem fastCallsSame_of_fixed {o : OverloadSet} (hthis : o.wrap_this = false)
    (hfixed : ∀ m ∈ o.methods, emitIsvarargs m.parms = false) (hshares : o.SharesChecks) :
    FastCallsSame accepts o a := by
  refine fastCallsSame_of_reached ?_
  intro earlier m later hsplit hm hearlier
  have hmem : m ∈ o.methods := by simp [hsplit]
  rw [hthis] at hm hearlier ⊢
  refine ⟨fun h => (by cases h), fun e₁ e e₂ he hfast => ?_⟩
  have hemem : e ∈ o.methods := by simp [hsplit, he]
  have hrange := hfast.1
  have hcount {x : Method} (hx : x ∈ o.methods) (hin : x.InRange false a.argc) :
      emitNumRequired x.parms ≤ a.argc ∧ a.argc ≤ emitNumArguments x.parms := by
    simpa [Method.InRange, hfixed x hx] using hin
  have he_count := hcount hemem hrange
  have hm_count := hcount hmem hm.1
  -- the plain dispatcher did not call the earlier method, so a check failed
  obtain ⟨j, hlen, hj, hfail⟩ : ∃ j, ∃ hlen : j < (walk 0 e.parms).length, j < a.argc ∧
      (walk 0 e.parms)[j].passes accepts (a.argv j) = false := by
    have hno := hearlier e (by simp [he])
    simp only [Method.Reached, hrange, true_and, not_forall] at hno
    obtain ⟨j, hlen, hj, hno⟩ := hno
    exact ⟨j, hlen, hj, by simpa using hno⟩
  obtain ⟨tm, htm⟩ : ∃ tm, (walk 0 e.parms)[j].tmap_typecheck = some tm := by
    cases htm : (walk 0 e.parms)[j].tmap_typecheck with
    | none => simp [Parm.passes, Parm.typecheck, htm] at hfail
    | some tm => exact ⟨tm, rfl⟩
  refine hfast.2 ⟨by omega, j, _, tm, List.getElem?_eq_getElem hlen, hj, htm, ?_, hfail⟩
  have hmlen : j < (walk 0 m.parms).length := by
    obtain ⟨rest, hwalk⟩ := walk_eq m.mapped
    have hinputs := length_inputs m.parms
    rw [hwalk, List.length_append]
    have : (inputsFrom 0 m.parms).length = emitNumArguments m.parms := hinputs
    omega
  refine ⟨m, by simp, ⟨by omega, by omega⟩, by omega, _, List.getElem?_eq_getElem hmlen, ?_⟩
  intro hsame
  have hcheck := hshares e hemem m hmem j _ _ (List.getElem?_eq_getElem hlen)
    (List.getElem?_eq_getElem hmlen) (htm.trans hsame.symm)
  have hpass := hm.2 j hmlen hj
  simp only [Bool.false_eq_true, if_false, Nat.add_zero, Parm.passes, ← hcheck] at hpass
  simp [Parm.passes, hpass] at hfail

/-- A parameter with a typecheck of one symbol. -/
def checkedParm (c : Char) (emit_varargs : Bool) : Parm where
  tmap_in := some .single
  tmap_typecheck := some [.char c]
  tmap_default := false
  value := false
  implicitconv := none
  compactdefargs := false
  emit_varargs := emit_varargs

/-- The dots of a function with variable arguments. -/
def dots : Parm where
  tmap_in := none
  tmap_typecheck := none
  tmap_default := false
  value := false
  implicitconv := none
  compactdefargs := false
  emit_varargs := false

/-- `log(int level, ...)` and `log(char *, char *, char *)`. -/
def logMethods : OverloadSet where
  methods := [
    ⟨"log__SWIG_0", [checkedParm 'i' true, dots], rfl⟩,
    ⟨"log__SWIG_1", [checkedParm 's' false, checkedParm 's' false, checkedParm 's' false], trivial⟩]
  wrap_this := false
  nodup := by decide

/-- With three strings the plain dispatcher calls the second method. The fast one
sees no collision of three arguments with the declared one of the first method. -/
theorem logMethods_differ :
    (swigOverloadDispatch logMethods).run (fun tm x => decide (tm = [.char x])) ⟨3, fun _ => 's'⟩ =
        some ⟨"log__SWIG_1", 3⟩ ∧
      (swigOverloadDispatchFast logMethods).run (fun tm x => decide (tm = [.char x]))
        ⟨3, fun _ => 's'⟩ = some ⟨"log__SWIG_0", 1⟩ := by
  decide

end Swig.Modules
