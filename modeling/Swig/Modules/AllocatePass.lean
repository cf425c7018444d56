import Swig.Modules.AllocateFlags
import Mathlib.Data.Set.Insert
import Mathlib.Data.List.Induction

/-!
The Allocate pass over a whole hierarchy: what it marks, against what the bases of
a class allow.
-/

namespace Swig.Allocate

variable {C : Type} [DecidableEq C] {cls : C → Class C} {rank : C → ℕ}

/-- No class is among its own bases: the bases of a class have smaller ranks. -/
def Acyclic (cls : C → Class C) (rank : C → ℕ) : Prop := ∀ n, ∀ b ∈ (cls n).allbases, rank b < rank n

/-- The attributes a class gets when the classes `done` are finished before it. -/
def finalFlags (cls : C → Class C) (flags : C → Flags) (done : List C) (n : C) : Flags :=
  checkBases (cls n) ((cls n).allbases.map fun b => if b ∈ done then flags b else .none) (emit_children (cls n) .none)

/-- The classes `done` are finished in this order, those in `S` are begun. -/
structure Visiting (cls : C → Class C) (st : State C) (done : List C) (S : Set C) : Prop where
  visit : ∀ m, st.visit m = true ↔ m ∈ done ∨ m ∈ S
  begun : ∀ m ∈ S, m ∉ done
  untouched : ∀ m, m ∉ done → st.flags m = .none
  finished : ∀ l₁ m l₂, done = l₁ ++ m :: l₂ → st.flags m = finalFlags cls st.flags l₁ m
  nodup : done.Nodup

theorem finalFlags_congr {flags flags' : C → Flags} {done : List C} {n : C} (h : ∀ m ∈ done, flags' m = flags m) :
    finalFlags cls flags' done n = finalFlags cls flags done n := by
  have hmap : ((cls n).allbases.map fun b => if b ∈ done then flags' b else .none) =
      (cls n).allbases.map fun b => if b ∈ done then flags b else .none := by
    refine List.map_congr_left fun b _ => ?_
    split
    · exact h b ‹_›
    · rfl
  rw [finalFlags, finalFlags, hmap]

theorem State.finish_flags (st : State C) {n : C} (hself : n ∉ (cls n).allbases) : (st.finish cls n).flags =
    Function.update st.flags n
      (checkBases (cls n) ((cls n).allbases.map st.flags) (emit_children (cls n) (st.flags n))) := by
  have hmap : (cls n).allbases.map (Function.update st.flags n (emit_children (cls n) (st.flags n))) =
      (cls n).allbases.map st.flags :=
    List.map_congr_left fun b hb => Function.update_of_ne (ne_of_mem_of_not_mem hb hself) _ _
  rw [State.finish]
  dsimp only
  rw [hmap, Function.update_self, Function.update_idem]

theorem Visiting.begin {st : State C} {done : List C} {S : Set C} (h : Visiting cls st done S) {n : C}
    (hn : st.visit n = false) :
    Visiting cls { st with visit := Function.update st.visit n true } done (insert n S) where
  visit m := by
    by_cases hm : m = n
    · subst hm
      simp
    · show Function.update st.visit n true m = true ↔ _
      rw [Function.update_of_ne hm, h.visit, Set.mem_insert_iff, or_iff_right hm]
  begun m hm hdone := by
    rcases Set.mem_insert_iff.mp hm with rfl | hm
    · rw [(h.visit m).mpr (.inl hdone)] at hn
      cases hn
    · exact h.begun m hm hdone
  untouched := h.untouched
  finished := h.finished
  nodup := h.nodup

/-- The class begun last is finished. -/
theorem Visiting.finish {st : State C} {done : List C} {S : Set C} {n : C} (h : Visiting cls st done (insert n S))
    (hn : n ∉ S) (hself : n ∉ (cls n).allbases) : Visiting cls (st.finish cls n) (done ++ [n]) S where
  visit m := by
    show st.visit m = true ↔ _
    rw [h.visit, List.mem_append, List.mem_singleton, Set.mem_insert_iff, or_assoc]
  begun m hm hdone := by
    rcases List.mem_append.mp hdone with hdone | hdone
    · exact h.begun m (Set.mem_insert_of_mem _ hm) hdone
    · exact hn (List.mem_singleton.mp hdone ▸ hm)
  untouched m hm := by
    rw [List.mem_append, List.mem_singleton, not_or] at hm
    rw [st.finish_flags hself, Function.update_of_ne hm.2]
    exact h.untouched m hm.1
  finished l₁ m l₂ heq := by
    have hnew : n ∉ done := h.begun n (Set.mem_insert _ _)
    rw [st.finish_flags hself]
    rcases List.eq_nil_or_concat' l₂ with rfl | ⟨l₂, b, rfl⟩
    · -- the class just finished; an unfinished base has no attributes yet
      obtain ⟨rfl, hm⟩ := List.append_inj' heq rfl
      obtain rfl := (List.singleton_inj.mp hm).symm
      rw [Function.update_self, h.untouched m hnew, @finalFlags_congr _ _ _ st.flags]
      · have hmap : (cls m).allbases.map st.flags = (cls m).allbases.map fun b => if b ∈ done then st.flags b else .none :=
          List.map_congr_left fun b _ => by
            split
            · rfl
            · exact h.untouched b ‹_›
        rw [hmap, finalFlags]
      · exact fun b hb => Function.update_of_ne (ne_of_mem_of_not_mem hb hnew) _ _
    · rw [← List.cons_append, ← List.append_assoc] at heq
      obtain ⟨rfl, -⟩ := List.append_inj' heq rfl
      have hm : m ≠ n := fun hm => hnew (hm ▸ List.mem_append_right _ List.mem_cons_self)
      rw [Function.update_of_ne hm, h.finished l₁ m l₂ rfl]
      exact (finalFlags_congr fun b hb =>
        Function.update_of_ne (ne_of_mem_of_not_mem (List.mem_append_left _ hb) hnew) _ _).symm
  nodup := by
    have hnew : n ∉ done := h.begun n (Set.mem_insert _ _)
    exact List.nodup_append.mpr ⟨h.nodup, by simp, fun a ha b hb => by
      rintro rfl
      exact hnew (List.mem_singleton.mp hb ▸ ha)⟩

/-- The call for one class, beside the order of the visits. -/
def Visits (cls : C → Class C) (fuel : ℕ) (S : Set C) (n : C) : Prop :=
  ∀ st done, Visiting cls st done S → ∃ st' done', State.classDeclaration cls fuel st n = some st' ∧
    visitClass cls fuel done n = some done' ∧ Visiting cls st' done' S ∧ done <+: done' ∧ n ∈ done'

theorem visits_list {fuel : ℕ} {S : Set C} {ns : List C} (hns : ∀ n ∈ ns, Visits cls fuel S n) {st : State C}
    {done : List C} (h : Visiting cls st done S) :
    ∃ st' done', ns.foldlM (State.classDeclaration cls fuel) st = some st' ∧
      ns.foldlM (visitClass cls fuel) done = some done' ∧ Visiting cls st' done' S ∧ done <+: done' ∧
      ∀ n ∈ ns, n ∈ done' := by
  induction ns generalizing st done with
  | nil => exact ⟨st, done, rfl, rfl, h, List.prefix_rfl, nofun⟩
  | cons n ns ih =>
      obtain ⟨hn, hns⟩ := List.forall_mem_cons.mp hns
      obtain ⟨st₁, done₁, hst₁, hdone₁, h₁, hpre₁, hmem⟩ := hn st done h
      obtain ⟨st₂, done₂, hst₂, hdone₂, h₂, hpre₂, hall⟩ := ih hns h₁
      refine ⟨st₂, done₂, ?_, ?_, h₂, hpre₁.trans hpre₂, List.forall_mem_cons.mpr ⟨hpre₂.subset hmem, hall⟩⟩
      · rw [List.foldlM_cons, hst₁]
        exact hst₂
      · rw [List.foldlM_cons, hdone₁]
        exact hdone₂

/-- A class whose rank is below the ranks of the classes begun is finished. -/
theorem visits_of_rank (hacyclic : Acyclic cls rank) {fuel : ℕ} {S : Set C} {n : C} (hfuel : rank n < fuel)
    (hS : ∀ m ∈ S, rank n < rank m) : Visits cls fuel S n := by
  induction fuel generalizing S n with
  | zero => omega
  | succ fuel ih =>
      intro st done h
      have hnS : n ∉ S := fun hmem => Nat.lt_irrefl _ (hS n hmem)
      have hself : n ∉ (cls n).allbases := fun hmem => Nat.lt_irrefl _ (hacyclic n n hmem)
      rw [State.classDeclaration, visitClass]
      cases hvisit : st.visit n with
      | true =>
          have hdone : n ∈ done := ((h.visit n).mp hvisit).resolve_right hnS
          rw [if_pos rfl, if_pos hdone]
          exact ⟨st, done, rfl, rfl, h, List.prefix_rfl, hdone⟩
      | false =>
          have hdone : n ∉ done := fun hmem => by
            rw [(h.visit n).mpr (.inl hmem)] at hvisit
            cases hvisit
          have hbases : ∀ b ∈ (cls n).bases, Visits cls fuel (insert n S) b := by
            intro b hb
            have hlt : rank b < rank n := hacyclic n b (List.mem_append_left _ (List.mem_append_left _ hb))
            refine ih (by omega) fun m hm => ?_
            rcases Set.mem_insert_iff.mp hm with rfl | hm
            · exact hlt
            · exact Nat.lt_trans hlt (hS m hm)
          obtain ⟨st', done', hst', hdone', h', hpre, -⟩ := visits_list hbases (h.begin hvisit)
          rw [if_neg (by simp), if_neg hdone]
          dsimp only
          rw [hst', hdone']
          exact ⟨st'.finish cls n, done' ++ [n], rfl, rfl, h'.finish hnS hself,
            hpre.trans (List.prefix_append _ _), List.mem_append_right _ (List.mem_singleton_self n)⟩

theorem visiting_initial : Visiting cls .initial [] ∅ where
  visit m := by simp [State.initial]
  begun m hm := absurd hm (Set.notMem_empty m)
  untouched m _ := rfl
  finished l₁ m l₂ heq := absurd heq (by simp)
  nodup := List.nodup_nil

/-- The whole pass. -/
theorem top_visiting (hacyclic : Acyclic cls rank) {tree : List C} {fuel : ℕ} (hfuel : ∀ n ∈ tree, rank n < fuel) :
    ∃ st order, State.top cls fuel tree = some st ∧ visitOrder cls fuel tree = some order ∧
      Visiting cls st order ∅ ∧ ∀ n ∈ tree, n ∈ order := by
  obtain ⟨st, order, hst, horder, h, -, hmem⟩ :=
    visits_list (fun n hn => visits_of_rank hacyclic (hfuel n hn) fun m hm => absurd hm (Set.notMem_empty m))
      (visiting_initial : Visiting cls .initial [] ∅)
  exact ⟨st, order, hst, horder, h, hmem⟩

/-! ### What the bases allow -/

/-- The class lets a derived class use the special member: its own, public or
protected, or the implicit one. -/
inductive Allows (cls : C → Class C) (k : Special) : C → Prop
  | own {n : C} {a : Access} (ha : a ≠ .PRIVATE) (h : hasMember (cls n).declared k a) : Allows cls k n
  | implicit {n : C} (hnone : declares (cls n).declared k = false) (h : ∀ b ∈ (cls n).allbases, Allows cls k b) :
      Allows cls k n

/-- The class has an implicit member. -/
def HasImplicit (cls : C → Class C) (k : Special) (n : C) : Prop :=
  (k.isConstructor → (cls n).abstract = false) ∧ ∀ b ∈ (cls n).allbases, Allows cls k b

/-- The class, or one of its bases, does not allow the operator. -/
inductive Hides (cls : C → Class C) (op : Operator) : C → Prop
  | own {n : C} (h : hidesOperator (cls n).declared op) : Hides cls op n
  | inherited {n b : C} (hnone : declaresOperator (cls n).declared op = false) (hb : b ∈ (cls n).allbases)
      (h : Hides cls op b) : Hides cls op n

/-- A base not finished in time, at the class or below it through implicit members. -/
inductive Late (cls : C → Class C) (order : List C) (k : Special) : C → Prop
  | here {n b : C} (hnone : declares (cls n).declared k = false) (hb : b ∈ (cls n).allbases)
      (h : ¬ Before order b n) : Late cls order k n
  | base {n b : C} (hnone : declares (cls n).declared k = false) (hb : b ∈ (cls n).allbases)
      (h : Late cls order k b) : Late cls order k n

/-- The last of the bases finished in time that declares the operator hides it. -/
def LastHides (cls : C → Class C) (order : List C) (op : Operator) (n : C) : Prop :=
  ∃ b ∈ ((cls n).allbases.filter fun b => Before order b n && declaresOperator (cls b).declared op).getLast?,
    hidesOperator (cls b).declared op

/-- The attributes at the end, of the classes in the order of the visits. -/
def Final (cls : C → Class C) (order : List C) (flags : C → Flags) : Prop :=
  ∀ n ∈ order, flags n = finalFlags cls flags (order.takeWhile (· ≠ n)) n

theorem Visiting.final {st : State C} {order : List C} (h : Visiting cls st order ∅) : Final cls order st.flags := by
  intro n hn
  obtain ⟨l₁, l₂, rfl⟩ := List.append_of_mem hn
  have hl₁ : ∀ m ∈ l₁, m ≠ n := by
    rintro m hm rfl
    exact (List.nodup_append.mp h.nodup).2.2 m hm m List.mem_cons_self rfl
  rw [h.finished l₁ n l₂ rfl, List.takeWhile_append_of_pos (by simpa using hl₁), List.takeWhile_cons_of_neg (by simp),
    List.append_nil]

theorem mem_of_before {order : List C} {b n : C} (h : Before order b n) : b ∈ order :=
  (List.takeWhile_prefix _).subset h

theorem allowsAfter_eq (has no : Flags → Bool) (bases : List Flags) :
    allowsAfter has no bases = !(bases.filter has).getLast?.any no := by
  induction bases using List.reverseRecOn with
  | nil => rfl
  | append_singleton bases b ih =>
      rw [allowsAfter, List.foldl_append, ← allowsAfter, ih, List.filter_append]
      cases hb : has b with
      | true => simp [hb]
      | false => simp [hb]

section Final

variable {order : List C} {flags : C → Flags} (hfinal : Final cls order flags)

include hfinal

theorem Final.marked {n : C} (hn : n ∈ order) (k : Special) : (flags n).marked k =
    if declares (cls n).declared k then hasMember (cls n).declared k .PUBLIC
    else (cls n).allbases.all fun b => Before order b n && (flags b).allows k := by
  rw [hfinal n hn, finalFlags, checkBases_marked _ _ (adds_emit_children _), List.all_map]
  congr 1
  refine List.all_congr rfl fun b => ?_
  show (if Before order b n then flags b else Flags.none).allows k = _
  by_cases hb : Before order b n
  · rw [if_pos hb, decide_eq_true hb, Bool.true_and]
  · rw [if_neg hb, decide_eq_false hb, Bool.false_and]
    cases k <;> rfl

theorem Final.markedBase {n : C} (hn : n ∈ order) (k : Special) :
    (flags n).markedBase k = hasMember (cls n).declared k .PROTECTED := by
  rw [hfinal n hn, finalFlags, checkBases_markedBase _ _ (adds_emit_children _)]

theorem Final.hasOperator {n : C} (hn : n ∈ order) (op : Operator) :
    (flags n).hasOperator op = declaresOperator (cls n).declared op := by
  rw [hfinal n hn, finalFlags, checkBases_hasOperator _ _ (adds_emit_children _)]

theorem Final.notAllowed_of_declares {n : C} (hn : n ∈ order) {op : Operator}
    (hop : declaresOperator (cls n).declared op) : (flags n).notAllowed op = hidesOperator (cls n).declared op := by
  rw [hfinal n hn, finalFlags, checkBases_notAllowed _ _ (adds_emit_children _), if_pos hop]

/-- A special member is allowed where the bases allow it and none of them was late. -/
theorem Final.allows_iff (hacyclic : Acyclic cls rank) (k : Special) {n : C} (hn : n ∈ order) :
    (flags n).allows k ↔ Allows cls k n ∧ ¬ Late cls order k n := by
  induction hrank : rank n using Nat.strong_induction_on generalizing n with
  | _ r ih =>
      rw [Flags.allows, hfinal.marked hn, hfinal.markedBase hn]
      by_cases hd : declares (cls n).declared k
      · have hlate : ¬ Late cls order k n := by
          rintro (⟨hnone, -, -⟩ | ⟨hnone, -, -⟩) <;> rw [hd] at hnone <;> cases hnone
        rw [if_pos hd, and_iff_left hlate, Bool.or_eq_true]
        constructor
        · rintro (h | h)
          · exact .own (by decide) h
          · exact .own (by decide) h
        · rintro (⟨ha, h⟩ | ⟨hnone, -⟩)
          · rename_i a
            cases a with
            | PUBLIC => exact .inl h
            | PROTECTED => exact .inr h
            | PRIVATE => exact absurd rfl ha
          · rw [hd] at hnone
            cases hnone
      · have hnone : declares (cls n).declared k = false := Bool.of_not_eq_true hd
        have hown (a : Access) : hasMember (cls n).declared k a = false := by
          by_contra h
          exact hd (declares_of_hasMember (Bool.of_not_eq_false h))
        rw [if_neg hd, hown, Bool.or_false, List.all_eq_true]
        have hbase (b : C) (hb : b ∈ (cls n).allbases) : (Before order b n && (flags b).allows k) = true ↔
            Before order b n ∧ Allows cls k b ∧ ¬ Late cls order k b := by
          rw [Bool.and_eq_true, decide_eq_true_eq]
          exact and_congr_right fun hbefore => ih _ (hrank ▸ hacyclic n b hb) (mem_of_before hbefore) rfl
        constructor
        · intro h
          have h (b : C) (hb : b ∈ (cls n).allbases) := (hbase b hb).mp (h b hb)
          refine ⟨.implicit hnone fun b hb => (h b hb).2.1, ?_⟩
          rintro (⟨-, hb, hnot⟩ | ⟨-, hb, hlate⟩)
          · exact hnot (h _ hb).1
          · exact (h _ hb).2.2 hlate
        · rintro ⟨hallows, hlate⟩ b hb
          refine (hbase b hb).mpr ⟨?_, ?_, fun h => hlate (.base hnone hb h)⟩
          · by_contra h
            exact hlate (.here hnone hb h)
          · rcases hallows with ⟨-, h⟩ | ⟨-, h⟩
            · rw [hown] at h
              cases h
            · exact h b hb

/-- The mark of a special member the class does not declare. -/
theorem Final.marked_iff (hacyclic : Acyclic cls rank) {k : Special} {n : C} (hn : n ∈ order)
    (hnone : declares (cls n).declared k = false) :
    (flags n).marked k ↔ (∀ b ∈ (cls n).allbases, Allows cls k b) ∧ ¬ Late cls order k n := by
  have hown (a : Access) : hasMember (cls n).declared k a = false := by
    by_contra h
    rw [declares_of_hasMember (Bool.of_not_eq_false h)] at hnone
    cases hnone
  have hbases : Allows cls k n ↔ ∀ b ∈ (cls n).allbases, Allows cls k b := by
    refine ⟨?_, .implicit hnone⟩
    rintro (⟨-, h⟩ | ⟨-, h⟩)
    · rw [hown] at h
      cases h
    · exact h
  rw [← hbases, ← hfinal.allows_iff hacyclic k hn, Flags.allows, hfinal.markedBase hn, hown, Bool.or_false]

/-- The mark of an operator the class does not declare. -/
theorem Final.notAllowed_iff {op : Operator} {n : C} (hn : n ∈ order)
    (hnone : declaresOperator (cls n).declared op = false) :
    (flags n).notAllowed op ↔ LastHides cls order op n := by
  have hat (b : C) : (if b ∈ order.takeWhile (· ≠ n) then flags b else .none).hasOperator op =
      (Before order b n && declaresOperator (cls b).declared op) := by
    show (if Before order b n then flags b else Flags.none).hasOperator op = _
    by_cases hb : Before order b n
    · rw [if_pos hb, decide_eq_true hb, Bool.true_and, hfinal.hasOperator (mem_of_before hb)]
    · rw [if_neg hb, decide_eq_false hb, Bool.false_and]
      cases op <;> rfl
  have hfilter : (fun fl : Flags => fl.hasOperator op) ∘ (fun b => if b ∈ order.takeWhile (· ≠ n) then flags b else .none) =
      fun b => Before order b n && declaresOperator (cls b).declared op := funext hat
  rw [hfinal n hn, finalFlags, checkBases_notAllowed _ _ (adds_emit_children _), if_neg (by simp [hnone]),
    allowsAfter_eq, Bool.not_not, List.filter_map, hfilter, List.getLast?_map, LastHides]
  cases hlast : ((cls n).allbases.filter fun b => Before order b n && declaresOperator (cls b).declared op).getLast? with
  | none => simp
  | some b =>
      have hb := (List.mem_filter.mp (List.mem_of_getLast? hlast)).2
      rw [Bool.and_eq_true, decide_eq_true_eq] at hb
      have hflags : (if b ∈ order.takeWhile (· ≠ n) then flags b else .none) = flags b := if_pos hb.1
      rw [Option.map_some, Option.any_some, hflags, hfinal.notAllowed_of_declares (mem_of_before hb.1) hb.2]
      simp

end Final

/-- After the pass over the classes of a parse tree: an implicit member is marked as
the bases allow it exactly where, if all of them do, the class is abstract just when
one of the bases it depends on is finished too late; an operator is not allowed just
when the last base that declares it hides it. -/
theorem allocate_iff (hacyclic : Acyclic cls rank) {tree : List C} {fuel : ℕ} (hfuel : ∀ n ∈ tree, rank n < fuel) :
    ∃ st order, State.top cls fuel tree = some st ∧ visitOrder cls fuel tree = some order ∧
      (∀ n ∈ tree, n ∈ order) ∧ ∀ n ∈ order,
      (∀ k : Special, declares (cls n).declared k = false →
        (((st.flags n).marked k ↔ HasImplicit cls k n) ↔
          ((∀ b ∈ (cls n).allbases, Allows cls k b) →
            (Late cls order k n ↔ k.isConstructor ∧ (cls n).abstract)))) ∧
      ∀ op : Operator, declaresOperator (cls n).declared op = false →
        (((st.flags n).notAllowed op ↔ ∃ b ∈ (cls n).allbases, Hides cls op b) ↔
          ((∃ b ∈ (cls n).allbases, Hides cls op b) → LastHides cls order op n)) := by
  obtain ⟨st, order, hst, horder, hvisiting, htree⟩ := top_visiting hacyclic hfuel
  have hfinal := hvisiting.final
  refine ⟨st, order, hst, horder, htree, fun n hn => ⟨fun k hnone => ?_, fun op hnone => ?_⟩⟩
  · have habstract : (k.isConstructor = true → (cls n).abstract = false) ↔
        ¬ (k.isConstructor = true ∧ (cls n).abstract = true) := by
      rw [not_and, Bool.not_eq_true]
    rw [hfinal.marked_iff hacyclic hn hnone, HasImplicit, habstract]
    by_cases hall : ∀ b ∈ (cls n).allbases, Allows cls k b
    · rw [and_iff_right hall, and_iff_left hall, not_iff_not]
      exact ⟨fun h _ => h, fun h => h hall⟩
    · exact iff_of_true (iff_of_false (fun h => hall h.1) fun h => hall h.2) fun h => absurd h hall
  · rw [hfinal.notAllowed_iff hn hnone]
    have hhides : LastHides cls order op n → ∃ b ∈ (cls n).allbases, Hides cls op b := by
      rintro ⟨b, hb, h⟩
      exact ⟨b, List.mem_of_mem_filter (List.mem_of_getLast? hb), .own h⟩
    exact ⟨fun h => h.mpr, fun h => ⟨hhides, h⟩⟩

/-- Class 0 has a private `operator =` and struct 1 a public one, both are bases of
struct 2; struct 3 is abstract and declares nothing, struct 4 is derived from 2. -/
def samples : ℕ → Class ℕ
  | 0 => ⟨true, [.cDeclaration "operator ="], [], [], [], false⟩
  | 1 => ⟨false, [.cDeclaration "operator ="], [], [], [], false⟩
  | 2 => ⟨false, [], [0, 1], [], [], false⟩
  | 3 => ⟨false, [], [], [], [], true⟩
  | 4 => ⟨false, [], [2], [], [], false⟩
  | _ => ⟨false, [], [], [], [], false⟩

theorem samples_acyclic : Acyclic samples id := by
  intro n b hb
  match n with
  | 0 | 1 | 3 => cases hb
  | 2 =>
      have hb : b ∈ [0, 1] := hb
      simp only [List.mem_cons, List.not_mem_nil, or_false] at hb
      simp only [id]
      omega
  | 4 =>
      have hb : b ∈ [2] := hb
      simp only [List.mem_singleton] at hb
      simp only [id]
      omega
  | _ + 5 => cases hb

/-- The pass over the samples marks a destructor of struct 4. -/
theorem samples_allocate : ∃ st order, State.top samples 5 [0, 1, 2, 3, 4] = some st ∧
    visitOrder samples 5 [0, 1, 2, 3, 4] = some order ∧
    (((st.flags 4).marked .destructor ↔ HasImplicit samples .destructor 4) ↔
      ((∀ b ∈ (samples 4).allbases, Allows samples .destructor b) →
        (Late samples order .destructor 4 ↔ Special.destructor.isConstructor ∧ (samples 4).abstract))) := by
  obtain ⟨st, order, hst, horder, htree, hclasses⟩ := @allocate_iff _ _ _ _ samples_acyclic [0, 1, 2, 3, 4] 5
    (by decide)
  exact ⟨st, order, hst, horder, (hclasses 4 (htree 4 (by decide))).1 .destructor rfl⟩

/-- The abstract struct 3 is marked as having a default constructor; struct 2 is not
marked although its base 0 hides the operator. -/
theorem not_marked_as_allowed :
    (¬ ∀ (cls : ℕ → Class ℕ) (rank : ℕ → ℕ), Acyclic cls rank → ∀ (tree : List ℕ) (fuel : ℕ) (st : State ℕ),
      State.top cls fuel tree = some st → ∀ n ∈ tree, ∀ k : Special, declares (cls n).declared k = false →
        ((st.flags n).marked k ↔ HasImplicit cls k n)) ∧
    ¬ ∀ (cls : ℕ → Class ℕ) (rank : ℕ → ℕ), Acyclic cls rank → ∀ (tree : List ℕ) (fuel : ℕ) (st : State ℕ),
      State.top cls fuel tree = some st → ∀ n ∈ tree, ∀ op : Operator,
        declaresOperator (cls n).declared op = false →
        ((st.flags n).notAllowed op ↔ ∃ b ∈ (cls n).allbases, Hides cls op b) := by
  refine ⟨fun h => ?_, fun h => ?_⟩
  · have hmarked := h samples id samples_acyclic [3] 1 _ rfl 3 (by decide) .defaultConstructor rfl
    exact absurd ((hmarked.mp rfl).1 rfl) (by decide)
  · have hnot := h samples id samples_acyclic [0, 1, 2] 3 _ rfl 2 (by decide) .assign rfl
    exact absurd (hnot.mpr ⟨0, by decide, .own (by decide)⟩) (by decide)

end Swig.Allocate
