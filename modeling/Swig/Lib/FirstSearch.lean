import Swig.Lib.Fuel
import Mathlib.Logic.Relation
import Mathlib.Data.Set.Finite.Basic

/-!
Depth first search for the first hit in a graph, without marks. The search asks
the successors of a node one after the other, each to the end, so it returns
from the nodes below which no cycle is asked through.
-/

namespace FirstSearch

open Fuel Relation

variable {α β : Type*}

/-- The first answer that is a hit. -/
def firstHit (f : α → Option (Option β)) : List α → Option (Option β)
  | [] => some none
  | a :: as =>
      (f a).bind fun r =>
        match r with
        | some b => some (some b)
        | none => firstHit f as

/-- The search, at most so many calls deep. -/
def search (hit : α → Option β) (succ : α → List α) : ℕ → α → Option (Option β)
  | 0, _ => none
  | n + 1, a =>
      match hit a with
      | some b => some (some b)
      | none => firstHit (search hit succ n) (succ a)

variable {hit : α → Option β} {succ : α → List α} {a b c : α} {n : ℕ}

/-- There is a hit somewhere behind the node. -/
def Leads (hit : α → Option β) (succ : α → List α) (a : α) : Prop :=
  ∃ b, ReflTransGen (fun x y => y ∈ succ x) a b ∧ (hit b).isSome

/-- The search from `a` asks its successor `c`: the ones before it lead nowhere. -/
def Asks (hit : α → Option β) (succ : α → List α) (a c : α) : Prop :=
  hit a = none ∧ ∃ before after, succ a = before ++ c :: after ∧ ∀ x ∈ before, ¬ Leads hit succ x

theorem Leads.of_hit (h : (hit a).isSome) : Leads hit succ a := ⟨a, .refl, h⟩

theorem Leads.of_succ (hb : b ∈ succ a) (h : Leads hit succ b) : Leads hit succ a := by
  obtain ⟨c, hbc, hc⟩ := h
  exact ⟨c, .head hb hbc, hc⟩

theorem leads_iff : Leads hit succ a ↔ (hit a).isSome ∨ ∃ b ∈ succ a, Leads hit succ b := by
  constructor
  · rintro ⟨c, hac, hc⟩
    rcases hac.cases_head with rfl | ⟨b, hb, hbc⟩
    · exact .inl hc
    · exact .inr ⟨b, hb, c, hbc, hc⟩
  · rintro (h | ⟨b, hb, h⟩)
    · exact .of_hit h
    · exact .of_succ hb h

/-- A node that asks another is no hit. -/
theorem not_asks_of_hit (h : (hit a).isSome) : ¬ Asks hit succ a c := by
  rintro ⟨hnone, -⟩
  rw [hnone] at h
  cases h

theorem search_of_hit {x : β} (h : hit a = some x) : search hit succ (n + 1) a = some (some x) := by
  rw [search, h]

theorem search_of_miss (h : hit a = none) : search hit succ (n + 1) a = firstHit (search hit succ n) (succ a) := by
  rw [search, h]

/-! ### What is returned -/

theorem firstHit_isSome_iff {f : α → Option (Option β)} {p : α → Prop} {as : List α} {r : Option β}
    (hf : ∀ a ∈ as, ∀ r, f a = some r → (r.isSome ↔ p a)) (h : firstHit f as = some r) :
    r.isSome ↔ ∃ a ∈ as, p a := by
  induction as with
  | nil =>
      cases h
      simp
  | cons a as ih =>
      obtain ⟨r', ha, hr⟩ := Option.bind_eq_some_iff.mp h
      have hp := hf a List.mem_cons_self r' ha
      rw [List.exists_mem_cons_iff]
      cases r' with
      | some b =>
          cases hr
          exact ⟨fun _ => .inl (hp.mp rfl), fun _ => rfl⟩
      | none =>
          have hna : ¬ p a := fun hpa => Bool.false_ne_true (hp.mpr hpa)
          rw [ih (fun b hb => hf b (List.mem_cons_of_mem _ hb)) hr, or_iff_right hna]

/-- A search that returns has a hit if there is one. -/
theorem search_isSome_iff {r : Option β} (h : search hit succ n a = some r) : r.isSome ↔ Leads hit succ a := by
  induction n generalizing a r with
  | zero => cases h
  | succ n ih =>
      cases hhit : hit a with
      | some b =>
          rw [search_of_hit hhit] at h
          cases h
          exact ⟨fun _ => .of_hit (Option.isSome_of_eq_some hhit), fun _ => rfl⟩
      | none =>
          rw [search_of_miss hhit] at h
          rw [firstHit_isSome_iff (fun b _ r hr => ih hr) h, leads_iff, hhit]
          simp

/-! ### Where it returns -/

/-- The nodes that are asked have to answer. -/
theorem firstHit_asks {before after : List α} {r : Option β}
    (hbefore : ∀ x ∈ before, ¬ Leads hit succ x)
    (h : firstHit (search hit succ n) (before ++ c :: after) = some r) : ∃ r, search hit succ n c = some r := by
  induction before with
  | nil =>
      obtain ⟨r', hc, -⟩ := Option.bind_eq_some_iff.mp h
      exact ⟨r', hc⟩
  | cons x before ih =>
      obtain ⟨r', hx, hr⟩ := Option.bind_eq_some_iff.mp h
      cases r' with
      | some b => exact absurd ((search_isSome_iff hx).mp rfl) (hbefore x List.mem_cons_self)
      | none => exact ih (fun y hy => hbefore y (List.mem_cons_of_mem _ hy)) hr

theorem acc_of_search {r : Option β} (h : search hit succ n a = some r) :
    Acc (fun c a => Asks hit succ a c) a := by
  induction n generalizing a r with
  | zero => cases h
  | succ n ih =>
      refine ⟨a, fun c hc => ?_⟩
      obtain ⟨hhit, before, after, hsucc, hbefore⟩ := hc
      rw [search_of_miss hhit, hsucc] at h
      obtain ⟨r', hc⟩ := firstHit_asks hbefore h
      exact ih hc

theorem firstHit_returns {before cs : List α} (hhit : hit a = none) (hsucc : succ a = before ++ cs)
    (hbefore : ∀ x ∈ before, ¬ Leads hit succ x)
    (hasks : ∀ c, Asks hit succ a c → ∃ r, Returns (fun n => search hit succ n c) r) :
    ∃ r, Returns (fun n => firstHit (search hit succ n) cs) r := by
  induction cs generalizing before with
  | nil => exact ⟨none, .const _⟩
  | cons c cs ih =>
      obtain ⟨r, hr⟩ := hasks c ⟨hhit, before, cs, hsucc, hbefore⟩
      cases r with
      | some b => exact ⟨some b, hr.bind (.const _)⟩
      | none =>
          have hc : ¬ Leads hit succ c := by
            obtain ⟨N, hN⟩ := hr
            intro hc
            exact Bool.false_ne_true ((search_isSome_iff (hN N le_rfl)).mpr hc)
          obtain ⟨r', hr'⟩ := ih (hsucc.trans (List.append_cons before c cs)) fun x hx => by
            rcases List.mem_append.mp hx with hx | hx
            · exact hbefore x hx
            · rw [List.mem_singleton.mp hx]
              exact hc
          exact ⟨r', hr.bind hr'⟩

theorem search_returns (h : Acc (fun c a => Asks hit succ a c) a) :
    ∃ r, Returns (fun n => search hit succ n a) r := by
  induction h with
  | intro a _ ih =>
      cases hhit : hit a with
      | some b => exact ⟨some b, .of_succ (.congr (.const _) fun n => search_of_hit hhit)⟩
      | none =>
          obtain ⟨r, hr⟩ := firstHit_returns hhit (List.nil_append _).symm (by simp) ih
          exact ⟨r, .of_succ (.congr hr fun n => search_of_miss hhit)⟩

/-- No cycle of questions is asked from `a` on. -/
def NoCycle (hit : α → Option β) (succ : α → List α) (a : α) : Prop :=
  ∀ b, ReflTransGen (Asks hit succ) a b → ¬ TransGen (Asks hit succ) b b

/-- A node from which every chain of steps ends is on no cycle. -/
theorem not_cycle_of_acc {r : α → α → Prop} (h : Acc (fun c a => r a c) a) : ¬ TransGen r a a := by
  rw [← transGen_swap]
  have htrans : Acc (TransGen (Function.swap r)) a := h.transGen
  induction htrans with
  | intro a _ ih => exact fun hcycle => ih a hcycle (h.inv_of_transGen hcycle) hcycle

theorem noCycle_of_acc (h : Acc (fun c a => Asks hit succ a c) a) : NoCycle hit succ a := by
  intro b hab
  apply not_cycle_of_acc
  induction hab with
  | refl => exact h
  | tail _ hbc ih => exact ih.inv hbc

/-- In a finite graph every chain of questions ends where no cycle is asked through. -/
theorem acc_of_noCycle {nodes : Finset α} (hnodes : ∀ x ∈ nodes, ∀ y ∈ succ x, y ∈ nodes) (ha : a ∈ nodes)
    (h : NoCycle hit succ a) : Acc (fun c a => Asks hit succ a c) a := by
  let asked : Type _ := {x : nodes // ReflTransGen (Asks hit succ) a x.1}
  let below (x y : asked) : Prop := TransGen (Asks hit succ) y.1.1 x.1.1
  have hwf : WellFounded below := by
    have : IsTrans asked below := ⟨fun _ _ _ h h' => TransGen.trans h' h⟩
    have : Std.Irrefl below := ⟨fun x => h x.1.1 x.2⟩
    exact Finite.wellFounded_of_trans_of_irrefl below
  have hacc (x : asked) : Acc (fun c a => Asks hit succ a c) x.1.1 := by
    induction x using hwf.induction with
    | _ x ih =>
        refine ⟨_, fun c hc => ?_⟩
        have hmem : c ∈ nodes := by
          obtain ⟨-, before, after, hsucc, -⟩ := hc
          exact hnodes x.1.1 x.1.2 c (hsucc ▸ List.mem_append_right _ List.mem_cons_self)
        exact ih ⟨⟨c, hmem⟩, x.2.tail hc⟩ (.single hc)
  exact hacc ⟨⟨a, ha⟩, .refl⟩

end FirstSearch
