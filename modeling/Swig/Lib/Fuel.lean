import Mathlib.Data.Nat.Notation
import Mathlib.Tactic.Common

/-!
Functions that take the number of rounds a loop is allowed.

`f n = none` says that `n` rounds were not enough. A loop with an end does not
notice a larger allowance: once it returns, it returns the same from then on.
-/

namespace Fuel

variable {α β σ ι : Type*}

/-- More rounds do not change what was returned. -/
def Mono (f : ℕ → Option α) : Prop := ∀ n m a, n ≤ m → f n = some a → f m = some a

/-- `f` returns `a` whenever it is allowed enough rounds. -/
def Returns (f : ℕ → Option α) (a : α) : Prop := ∃ N, ∀ n, N ≤ n → f n = some a

theorem Mono.const (o : Option α) : Mono fun _ => o := fun _ _ _ _ h => h

theorem Mono.bind {f : ℕ → Option α} {g : α → ℕ → Option β} (hf : Mono f)
    (hg : ∀ a, Mono (g a)) : Mono fun n => (f n).bind fun a => g a n := by
  intro n m b hnm h
  obtain ⟨a, ha, hb⟩ := Option.bind_eq_some_iff.mp h
  exact Option.bind_eq_some_iff.mpr ⟨a, hf n m a hnm ha, hg a n m b hnm hb⟩

theorem Mono.map {f : ℕ → Option α} (hf : Mono f) (g : α → β) : Mono fun n => (f n).map g := by
  intro n m b hnm h
  obtain ⟨a, ha, hb⟩ := Option.map_eq_some_iff.mp h
  exact Option.map_eq_some_iff.mpr ⟨a, hf n m a hnm ha, hb⟩

theorem Mono.ite {c : Prop} [Decidable c] {f g : ℕ → Option α} (hf : Mono f) (hg : Mono g) :
    Mono fun n => if c then f n else g n := by
  by_cases hc : c
  · simpa only [if_pos hc] using hf
  · simpa only [if_neg hc] using hg

theorem Mono.foldlM {f : ℕ → σ → ι → Option σ} (hf : ∀ s i, Mono fun n => f n s i)
    (is : List ι) (s : σ) : Mono fun n => is.foldlM (f n) s := by
  induction is generalizing s with
  | nil => exact .const _
  | cons i is ih =>
      simp only [List.foldlM_cons]
      exact (hf s i).bind ih

theorem Mono.mapM {f : ℕ → ι → Option β} (hf : ∀ i, Mono fun n => f n i) (is : List ι) :
    Mono fun n => is.mapM (f n) := by
  induction is with
  | nil => exact .const _
  | cons i is ih =>
      simp only [List.mapM_cons]
      exact (hf i).bind fun b => ih.bind fun bs => .const _

theorem Returns.const (a : α) : Returns (fun _ => some a) a := ⟨0, fun _ _ => rfl⟩

theorem Returns.bind {f : ℕ → Option α} {g : α → ℕ → Option β} {a : α} {b : β}
    (hf : Returns f a) (hg : Returns (g a) b) :
    Returns (fun n => (f n).bind fun a => g a n) b := by
  obtain ⟨N, hN⟩ := hf
  obtain ⟨K, hK⟩ := hg
  refine ⟨N + K, fun n hn => ?_⟩
  show (f n).bind (fun a => g a n) = some b
  rw [hN n (by omega), Option.bind_some, hK n (by omega)]

theorem Returns.map {f : ℕ → Option α} {a : α} (hf : Returns f a) (g : α → β) :
    Returns (fun n => (f n).map g) (g a) := by
  obtain ⟨N, hN⟩ := hf
  refine ⟨N, fun n hn => ?_⟩
  show (f n).map g = some (g a)
  rw [hN n hn, Option.map_some]

theorem Returns.congr {f g : ℕ → Option α} {a : α} (hf : Returns f a) (hfg : ∀ n, g n = f n) :
    Returns g a := by
  obtain ⟨N, hN⟩ := hf
  exact ⟨N, fun n hn => (hfg n).trans (hN n hn)⟩

theorem Returns.unique {f : ℕ → Option α} {a b : α} (ha : Returns f a) (hb : Returns f b) : a = b := by
  obtain ⟨N, hN⟩ := ha
  obtain ⟨K, hK⟩ := hb
  exact Option.some.inj ((hN (N + K) (by omega)).symm.trans (hK (N + K) (by omega)))

/-- The first round apart. -/
theorem Returns.of_succ {f : ℕ → Option α} {a : α} (hf : Returns (fun n => f (n + 1)) a) : Returns f a := by
  obtain ⟨N, hN⟩ := hf
  refine ⟨N + 1, fun n hn => ?_⟩
  obtain ⟨k, rfl⟩ := Nat.exists_eq_add_of_le' (Nat.one_le_of_lt (Nat.lt_of_succ_le hn))
  exact hN k (by omega)

theorem returns_succ_iff {f : ℕ → Option α} {a : α} : Returns (fun n => f (n + 1)) a ↔ Returns f a := by
  refine ⟨Returns.of_succ, fun hf => ?_⟩
  obtain ⟨N, hN⟩ := hf
  exact ⟨N, fun n hn => hN (n + 1) (by omega)⟩

/-- What a loop returns from what its other rounds return. -/
theorem returns_map_iff {f : ℕ → Option α} {g : α → β} (hg : Function.Injective g) {b : β} :
    Returns (fun n => (f n).map g) b ↔ ∃ a, b = g a ∧ Returns f a := by
  constructor
  · rintro ⟨N, hN⟩
    obtain ⟨a, -, rfl⟩ := Option.map_eq_some_iff.mp (hN N (Nat.le_refl N))
    refine ⟨a, rfl, N, fun n hn => ?_⟩
    obtain ⟨a', ha', heq⟩ := Option.map_eq_some_iff.mp (hN n hn)
    rw [ha', hg heq]
  · rintro ⟨a, rfl, hf⟩
    exact hf.map g

theorem returns_congr_iff {f g : ℕ → Option α} (hfg : ∀ n, g n = f n) {a : α} : Returns g a ↔ Returns f a :=
  ⟨fun h => h.congr fun n => (hfg n).symm, fun h => h.congr hfg⟩

/-- What a run with some allowance returned is what all long enough runs return. -/
theorem Mono.eq_of_returns {f : ℕ → Option α} (hf : Mono f) {a b : α} {n : ℕ}
    (h : f n = some b) (hr : Returns f a) : b = a := by
  obtain ⟨N, hN⟩ := hr
  have h₁ := hf n (N + n) b (by omega) h
  exact Option.some.inj (h₁.symm.trans (hN (N + n) (by omega)))

/-- A loop over a list whose rounds each return and keep an invariant `P`,
where `P k` holds before round `k`. -/
theorem foldlM_returns {f : ℕ → σ → ι → Option σ} (P : ℕ → σ → Prop) (is : List ι) {s : σ}
    (k : ℕ) (hs : P k s)
    (hstep : ∀ (l : ℕ) (i : ι) (t : σ), is[l]? = some i → P (k + l) t →
      ∃ t', Returns (fun n => f n t i) t' ∧ P (k + l + 1) t') :
    ∃ s', Returns (fun n => is.foldlM (f n) s) s' ∧ P (k + is.length) s' := by
  induction is generalizing s k with
  | nil => exact ⟨s, .const s, hs⟩
  | cons i is ih =>
      obtain ⟨t, ht, hPt⟩ := hstep 0 i s rfl hs
      obtain ⟨s', hs', hP⟩ := ih (k + 1) hPt fun l i' t' hi hP' => by
        have := hstep (l + 1) i' t' hi
        rw [show k + (l + 1) = k + 1 + l by omega] at this
        exact this hP'
      refine ⟨s', ht.bind hs', ?_⟩
      rw [List.length_cons, show k + (is.length + 1) = k + 1 + is.length by omega]
      exact hP

/-- A loop whose rounds keep a property of the rounds done and the state. -/
theorem foldlM_of_step {f : σ → ι → Option σ} (P : List ι → σ → Prop) {is done : List ι} {s : σ}
    (hs : P done s)
    (hstep : ∀ done i s, i ∈ is → P done s → ∃ s', f s i = some s' ∧ P (done ++ [i]) s') :
    ∃ s', is.foldlM f s = some s' ∧ P (done ++ is) s' := by
  induction is generalizing s done with
  | nil => exact ⟨s, rfl, by rwa [List.append_nil]⟩
  | cons i is ih =>
      obtain ⟨t, ht, hPt⟩ := hstep done i s List.mem_cons_self hs
      obtain ⟨s', hs', hP⟩ := ih hPt fun done j s hj => hstep done j s (List.mem_cons_of_mem i hj)
      refine ⟨s', ?_, by rwa [List.append_assoc] at hP⟩
      rw [List.foldlM_cons, ht]
      exact hs'

/-- What the rounds of a loop that returned have kept. -/
theorem of_foldlM {f : σ → ι → Option σ} (P : List ι → σ → Prop) (done : List ι) {is : List ι} {s s' : σ}
    (h : is.foldlM f s = some s') (hs : P done s)
    (hstep : ∀ done i s t, i ∈ is → P done s → f s i = some t → P (done ++ [i]) t) : P (done ++ is) s' := by
  induction is generalizing s done with
  | nil =>
      obtain rfl : s = s' := Option.some.inj h
      rwa [List.append_nil]
  | cons i is ih =>
      rw [List.foldlM_cons] at h
      obtain ⟨t, ht, hrest⟩ := Option.bind_eq_some_iff.mp h
      have hnext := ih (done ++ [i]) hrest (hstep done i s t List.mem_cons_self hs ht) fun done j s t hj =>
        hstep done j s t (List.mem_cons_of_mem i hj)
      rwa [List.append_assoc] at hnext

theorem foldlM_of_invariant {f : σ → ι → Option σ} (P : σ → Prop) {is : List ι} {s : σ} (hs : P s)
    (hstep : ∀ i s, i ∈ is → P s → ∃ s', f s i = some s' ∧ P s') :
    ∃ s', is.foldlM f s = some s' ∧ P s' :=
  @foldlM_of_step _ _ f (fun _ => P) is [] s hs fun _ => hstep

/-- Finitely many loops return exactly if each of them does. -/
theorem exists_mapM_iff {f : ℕ → ι → Option β} (hf : ∀ i, Mono fun n => f n i) (is : List ι) :
    (∃ n, (is.mapM (f n)).isSome) ↔ ∀ i ∈ is, ∃ n, (f n i).isSome := by
  induction is with
  | nil => exact iff_of_true ⟨0, rfl⟩ nofun
  | cons i is ih =>
      rw [List.forall_mem_cons, ← ih]
      constructor
      · rintro ⟨n, hn⟩
        rw [List.mapM_cons] at hn
        obtain ⟨bs, hbs⟩ := Option.isSome_iff_exists.mp hn
        obtain ⟨b, hb, hrest⟩ := Option.bind_eq_some_iff.mp hbs
        obtain ⟨cs, hcs, -⟩ := Option.bind_eq_some_iff.mp hrest
        exact ⟨⟨n, Option.isSome_iff_exists.mpr ⟨b, hb⟩⟩, ⟨n, Option.isSome_iff_exists.mpr ⟨cs, hcs⟩⟩⟩
      · rintro ⟨⟨n, hn⟩, ⟨m, hm⟩⟩
        obtain ⟨b, hb⟩ := Option.isSome_iff_exists.mp hn
        obtain ⟨cs, hcs⟩ := Option.isSome_iff_exists.mp hm
        have hb' := hf i n (n + m) b (by omega) hb
        have hcs' := Mono.mapM hf is m (n + m) cs (by omega) hcs
        refine ⟨n + m, Option.isSome_iff_exists.mpr ⟨b :: cs, ?_⟩⟩
        rw [List.mapM_cons]
        exact Option.bind_eq_some_iff.mpr ⟨b, hb', Option.bind_eq_some_iff.mpr ⟨cs, hcs', rfl⟩⟩

end Fuel
