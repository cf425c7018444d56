import Mathlib.NumberTheory.LucasLehmer
import Swig.DOH.LinkedHash

/-!
The new table of `resize`: its size, and where the nodes are.
-/

namespace Swig.DOH

open Lib

/-! ### The size -/

variable {newsize p : ℕ} {hn : Odd newsize} {hp : 3 ≤ p}

/-- An odd number with a divisor that the search finds is not a prime, nor is the even one behind it. -/
theorem add_two_le_prime {q : ℕ} (hn : Odd newsize) (hp : 3 ≤ p) (hlt : p < newsize / 2) (hdvd : p ∣ newsize)
    (hq : q.Prime) (hle : newsize ≤ q) : newsize + 2 ≤ q := by
  have hne : newsize ≠ q := by
    rintro rfl
    obtain h | h := hq.eq_one_or_self_of_dvd p hdvd <;> omega
  have hne' : newsize + 1 ≠ q := by
    rintro rfl
    obtain h | h := hq.eq_one_or_self_of_dvd 2 hn.add_one.two_dvd <;> omega
  omega

theorem dvd_of_div_mul (h : newsize / p * p = newsize) : p ∣ newsize := Dvd.intro_left _ h

/-- The search does not pass a prime. -/
theorem sizeSearch_le_prime {q : ℕ} (hq : q.Prime) (hle : newsize ≤ q) : sizeSearch newsize p hn hp ≤ q := by
  induction newsize, p, hn, hp using sizeSearch.induct with
  | case1 newsize p hn hp h hdiv ih =>
      rw [sizeSearch, if_pos h, if_pos hdiv]
      exact ih (add_two_le_prime hn hp h (dvd_of_div_mul hdiv) hq hle)
  | case2 newsize p hn hp h hdiv ih =>
      rw [sizeSearch, if_pos h, if_neg hdiv]
      exact ih hle
  | case3 newsize p hn hp h => rwa [sizeSearch, if_neg h]

/-- The divisors in front of `p` have been tried. -/
theorem sizeSearch_spec (hpodd : Odd p) (htried : ∀ d, Odd d → 3 ≤ d → d < p → ¬d ∣ newsize) :
    Odd (sizeSearch newsize p hn hp) ∧
      ∀ d, Odd d → 3 ≤ d → d < sizeSearch newsize p hn hp / 2 → ¬d ∣ sizeSearch newsize p hn hp := by
  induction newsize, p, hn, hp using sizeSearch.induct with
  | case1 newsize p hn hp h hdiv ih =>
      rw [sizeSearch, if_pos h, if_pos hdiv]
      refine ih ⟨1, rfl⟩ fun d _ hd hlt => ?_
      omega
  | case2 newsize p hn hp h hdiv ih =>
      rw [sizeSearch, if_pos h, if_neg hdiv]
      refine ih (hpodd.add_even even_two) fun d hd hd3 hlt => ?_
      rcases Nat.lt_or_ge d p with hdp | hdp
      · exact htried d hd hd3 hdp
      · -- between `p` and `p + 2` there is only an even number
        have heq : d = p := by
          obtain ⟨k, rfl⟩ := hd
          obtain ⟨l, rfl⟩ := hpodd
          omega
        rw [heq]
        exact fun hdvd => hdiv (Nat.div_mul_cancel hdvd)
  | case3 newsize p hn hp h =>
      rw [sizeSearch, if_neg h]
      exact ⟨hn, fun d hd hd3 hlt => htried d hd hd3 (by omega)⟩

theorem newSize_spec (oldsize : ℕ) : Odd (newSize oldsize) ∧
    ∀ d, Odd d → 3 ≤ d → d < newSize oldsize / 2 → ¬d ∣ newSize oldsize :=
  sizeSearch_spec ⟨1, rfl⟩ fun d _ hd hlt => by omega

theorem le_newSize (oldsize : ℕ) : 2 * oldsize + 1 ≤ newSize oldsize := le_sizeSearch _ _ _ _

theorem prime_int_max : Nat.Prime (2 ^ 31 - 1) := lucas_lehmer_sufficiency 31 (by norm_num) (by norm_num)

/-- The largest `int` is a prime, so the search stays below it. -/
theorem newSize_lt {oldsize : ℕ} (h : 2 * oldsize < 2 ^ 31) : newSize oldsize < 2 ^ 31 := by
  have hle : newSize oldsize ≤ 2 ^ 31 - 1 := sizeSearch_le_prime prime_int_max (by omega)
  omega

/-! ### The chains -/

namespace LinkedHash

variable {V : Type} {h : LinkedHash V} {t : List (List (ℕ × HashNode V))}

theorem placeChains_eq (newsize : ℕ) (todo t : List (List (ℕ × HashNode V))) :
    todo.foldl (placeAll newsize) t =
      Buckets.distribute (fun c => stringHash c.2.key % newsize) t todo.flatten := by
  rw [Buckets.distribute, List.foldl_flatten]
  rfl

/-- The search for a size has an end and keeps within `int`, and every old node is in the one chain of
its key's hash value. -/
theorem resize_chains (hl : h.Lays t) (hitems : h.nitems = t.flatten.length) (hfull : 2 * h.hashsize ≤ h.nitems) :
    (Odd (newSize h.hashsize) ∧ 2 * h.hashsize + 1 ≤ newSize h.hashsize ∧
      (∀ d, Odd d → 3 ≤ d → d < newSize h.hashsize / 2 → ¬d ∣ newSize h.hashsize) ∧
      (h.nitems < 2 ^ 31 → newSize h.hashsize < 2 ^ 31)) ∧
    ∃ h' t', h.resize = some h' ∧ h'.hashsize = newSize h.hashsize ∧ h'.Lays t' ∧
      t'.flatten.Perm t.flatten ∧
      ∀ a n i, (a, n) ∈ Buckets.bucket t' i ↔
        (a, n) ∈ t.flatten ∧ stringHash n.key % newSize h.hashsize = i := by
  obtain ⟨hodd, hdiv⟩ := newSize_spec h.hashsize
  have hpos := newSize_pos h.hashsize
  refine ⟨⟨hodd, le_newSize _, hdiv, fun hint => newSize_lt (by omega)⟩, ?_⟩
  have hfuel : ∀ l ∈ t, l.length ≤ h.nitems := fun l hmem =>
    hitems ▸ (List.sublist_flatten_of_mem hmem).length_le
  obtain ⟨heap, table, hloop, hr⟩ := replaceChains_spec (hl.replacing _) (List.length_replicate ..) hpos hfuel
  rw [placeChains_eq] at hr
  have hslot (c : ℕ × HashNode V) : stringHash c.2.key % newSize h.hashsize <
      (List.replicate (newSize h.hashsize) ([] : List (ℕ × HashNode V))).length := by
    rw [List.length_replicate]
    exact Nat.mod_lt _ hpos
  have hperm := Buckets.flatten_distribute_perm hslot t.flatten
  rw [List.flatten_replicate_nil, List.append_nil] at hperm
  have hplaced := (Buckets.placed_replicate _).distribute hslot t.flatten
  refine ⟨{ h with heap := heap, hashtable := table }, _, ?_, ?_, ⟨hr.length_eq, hr.chain, hr.nodup⟩, hperm,
    fun a n i => ?_⟩
  · rw [← hl.hashtable_eq] at hloop
    rw [resize, if_neg (Nat.not_lt.mpr hfull)]
    dsimp only
    rw [hloop]
    rfl
  · rw [hashsize, hr.length_eq, Buckets.length_distribute, List.length_replicate]
  · rw [hplaced.mem_bucket, hperm.mem_iff]

/-- A table of one chain that is full. -/
def oneChain : LinkedHash ℕ where
  hashtable := [some 0]
  heap
    | 0 => some ⟨⟨lit "a", 0⟩, some 1⟩
    | 1 => some ⟨⟨lit "b", 1⟩, none⟩
    | _ => none
  nitems := 2

theorem lays_oneChain : oneChain.Lays [[(0, ⟨lit "a", 0⟩), (1, ⟨lit "b", 1⟩)]] := by
  refine ⟨rfl, fun i => ?_, by decide⟩
  cases i with
  | zero => exact ⟨rfl, some 1, rfl, rfl, none, rfl, rfl⟩
  | succ i => rfl

theorem resize_chains_oneChain : ∃ h' t', oneChain.resize = some h' ∧ h'.hashsize = newSize 1 ∧ h'.Lays t' ∧
    t'.flatten.Perm [(0, ⟨lit "a", 0⟩), (1, ⟨lit "b", 1⟩)] ∧
    ∀ a n i, (a, n) ∈ Buckets.bucket t' i ↔
      (a, n) ∈ [(0, ⟨lit "a", 0⟩), (1, ⟨lit "b", 1⟩)] ∧ stringHash n.key % newSize 1 = i :=
  (resize_chains lays_oneChain rfl (by decide)).2

end LinkedHash

end Swig.DOH
