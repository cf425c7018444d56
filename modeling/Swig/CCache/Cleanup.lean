import Swig.CCache.Stats
import Mathlib.Algebra.Order.Ring.Int

/-!
The cleanup of a directory of the compiler cache (`cleanup.c`): the files that were
used last are kept, as many as the limits allow.

`size_t` is wide enough for the size of all files, so sizes are natural numbers.
-/

namespace Swig.CCache

/-- `struct files`: the size is in kilobytes. -/
structure CacheFile where
  fname : List Byte
  mtime : ℤ
  size : ℕ
  deriving DecidableEq

/-- The order of the files, the oldest first. -/
def filesCompare (f1 f2 : CacheFile) : Ordering :=
  if f2.mtime = f1.mtime then strcmp f2.fname f1.fname
  else if f2.mtime > f1.mtime then .lt
  else .gt

/-- The two limits that stop the deletion; 0 is no limit. -/
structure Thresholds where
  sizeThreshold : ℕ
  filesThreshold : ℕ

def Thresholds.Within (t : Thresholds) (totalSize numFiles : ℕ) : Prop :=
  (t.sizeThreshold = 0 ∨ totalSize < t.sizeThreshold) ∧ (t.filesThreshold = 0 ∨ numFiles < t.filesThreshold)

instance (t : Thresholds) (totalSize numFiles : ℕ) : Decidable (t.Within totalSize numFiles) :=
  inferInstanceAs (Decidable (_ ∧ _))

/-- What the loop has tried to delete, what it has not looked at, and `total_size`. -/
structure Cleaned where
  tried : List CacheFile
  rest : List CacheFile
  totalSize : ℕ

/-- The loop over the files that are left. `unlinked` says for which files `unlink`
succeeds, or finds nothing. -/
def cleanLoop (t : Thresholds) (unlinked : CacheFile → Bool) : List CacheFile → ℕ → Cleaned
  | [], totalSize => ⟨[], [], totalSize⟩
  | f :: fs, totalSize =>
      if t.Within totalSize (f :: fs).length then ⟨[], f :: fs, totalSize⟩
      else
        let totalSize := if unlinked f then totalSize - f.size else totalSize
        let r := cleanLoop t unlinked fs totalSize
        { r with tried := f :: r.tried }

/-- The size of files in the cache. -/
def filesSize (files : List CacheFile) : ℕ := (files.map CacheFile.size).sum

def sortAndClean (t : Thresholds) (unlinked : CacheFile → Bool) (files : List CacheFile) : Cleaned :=
  cleanLoop t unlinked (files.mergeSort fun f1 f2 => (filesCompare f1 f2).isLE) (filesSize files)

/-- Four fifths of a limit. The source multiplies by the double 0.8, which rounds to
the same for every limit that fits into a counter. -/
def limitMultiple (n : ℕ) : ℕ := n * 8 / 10

/-- The counters after a cleanup of the directory with these files. -/
def cleanupDir (unlinked : CacheFile → Bool) (files : List CacheFile) (maxfiles maxsize : ℕ) (counters : Counters) :
    Counters :=
  let r := sortAndClean ⟨limitMultiple maxsize, limitMultiple maxfiles⟩ unlinked files
  (Change.setSizes r.rest.length.toUInt32 r.totalSize.toUInt32).apply counters

/-- `stats_update_size` calls for a cleanup. -/
def needCleanup (counters : Counters) : Prop :=
  (counters STATS_MAXFILES ≠ 0 ∧ counters STATS_MAXFILES < counters STATS_NUMFILES) ∨
    (counters STATS_MAXSIZE ≠ 0 ∧ counters STATS_MAXSIZE < counters STATS_TOTALSIZE)

/-! ### The order of the files -/

theorem isLE_filesCompare {f1 f2 : CacheFile} : (filesCompare f1 f2).isLE = true ↔
    f1.mtime < f2.mtime ∨ f1.mtime = f2.mtime ∧ (strcmp f2.fname f1.fname).isLE = true := by
  rw [filesCompare]
  split_ifs with heq hlt
  · exact ⟨fun h => Or.inr ⟨heq.symm, h⟩, fun h => h.elim (fun h => absurd heq (ne_of_gt h)) And.right⟩
  · exact ⟨fun _ => Or.inl hlt, fun _ => rfl⟩
  · refine ⟨fun h => absurd h (by decide), fun h => ?_⟩
    rcases h with h | h
    · exact absurd h hlt
    · exact absurd h.1.symm heq

theorem filesCompare_trans {f1 f2 f3 : CacheFile} (h12 : (filesCompare f1 f2).isLE = true)
    (h23 : (filesCompare f2 f3).isLE = true) : (filesCompare f1 f3).isLE = true := by
  rw [isLE_filesCompare] at *
  rcases h12 with h12 | ⟨h12, hname12⟩
  · rcases h23 with h23 | ⟨h23, -⟩
    · exact Or.inl (h12.trans h23)
    · exact Or.inl (h23 ▸ h12)
  · rcases h23 with h23 | ⟨h23, hname23⟩
    · exact Or.inl (h12 ▸ h23)
    · exact Or.inr ⟨h12.trans h23, Std.TransCmp.isLE_trans hname23 hname12⟩

theorem filesCompare_total (f1 f2 : CacheFile) :
    ((filesCompare f1 f2).isLE || (filesCompare f2 f1).isLE) = true := by
  rw [Bool.or_eq_true, isLE_filesCompare, isLE_filesCompare]
  rcases lt_trichotomy f1.mtime f2.mtime with h | h | h
  · exact Or.inl (Or.inl h)
  · by_cases hname : (strcmp f2.fname f1.fname).isLE = true
    · exact Or.inl (Or.inr ⟨h, hname⟩)
    · refine Or.inr (Or.inr ⟨h.symm, ?_⟩)
      rw [Std.OrientedCmp.lt_of_not_isLE hname]
      rfl
  · exact Or.inr (Or.inl h)

/-! ### The loop -/

theorem filesSize_append (fs gs : List CacheFile) : filesSize (fs ++ gs) = filesSize fs + filesSize gs := by
  rw [filesSize, List.map_append, List.sum_append]
  rfl

theorem filesSize_cons (f : CacheFile) (fs : List CacheFile) : filesSize (f :: fs) = f.size + filesSize fs := by
  rw [filesSize, List.map_cons, List.sum_cons]
  rfl

variable {t : Thresholds} {unlinked : CacheFile → Bool}

/-- The files among some that could not be deleted. -/
def failed (unlinked : CacheFile → Bool) (fs : List CacheFile) : List CacheFile := fs.filter fun f => !unlinked f

/-- The loop takes files from the front as long as the limits do not hold, with
`kept` kilobytes of earlier files that could not be deleted. -/
structure Cleans (t : Thresholds) (unlinked : CacheFile → Bool) (kept : ℕ) (files : List CacheFile) (r : Cleaned) :
    Prop where
  split : r.tried ++ r.rest = files
  totalSize : r.totalSize = kept + filesSize (failed unlinked r.tried ++ r.rest)
  within : r.rest = [] ∨ t.Within r.totalSize r.rest.length
  needed : ∀ a f b, r.tried = a ++ f :: b →
    ¬ t.Within (kept + filesSize (failed unlinked a ++ (f :: b ++ r.rest))) (f :: b ++ r.rest).length

theorem cleanLoop_spec (files : List CacheFile) (kept : ℕ) :
    Cleans t unlinked kept files (cleanLoop t unlinked files (kept + filesSize files)) := by
  induction files generalizing kept with
  | nil =>
      refine ⟨rfl, rfl, Or.inl rfl, fun a f b h => ?_⟩
      exact absurd h.symm (List.append_ne_nil_of_right_ne_nil a (List.cons_ne_nil f b))
  | cons f fs ih =>
      by_cases hwithin : t.Within (kept + filesSize (f :: fs)) (f :: fs).length
      · rw [cleanLoop, if_pos hwithin]
        refine ⟨rfl, rfl, Or.inr hwithin, fun a g b h => ?_⟩
        exact absurd h.symm (List.append_ne_nil_of_right_ne_nil a (List.cons_ne_nil g b))
      · -- what the loop goes on with
        have hfailed : filesSize (failed unlinked [f]) = if unlinked f then 0 else f.size := by
          cases hf : unlinked f with
          | false => rw [failed, List.filter_cons_of_pos (by rw [hf]; rfl), filesSize_cons]; rfl
          | true => rw [failed, List.filter_cons_of_neg (by rw [hf]; decide)]; rfl
        have hnext : (if unlinked f then kept + filesSize (f :: fs) - f.size else kept + filesSize (f :: fs)) =
            (kept + filesSize (failed unlinked [f])) + filesSize fs := by
          rw [hfailed, filesSize_cons]
          split_ifs
          · omega
          · omega
        have hcons (gs : List CacheFile) : failed unlinked (f :: gs) = failed unlinked [f] ++ failed unlinked gs :=
          List.filter_append [f] gs
        have hrec := ih (kept + filesSize (failed unlinked [f]))
        rw [← hnext] at hrec
        rw [cleanLoop, if_neg hwithin]
        refine ⟨congrArg (f :: ·) hrec.split, ?_, hrec.within, fun a g b h => ?_⟩
        · dsimp only
          rw [hrec.totalSize, hcons (cleanLoop t unlinked fs _).tried, List.append_assoc,
            filesSize_append (failed unlinked [f]), Nat.add_assoc]
        · cases a with
          | nil =>
              obtain ⟨rfl, rfl⟩ := List.cons.inj h
              rw [List.cons_append, hrec.split]
              exact hwithin
          | cons f' a =>
              obtain ⟨rfl, ha⟩ := List.cons.inj h
              have hlater := hrec.needed a g b ha
              rwa [hcons a, List.append_assoc, filesSize_append (failed unlinked [f]), ← Nat.add_assoc]

theorem filesSize_perm {fs gs : List CacheFile} (h : fs.Perm gs) : filesSize fs = filesSize gs := by
  rw [filesSize, filesSize]
  exact (h.map CacheFile.size).sum_nat

/-- The files in the order of deletion, and what the loop does to them. -/
theorem sortAndClean_cleans (t : Thresholds) (unlinked : CacheFile → Bool) (files : List CacheFile) :
    Cleans t unlinked 0 (files.mergeSort fun f1 f2 => (filesCompare f1 f2).isLE) (sortAndClean t unlinked files) := by
  have h := @cleanLoop_spec t unlinked (files.mergeSort fun f1 f2 => (filesCompare f1 f2).isLE) 0
  rwa [Nat.zero_add, filesSize_perm (List.mergeSort_perm _ _)] at h

/-- Whatever files there are, and whichever of them cannot be deleted: the oldest ones
are tried, each because the limits did not hold at that point, and no more than that;
the size that is recorded is the size of what is still there. -/
theorem sortAndClean_spec (t : Thresholds) (unlinked : CacheFile → Bool) (files : List CacheFile) :
    let r := sortAndClean t unlinked files
    ((r.tried ++ r.rest).Perm files ∧
      (r.tried ++ r.rest).Pairwise fun f1 f2 => (filesCompare f1 f2).isLE = true) ∧
    r.totalSize = filesSize (failed unlinked r.tried ++ r.rest) ∧
    (r.rest = [] ∨ t.Within r.totalSize r.rest.length) ∧
    ∀ a f b, r.tried = a ++ f :: b →
      ¬ t.Within (filesSize (failed unlinked a ++ (f :: b ++ r.rest))) (f :: b ++ r.rest).length := by
  intro r
  have h := sortAndClean_cleans t unlinked files
  refine ⟨⟨?_, ?_⟩, ?_, h.within, fun a f b hr => ?_⟩
  · rw [h.split]
    exact List.mergeSort_perm _ _
  · rw [h.split]
    exact @List.pairwise_mergeSort _ (fun f1 f2 => (filesCompare f1 f2).isLE) (fun _ _ _ => filesCompare_trans)
      filesCompare_total files
  · rw [h.totalSize, Nat.zero_add]
  · have := h.needed a f b hr
    rwa [Nat.zero_add] at this

/-- What is below four fifths of a limit, or nothing, is not above the limit. -/
theorem not_lt_of_limit {limit : UInt32} {n : ℕ} (hlimit : limit ≠ 1)
    (h : n = 0 ∨ limitMultiple limit.toNat = 0 ∨ n < limitMultiple limit.toNat) :
    ¬ (limit ≠ 0 ∧ limit < n.toUInt32) := by
  rintro ⟨hzero, hlt⟩
  have hne0 : limit.toNat ≠ 0 := fun h => hzero (UInt32.toNat_inj.mp h)
  have hne1 : limit.toNat ≠ 1 := fun h => hlimit (UInt32.toNat_inj.mp h)
  have hbound := limit.toNat_lt
  rw [UInt32.lt_iff_toNat_lt, Nat.toUInt32, UInt32.toNat_ofNat'] at hlt
  rw [limitMultiple] at h
  have hmod : n % 2 ^ 32 ≤ n := Nat.mod_le n _
  omega

/-- A cleanup in which every file can be deleted leaves counters that do not call for
another one. A limit of 1 is left out: four fifths of it are no limit. -/
theorem not_needCleanup_after_cleanup (unlinked : CacheFile → Bool) (files : List CacheFile) (counters : Counters)
    (hall : ∀ f ∈ files, unlinked f = true) (hmaxfiles : counters STATS_MAXFILES ≠ 1)
    (hmaxsize : counters STATS_MAXSIZE ≠ 1) :
    ¬ needCleanup (cleanupDir unlinked files (counters STATS_MAXFILES).toNat (counters STATS_MAXSIZE).toNat counters) := by
  have h := sortAndClean_cleans ⟨limitMultiple (counters STATS_MAXSIZE).toNat,
    limitMultiple (counters STATS_MAXFILES).toNat⟩ unlinked files
  rw [cleanupDir]
  generalize sortAndClean _ unlinked files = r at h ⊢
  have hfailed : failed unlinked r.tried = [] := by
    refine List.filter_eq_nil_iff.mpr fun f hf => ?_
    have hmem : f ∈ files := (List.mergeSort_perm files _).mem_iff.mp (h.split ▸ List.mem_append_left _ hf)
    rw [hall f hmem]
    decide
  have htotal := h.totalSize
  rw [hfailed, List.nil_append, Nat.zero_add] at htotal
  have hwithin := h.within
  rintro (hfiles | hsize)
  · refine not_lt_of_limit (n := r.rest.length) hmaxfiles ?_ hfiles
    exact hwithin.imp (fun hnil => by rw [hnil]; rfl) And.right
  · refine not_lt_of_limit (n := r.totalSize) hmaxsize ?_ hsize
    refine hwithin.imp (fun hnil => ?_) And.left
    rw [htotal, hnil]
    rfl

theorem not_needCleanup_after_cleanup_two_files : ¬ needCleanup (cleanupDir (fun _ => true)
    [⟨lit "a", 2, 4⟩, ⟨lit "b", 1, 4⟩] 2 0 fun i => if i = STATS_MAXFILES then 2 else 0) :=
  not_needCleanup_after_cleanup (fun _ => true) [⟨lit "a", 2, 4⟩, ⟨lit "b", 1, 4⟩]
    (fun i => if i = STATS_MAXFILES then 2 else 0) (fun _ _ => rfl) (by decide) (by decide)

end Swig.CCache
