import Swig.DOH.StringOps

/-!
Positions and lines: what `String_seek`, `String_getc` and `String_ungetc` make of the line
counter on the way from one position to another.
-/

namespace Swig.DOH.DohString

open ByteBlock

variable {s : DohString} {data tail : List Byte} {p q m : ℕ}

/-! ### Newlines in front of a position -/

/-- The newlines in front of a position. -/
def newlinesTo (b : List Byte) (i : ℕ) : ℤ := (b.take i).count (chr '\n')

/-- The signed number of newlines between two positions. -/
def newlinesBetween (data : List Byte) (p q : ℕ) : ℤ := newlinesTo data q - newlinesTo data p

def newlineAt (b : Block) (i : ℕ) : Prop := load b i = some (chr '\n')

instance (b : Block) (i : ℕ) : Decidable (newlineAt b i) := inferInstanceAs (Decidable (_ = _))

theorem newlineAt_iff {b : Block} {i : ℕ} (hi : i < b.length) : newlineAt b i ↔ b[i] = chr '\n' := by
  simp [newlineAt, load, hi]

theorem newlinesTo_succ {b : Block} {i : ℕ} (hi : i < b.length) :
    newlinesTo b (i + 1) = newlinesTo b i + if b[i] = chr '\n' then 1 else 0 := by
  rw [newlinesTo, List.take_succ_eq_append_getElem hi, List.count_append, List.count_singleton]
  simp [newlinesTo]

theorem newlinesTo_append (hp : p ≤ data.length) :
    newlinesTo (data ++ tail) p = newlinesTo data p := by
  rw [newlinesTo, List.take_append_of_le_length hp, newlinesTo]

theorem countNewlines_eq {b : Block} {n : ℕ} (h : p + n ≤ b.length) :
    countNewlines b p n = some (newlinesTo b (p + n) - newlinesTo b p) := by
  induction n generalizing p with
  | zero => simp [countNewlines]
  | succ n ih =>
      have hload : load b p = some b[p] := by
        have hp : p < b.length := by omega
        simp [load, hp]
      have hrest : countNewlines b ((p : ℤ) + 1) n = some (newlinesTo b (p + 1 + n) - newlinesTo b (p + 1)) := by
        exact_mod_cast ih (p := p + 1) (by omega)
      have hstep := newlinesTo_succ (b := b) (i := p) (by omega)
      rw [countNewlines, hload, hrest, hstep, show p + 1 + n = p + (n + 1) by omega]
      simp only [Option.bind_eq_bind, Option.bind_some]
      split
      · congr 1
        omega
      · congr 1

/-! ### Seeking -/

theorem Holds.move (h : Holds s data tail p m) (hq : q ≤ data.length) (line : ℤ) :
    Holds { s with sp := q, line := line } data tail q m :=
  { h with sp_eq := rfl, sp_le := hq }

/-- What `String_seek` counts too much: forwards it looks at the byte it arrives at. -/
def seekSlip (b : Block) (p q : ℕ) : ℤ :=
  if p < q then (if newlineAt b q then 1 else 0) - if newlineAt b p then 1 else 0 else 0

theorem Holds.seek_eq (h : Holds s data tail p m) (hq : q ≤ data.length) {offset : ℤ} {whence : Whence}
    (htarget : s.seekTarget offset whence = q) :
    s.seek offset whence = some { s with
      sp := q, line := s.line + (newlinesBetween data p q + seekSlip s.str p q) } := by
  have hguard : 0 ≤ (q : ℤ) := Int.natCast_nonneg q
  have htail := h.tail_pos
  have hp := h.sp_le
  have hlen : s.str.length = data.length + tail.length := by rw [h.str, List.length_append]
  have hto (i : ℕ) (hi : i ≤ data.length) : newlinesTo s.str i = newlinesTo data i := by
    rw [h.str, newlinesTo_append hi]
  unfold DohString.seek
  rw [htarget, h.sp_eq]
  dsimp only
  by_cases hlt : p < q
  · have hcount : countNewlines s.str ((p : ℤ) + 1) ((q : ℤ) - p).toNat =
        some (newlinesTo s.str (q + 1) - newlinesTo s.str (p + 1)) := by
      have := countNewlines_eq (b := s.str) (p := p + 1) (n := q - p) (by omega)
      rw [show ((q : ℤ) - p).toNat = q - p by omega]
      rw [show p + 1 + (q - p) = q + 1 by omega] at this
      exact_mod_cast this
    rw [if_pos (by exact_mod_cast hlt), hcount, newlinesTo_succ (by omega), newlinesTo_succ (by omega),
      hto p hp, hto q hq]
    simp only [Option.bind_eq_bind, Option.bind_some, guard_of hguard, seekSlip, if_pos hlt, newlinesBetween,
      newlineAt_iff (b := s.str) (i := p) (by omega), newlineAt_iff (b := s.str) (i := q) (by omega)]
    congr 2
    omega
  · have hcount : countNewlines s.str (q : ℤ) ((p : ℤ) - q).toNat =
        some (newlinesTo s.str p - newlinesTo s.str q) := by
      have := countNewlines_eq (b := s.str) (p := q) (n := p - q) (by omega)
      rwa [show q + (p - q) = p by omega, show p - q = ((p : ℤ) - q).toNat by omega] at this
    rw [if_neg (by exact_mod_cast hlt), hcount, hto p hp, hto q hq]
    simp only [Option.map_some, Option.bind_eq_bind, Option.bind_some, guard_of hguard, seekSlip, if_neg hlt,
      newlinesBetween]
    congr 2
    omega

/-! ### Stepping -/

/-- `n` times `Getc`. -/
def getcs : ℕ → DohString → Option DohString
  | 0, s => some s
  | n + 1, s => do
      let (_, s) ← s.getc
      getcs n s

/-- `Ungetc` of the bytes, the last one first. -/
def ungetcs : List Byte → DohString → DohString
  | [], s => s
  | c :: cs, s => (ungetcs cs s).ungetc (some c)

/-- The way from position `p` to position `q`, byte by byte. -/
def stepTo (data : List Byte) (s : DohString) (p q : ℕ) : Option DohString :=
  if p ≤ q then getcs (q - p) s else some (ungetcs ((data.take p).drop q) s)

theorem Holds.getc_eq (h : Holds s data tail p m) (hp : p < data.length) :
    ∃ c, s.getc = some (c, { s with
      sp := ((p + 1 : ℕ) : ℤ), line := s.line + newlinesBetween data p (p + 1) }) := by
  have hload : load s.str (p : ℤ) = some data[p] := by
    rw [h.str]
    simp [load, List.getElem?_append, hp]
  refine ⟨some data[p], ?_⟩
  unfold DohString.getc
  rw [h.sp_eq, h.len, if_neg (by omega), hload, newlinesBetween, newlinesTo_succ hp]
  simp only [Option.bind_eq_bind, Option.bind_some]
  split <;> simp

theorem Holds.getcs_eq {n : ℕ} (h : Holds s data tail p m) (hn : p + n ≤ data.length) :
    getcs n s = some { s with
      sp := ((p + n : ℕ) : ℤ), line := s.line + newlinesBetween data p (p + n) } := by
  induction n generalizing s p with
  | zero =>
      rw [getcs, newlinesBetween, Nat.add_zero, ← h.sp_eq]
      simp
  | succ n ih =>
      obtain ⟨c, hc⟩ := h.getc_eq (by omega)
      rw [getcs, hc]
      simp only [Option.bind_eq_bind, Option.bind_some]
      rw [ih (h.move (by omega) _) (by omega), show p + 1 + n = p + (n + 1) by omega]
      simp only [newlinesBetween]
      congr 2
      omega

theorem ungetc_eq (h : s.sp = ((q + 1 : ℕ) : ℤ)) (c : Byte) :
    s.ungetc (some c) = { s with sp := q, line := if c = chr '\n' then s.line - 1 else s.line } := by
  unfold DohString.ungetc
  dsimp only
  rw [if_neg (by omega), h]
  simp

theorem Holds.ungetcs_eq (h : Holds s data tail p m) (hq : q ≤ p) :
    ungetcs ((data.take p).drop q) s = { s with sp := q, line := s.line + newlinesBetween data p q } := by
  have hp := h.sp_le
  obtain ⟨k, rfl⟩ := Nat.exists_eq_add_of_le hq
  clear hq
  induction k generalizing q with
  | zero =>
      rw [Nat.add_zero, List.drop_eq_nil_of_le (by simp), ungetcs, newlinesBetween]
      have hsp := h.sp_eq
      rw [Nat.add_zero] at hsp
      rw [← hsp]
      simp
  | succ k ih =>
      have hlt : q < (data.take (q + (k + 1))).length := by
        rw [List.length_take]
        omega
      have hget : (data.take (q + (k + 1)))[q] = data[q] := List.getElem_take ..
      rw [List.drop_eq_getElem_cons hlt, ungetcs, hget]
      rw [show q + (k + 1) = q + 1 + k by omega] at h hp ⊢
      rw [ih h hp, ungetc_eq rfl]
      have hstep := newlinesTo_succ (b := data) (i := q) (by omega)
      simp only [newlinesBetween]
      congr 1
      split at hstep <;> rename_i hc <;> simp only [hc, if_true, if_false] <;> omega

theorem Holds.stepTo_eq (h : Holds s data tail p m) (hq : q ≤ data.length) :
    stepTo data s p q = some { s with sp := q, line := s.line + newlinesBetween data p q } := by
  unfold stepTo
  split
  next hle =>
    rw [h.getcs_eq (by omega), show p + (q - p) = q by omega]
  next hle => rw [h.ungetcs_eq (by omega)]

/-! ### Seeking against stepping -/

/-- A `Seek` to `q` counts the newlines on the way as `Getc` and `Ungetc` do, and a `Seek` back
to `p` undoes it. -/
structure SeekCounts (data : List Byte) (s : DohString) (p q : ℕ) (offset : ℤ) (whence : Whence) : Prop where
  counts : ∃ s', s.seek offset whence = some s' ∧ s'.sp = q ∧ s'.line = s.line + newlinesBetween data p q
  steps : s.seek offset whence = stepTo data s p q
  returns : ∀ s', s.seek offset whence = some s' → ∀ offset' whence', s'.seekTarget offset' whence' = (p : ℤ) →
    s'.seek offset' whence' = some s

theorem Holds.seekTarget_set (h : Holds s data tail p m) (hq : q ≤ data.length) :
    s.seekTarget q .set = q := by
  have hlen := h.len
  unfold seekTarget
  dsimp only
  rw [if_neg (by omega), if_neg (by omega)]

/-- `Seek` counts the newlines it passes and comes back exactly if there is a newline at the
one position when there is one at the other. -/
theorem Holds.seekCounts_iff (h : Holds s data tail p m) (hq : q ≤ data.length) {offset : ℤ} {whence : Whence}
    (htarget : s.seekTarget offset whence = q) :
    SeekCounts data s p q offset whence ↔ (newlineAt s.str p ↔ newlineAt s.str q) := by
  have hseek := h.seek_eq hq htarget
  have hback (line : ℤ) {offset' : ℤ} {whence' : Whence}
      (ht : DohString.seekTarget { s with sp := (q : ℤ), line := line } offset' whence' = (p : ℤ)) :=
    (h.move hq line).seek_eq h.sp_le ht
  dsimp only at hback
  constructor
  · rintro ⟨⟨s', hs', -, hline⟩, -, hreturns⟩
    rw [hseek] at hs' hreturns
    cases hs'
    rcases Nat.lt_trichotomy p q with hlt | rfl | hgt
    · -- forwards: the bytes counted are those behind `p` up to the one at `q`
      simp only [seekSlip, if_pos hlt] at hline
      split at hline <;> split at hline <;> first | omega | simp_all
    · rfl
    · -- backwards, and forwards again
      have hreturn := hreturns _ rfl p .set ((h.move hq _).seekTarget_set h.sp_le)
      rw [hback _ ((h.move hq _).seekTarget_set h.sp_le)] at hreturn
      have hline' := congrArg DohString.line (Option.some.inj hreturn)
      simp only [seekSlip, if_pos hgt, if_neg (Nat.not_lt.mpr hgt.le), newlinesBetween] at hline'
      split at hline' <;> split at hline' <;> first | omega | simp_all
  · intro hiff
    have hslip (i j : ℕ) (h : newlineAt s.str i ↔ newlineAt s.str j) : seekSlip s.str i j = 0 := by
      rw [seekSlip]
      simp only [h]
      split <;> simp
    rw [hslip p q hiff, Int.add_zero] at hseek
    refine ⟨⟨_, hseek, rfl, rfl⟩, ?_, ?_⟩
    · rw [hseek, h.stepTo_eq hq]
    · intro s' hs' offset' whence' ht
      rw [hseek] at hs'
      cases hs'
      have hline : s.line + newlinesBetween data p q + (newlinesBetween data q p + 0) = s.line := by
        simp only [newlinesBetween]
        omega
      rw [hback _ ht, hslip q p hiff.symm, hline, ← h.sp_eq]

/-- A string that holds a newline and two letters, at its first byte. -/
def newlineFirst : DohString :=
  ⟨1, 16, 3, -1, 0, [chr '\n', chr 'a', chr 'b', 0, 0, 0, 0, 0, 0, 0, 0, 0, 0, 0, 0, 0]⟩

theorem holds_newlineFirst :
    Holds newlineFirst [chr '\n', chr 'a', chr 'b'] (List.replicate 13 0) 0 16 :=
  ⟨rfl, rfl, rfl, rfl, by decide, by decide, by decide, by decide +kernel, by decide +kernel⟩

/-- Between the two letters. -/
theorem seekCounts_letters :
    SeekCounts [chr '\n', chr 'a', chr 'b'] { newlineFirst with sp := 1, line := 2 } 1 2 1 .cur ↔
      (newlineAt newlineFirst.str 1 ↔ newlineAt newlineFirst.str 2) :=
  (holds_newlineFirst.move (q := 1) (by decide) 2).seekCounts_iff (by decide) (by decide)

/-- A `Seek` over the newline does not count it. -/
theorem seek_misses_newline :
    Holds newlineFirst [chr '\n', chr 'a', chr 'b'] (List.replicate 13 0) 0 16 ∧
      newlineFirst.seekTarget 1 .set = (1 : ℕ) ∧
      ¬SeekCounts [chr '\n', chr 'a', chr 'b'] newlineFirst 0 1 1 .set := by
  refine ⟨holds_newlineFirst, by decide, ?_⟩
  rintro ⟨⟨s', hs', -, hline⟩, -, -⟩
  have hseek : newlineFirst.seek 1 .set = some { newlineFirst with sp := 1 } := by decide
  rw [hseek] at hs'
  cases hs'
  exact absurd hline (by decide)

end Swig.DOH.DohString
