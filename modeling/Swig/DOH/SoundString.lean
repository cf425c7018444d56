import Swig.DOH.ReplaceBounds
import Swig.DOH.StringHeap

/-!
What every operation on a string keeps, as far as it returns: contents without a
terminator, and a cached hash value that is `-1` or theirs.
-/

namespace Swig.DOH

open ByteBlock

namespace DohString

/-- What the operations keep: the contents are bytes of the buffer without a
terminator, there is room for one behind them, and the cached hash value is
theirs. -/
structure Sound (s : DohString) : Prop where
  len_nonneg : 0 ≤ s.len
  len_lt : s.len < s.str.length
  length_le : (s.str.length : ℤ) ≤ s.maxsize + 1
  sp_le : s.sp ≤ s.len
  nulFree : NulFree s.str 0 s.len
  hashkey : s.hashkey = -1 ∨ s.hashkey = stringHash s.contents

variable {s s' : DohString} {junk : ℕ → Byte} {new : List Byte}

theorem bytes_eq (h : Sound s) : s.bytes = some s.contents :=
  loadBytes_zero h.len_nonneg (Int.le_of_lt h.len_lt)

theorem length_contents (h : Sound s) : (s.contents.length : ℤ) = s.len := by
  have hlen := h.len_nonneg
  have hlt := h.len_lt
  simp only [contents, List.length_take]
  omega

theorem Sound.mem_contents (h : Sound s) : ∀ c ∈ s.contents, c ≠ 0 := by
  intro c hc
  obtain ⟨k, hk, rfl⟩ := List.mem_iff_getElem.mp hc
  have hlt : (k : ℤ) < s.len := by
    rw [← length_contents h]
    omega
  obtain ⟨c, hget, hne⟩ := h.nulFree k (Int.natCast_nonneg k) hlt
  obtain ⟨hk', rfl⟩ := List.getElem?_eq_some_iff.mp hget
  simpa [contents] using hne

/-! ### Constructors and copies -/

theorem Sound.stringData (h : Sound s) :
    ∃ b, s.stringData = some { s with str := b } ∧ Sound { s with str := b } ∧
      b.take s.len.toNat = s.contents ∧ EndsAt b 0 s.len.toNat := by
  have hlen := h.len_nonneg
  have hlt := h.len_lt
  have hstore : store s.str s.len 0 = some (s.str.set s.len.toNat 0) := if_pos ⟨hlen, hlt⟩
  have htake := take_store (n := s.len.toNat) hstore (by omega)
  have hfree := h.nulFree.store hstore (.inr (.inl (Int.le_refl _)))
  refine ⟨_, by rw [DohString.stringData, hstore]; rfl, ?_, htake, ?_⟩
  · refine ⟨hlen, by simpa using hlt, by simpa using h.length_le, h.sp_le, hfree, ?_⟩
    simpa only [contents, htake] using h.hashkey
  · refine ⟨Nat.zero_le _, hfree.mono (Int.le_refl 0) (by omega), ?_⟩
    exact List.getElem?_set_self (by omega)

theorem Sound.copyString (h : Sound s) (hs : s.copyString junk = some s') : Sound s' := by
  unfold DohString.copyString at hs
  simp only [Option.bind_eq_bind, Option.bind_eq_some_iff] at hs
  obtain ⟨b, hb, y, hy, b₁, hb₁, b₂, hb₂, hs⟩ := hs
  cases hs
  obtain rfl : s.contents = y := Option.some.inj ((bytes_eq h).symm.trans hy)
  have hlen := length_contents h
  have hlen₀ := h.len_nonneg
  obtain ⟨hlt, -, -⟩ := store_eq_some hb₂
  have hb₁' : storeBytes b 0 (s.contents ++ []) = some b₁ := by rwa [List.append_nil]
  have htake : b₂.take s.len.toNat = s.contents := by
    rw [take_store hb₂ (by omega), ← take_storeBytes hb₁']
    congr 1
    omega
  have hfree := (NulFree.storeBytes_self hb₁ h.mem_contents).store hb₂ (.inr (.inl (by omega)))
  have hsize := length_malloc hb
  rw [← length_storeBytes hb₁, ← length_store hb₂] at hsize
  refine ⟨hlen₀, ?_, ?_, h.sp_le, hfree.mono (Int.le_refl 0) ?_, ?_⟩
  · show s.len < (b₂.length : ℤ)
    omega
  · show (b₂.length : ℤ) ≤ s.len + 1
    omega
  · show s.len ≤ 0 + (s.contents.length : ℤ)
    omega
  · simpa only [contents, htake] using h.hashkey

theorem sound_empty {b b' : Block} {hashkey : ℤ} (hb : malloc junk INIT_MAXSIZE = some b)
    (hb' : store b 0 0 = some b') (hkey : hashkey = -1 ∨ hashkey = 0) :
    Sound ⟨1, INIT_MAXSIZE, 0, hashkey, 0, b'⟩ := by
  have hsize := length_malloc hb
  rw [← length_store hb'] at hsize
  obtain ⟨-, hlt, -⟩ := store_eq_some hb'
  rw [← length_store hb'] at hlt
  refine ⟨Int.le_refl 0, hlt, ?_, Int.le_refl 0, .of_le (Int.le_refl 0), ?_⟩
  · show (b'.length : ℤ) ≤ INIT_MAXSIZE + 1
    omega
  · have hnil : (⟨1, INIT_MAXSIZE, 0, hashkey, 0, b'⟩ : DohString).contents = [] := rfl
    rw [hnil]
    exact hkey

/-- The hash value that comes with the source is that of its text. -/
theorem sound_newString {txt : List Byte} {hashkey : ℤ} (htxt : ∀ c ∈ txt, c ≠ 0)
    (hkey : hashkey = -1 ∨ hashkey = stringHash txt)
    (hs : newString junk (some (txt, txt.length, hashkey)) = some s') : Sound s' := by
  simp only [newString, Option.bind_eq_bind, Option.bind_eq_some_iff] at hs
  obtain ⟨b, hb, b', hb', hs⟩ := hs
  cases hs
  have hsize := length_malloc hb
  rw [← length_storeBytes hb'] at hsize
  have hfree := (NulFree.of_le (Int.le_refl 0)).extend_cstring hb' htxt
  have htake : b'.take (txt.length : ℤ).toNat = txt := take_storeBytes hb'
  refine ⟨Int.natCast_nonneg _, ?_, ?_, Int.le_refl _, hfree.mono (Int.le_refl 0) ?_, ?_⟩
  · show (txt.length : ℤ) < b'.length
    rw [hsize]
    split <;> omega
  · exact (Int.le_of_eq hsize).trans (Int.le_add_one (Int.le_refl _))
  · show (txt.length : ℤ) ≤ 0 + txt.length
    omega
  · simpa only [contents, htake] using hkey

theorem sound_newString_null (hs : newString junk none = some s') : Sound s' := by
  simp only [newString, Option.bind_eq_bind, Option.bind_eq_some_iff] at hs
  obtain ⟨b, hb, b', hb', hs⟩ := hs
  cases hs
  exact sound_empty hb hb' (.inl rfl)

theorem sound_newStringEmpty (hs : newStringEmpty junk = some s') : Sound s' := by
  simp only [newStringEmpty, Option.bind_eq_bind, Option.bind_eq_some_iff] at hs
  obtain ⟨b, hb, b', hb', hs⟩ := hs
  cases hs
  exact sound_empty hb hb' (.inr rfl)

theorem sound_newStringWithSize_null {len : ℤ} (hs : newStringWithSize junk none len = some s') :
    Sound s' := by
  simp only [newStringWithSize, Option.bind_eq_bind, Option.bind_eq_some_iff] at hs
  obtain ⟨b, hb, b', hb', hs⟩ := hs
  cases hs
  exact sound_empty hb hb' (.inl rfl)

theorem sound_newStringWithSize {txt : List Byte} {len : ℤ} (htxt : ∀ c ∈ txt, c ≠ 0)
    (hlen : len ≤ txt.length) (hs : newStringWithSize junk (some txt) len = some s') :
    Sound s' := by
  simp only [newStringWithSize, Option.bind_eq_bind, Option.bind_eq_some_iff] at hs
  obtain ⟨b, hb, u, hpos, b', hb', hs⟩ := hs
  cases hs
  obtain ⟨n, rfl⟩ : ∃ n : ℕ, len = n := ⟨len.toNat, by
    have : 0 ≤ len := by
      by_contra hneg
      simp [guard, hneg] at hpos
    omega⟩
  have hpad : (n : ℤ).toNat - txt.length = 0 := by omega
  rw [hpad, List.replicate_zero, List.append_nil, Int.toNat_natCast] at hb'
  have hsize := length_malloc hb
  rw [← length_storeBytes hb'] at hsize
  have hfree := NulFree.storeBytes_self hb' fun c hc => htxt c (List.mem_of_mem_take hc)
  have htake : (txt.take n).length = n := List.length_take_of_le (by omega)
  refine ⟨Int.natCast_nonneg _, ?_, ?_, Int.le_refl _, hfree.mono (Int.le_refl 0) ?_, .inl rfl⟩
  · show (n : ℤ) < b'.length
    rw [hsize]
    split <;> omega
  · exact (Int.le_of_eq hsize).trans (Int.le_add_one (Int.le_refl _))
  · show (n : ℤ) ≤ 0 + (txt.take n).length
    omega

/-! ### Operations that change the contents -/

/-- A buffer of another size in which the contents stand as before. -/
structure Regrown (s s' : DohString) : Prop where
  eq : s' = { s with str := s'.str, maxsize := s'.maxsize }
  nulFree : NulFree s'.str 0 s.len
  length_le : (s'.str.length : ℤ) ≤ s'.maxsize + 1

theorem Sound.regrown_refl (h : Sound s) : Regrown s s := ⟨rfl, h.nulFree, h.length_le⟩

theorem regrown_setMaxsize {n : ℤ} (h : NulFree s.str 0 s.len) (hn : s.len ≤ n)
    (hs : s.setMaxsize junk n = some s') : Regrown s s' ∧ s'.maxsize = n := by
  obtain ⟨b, hb, hs⟩ := Option.bind_eq_some_iff.mp hs
  cases hs
  refine ⟨⟨rfl, h.realloc hb hn, ?_⟩, rfl⟩
  exact (Int.le_of_eq (realloc_eq_some hb).1).trans (Int.le_add_one (Int.le_refl _))

theorem Regrown.trans {s₁ s₂ : DohString} (h : Regrown s s₁) (h' : Regrown s₁ s₂) :
    Regrown s s₂ := by
  have hlen : s₁.len = s.len := by rw [h.eq]
  refine ⟨?_, hlen ▸ h'.nulFree, h'.length_le⟩
  rw [h'.eq, h.eq]

theorem Sound.append (h : Sound s) (hnew : ∀ c ∈ new, c ≠ 0)
    (hs : s.append junk new = some s') : Sound s' := by
  unfold DohString.append at hs
  simp only [Option.bind_eq_bind, Option.bind_eq_some_iff] at hs
  obtain ⟨s₁, hs₁, b, hb, hs⟩ := hs
  have hlen := h.len_nonneg
  have hlt := h.len_lt
  have hle := h.length_le
  obtain ⟨heq, hfree₁, hle₁⟩ : Regrown s s₁ := by
    unfold DohString.appendRoom at hs₁
    split at hs₁
    · refine (regrown_setMaxsize h.nulFree ?_ hs₁).1
      split <;> omega
    · cases hs₁
      exact h.regrown_refl
  have hfree := hfree₁.extend_cstring hb hnew
  have hb₁ := length_storeBytes hb
  have hfit := (storeBytes_le hb (by simp)).2
  simp only [List.length_append, List.length_singleton] at hfit
  have hsp := h.sp_le
  have hlen₁ : s₁.len = s.len := by rw [heq]
  have hsp₁ : s₁.sp = s.sp := by rw [heq]
  have hmk {sp line : ℤ} (hsp : sp ≤ s.len + new.length) : Sound { s₁ with
      str := b, hashkey := -1, len := s₁.len + new.length, sp := sp, line := line } := by
    refine ⟨?_, ?_, ?_, ?_, ?_, .inl rfl⟩
    all_goals dsimp only
    · omega
    · omega
    · omega
    · omega
    · rwa [hlen₁]
  split at hs
  · simp only [Option.bind_eq_some_iff] at hs
    obtain ⟨u, -, k, -, hs⟩ := hs
    cases hs
    exact hmk (Int.le_refl _)
  · cases hs
    exact hmk (by omega)

theorem regrown_grow {need : ℤ} {n : ℕ} (h : NulFree s.str 0 s.len) (hlen : 0 ≤ s.len)
    (hle : s.len ≤ s.maxsize) (hlength : (s.str.length : ℤ) ≤ s.maxsize + 1)
    (hs : grow junk need n s = some s') : Regrown s s' := by
  induction n generalizing s with
  | zero => cases hs
  | succ n ih =>
      rw [grow] at hs
      split at hs
      · obtain ⟨s₁, hs₁, hs⟩ := Option.bind_eq_some_iff.mp hs
        obtain ⟨h₁, hmax⟩ := regrown_setMaxsize h (by omega) hs₁
        have hlen₁ : s₁.len = s.len := by rw [h₁.eq]
        exact h₁.trans (ih (hlen₁ ▸ h₁.nulFree) (by omega) (by omega) h₁.length_le hs)
      · cases hs
        exact ⟨rfl, h, hlength⟩

theorem Sound.insert {pos : ℤ} {own : Bool} (h : Sound s) (hnew : ∀ c ∈ new, c ≠ 0)
    (hs : s.insert junk pos new own = some s') : Sound s' := by
  unfold DohString.insert at hs
  simp only [Option.bind_eq_bind, Option.bind_eq_some_iff] at hs
  obtain ⟨u, -, s₁, hs₁, b₁, hb₁, b₂, hb₂, b₃, hb₃, hs⟩ := hs
  have hlen := h.len_nonneg
  have hlt := h.len_lt
  have hle := h.length_le
  have hsp := h.sp_le
  obtain ⟨p, hp, hp₀, hple⟩ : ∃ p : ℤ, (if pos < 0 then 0 else if pos > s.len then s.len else pos) = p ∧
      0 ≤ p ∧ p ≤ s.len := by
    refine ⟨_, rfl, ?_⟩
    split
    · omega
    · split <;> omega
  rw [hp] at hb₁ hb₂ hs
  obtain ⟨heq, hfree, hle₁⟩ := regrown_grow h.nulFree hlen (by omega) hle hs₁
  have hlen₁ : s₁.len = s.len := by rw [heq]
  have hsp₁ : s₁.sp = s.sp := by rw [heq]
  rw [hlen₁] at hb₁ hb₃
  -- in front of the position, the new bytes, and behind them
  have hfree₁ : NulFree b₁ 0 p :=
    (hfree.mono (Int.le_refl 0) hple).memmove_outside hb₁ (.inl (by omega))
  have hmoved : NulFree b₁ (p + new.length) (p + new.length + (s.len - p)) :=
    (NulFree.mono (hfree.from_zero p) (Int.le_refl p) (by omega)).memmove_self hb₁ (Int.le_refl _)
  have hfree₂ := (hfree₁.extend hb₂ hnew).append
    (hmoved.storeBytes_outside hb₂ (.inr (Int.le_refl _)))
  have hfree₃ := hfree₂.store hb₃ (.inr (.inl (by omega)))
  obtain ⟨hpos₃, hlt₃, -⟩ := store_eq_some hb₃
  have hb := (length_store hb₃).trans ((length_storeBytes hb₂).trans (length_memmove hb₁))
  rw [← length_store hb₃] at hlt₃
  have hmk {sp line : ℤ} (hsp : sp ≤ s.len + new.length) : Sound { s₁ with
      str := b₃, hashkey := -1, line := line, sp := sp, len := s₁.len + new.length } := by
    refine ⟨?_, ?_, ?_, ?_, ?_, .inl rfl⟩
    all_goals dsimp only
    · omega
    · omega
    · omega
    · omega
    · exact hfree₃.mono (Int.le_refl 0) (by omega)
  cases hs
  by_cases hmove : s₁.sp ≥ p
  · simp only [hmove, if_true]
    exact hmk (by omega)
  · simp only [hmove, if_false]
    exact hmk (by omega)

theorem Sound.clear (h : Sound s) (hs : s.clear = some s') : Sound s' := by
  obtain ⟨b, hb, hs⟩ := Option.bind_eq_some_iff.mp hs
  cases hs
  have hlen := h.len_nonneg
  have hlt := h.len_lt
  have hle := h.length_le
  have hb' := length_store hb
  exact ⟨Int.le_refl 0, by dsimp only; omega, by dsimp only; omega, Int.le_refl 0,
    .of_le (Int.le_refl 0), .inl rfl⟩

/-- The bytes behind a gap move down over it, or up. -/
theorem nulFree_close {b b₁ b₂ : Block} {len pos next size : ℤ} (h : NulFree b 0 len)
    (hpos : pos ≤ len) (hb₁ : memmove b pos next (len - next) = some b₁)
    (hb₂ : store b₁ size 0 = some b₂) (hsize : size = pos + (len - next)) :
    next ≤ len ∧ 0 ≤ size ∧ size < b₂.length ∧ b₂.length = b.length ∧ NulFree b₂ 0 size := by
  have hn := memmove_nonneg hb₁
  have hfree := ((h.mono (Int.le_refl 0) hpos).memmove_outside hb₁ (.inl (Int.le_refl _))).append
    (((h.from_zero next).mono (Int.le_refl next) (by omega)).memmove_self hb₁ (Int.le_refl _))
  obtain ⟨h₀, hlt, -⟩ := store_eq_some hb₂
  have hb := (length_store hb₂).trans (length_memmove hb₁)
  rw [← length_store hb₂] at hlt
  exact ⟨by omega, h₀, hlt, hb, (hsize ▸ hfree).store hb₂ (.inr (.inl (Int.le_refl _)))⟩

theorem Sound.delitem {pos : ℤ} (h : Sound s) (hs : s.delitem pos = some s') : Sound s' := by
  unfold DohString.delitem at hs
  dsimp only at hs
  generalize (if (if pos = DOH_END then s.len - 1 else pos) = DOH_BEGIN then 0
    else if pos = DOH_END then s.len - 1 else pos) = p at hs
  split at hs
  · cases hs
    exact { h with hashkey := .inl rfl }
  · simp only [Option.bind_eq_bind, Option.bind_eq_some_iff] at hs
    obtain ⟨s₁, hs₁, b₁, hb₁, b₂, hb₂, hs⟩ := hs
    cases hs
    have hn := memmove_nonneg hb₁
    have hsp := h.sp_le
    obtain ⟨sp, line, rfl, hsp₁⟩ : ∃ sp line, s₁ = { s with sp := sp, line := line } ∧
        (sp ≤ p ∨ sp ≤ s.len - 1) := by
      unfold delitemPosition at hs₁
      split at hs₁
      · simp only [Option.bind_eq_bind, Option.bind_eq_some_iff] at hs₁
        obtain ⟨u, -, c, -, hs₁⟩ := hs₁
        cases hs₁
        exact ⟨s.sp - 1, _, rfl, .inr (by omega)⟩
      · cases hs₁
        exact ⟨s.sp, s.line, rfl, .inl (by omega)⟩
    dsimp only at hb₁ hb₂ hn
    rw [show s.len - 1 - p = s.len - (p + 1) by omega] at hb₁
    obtain ⟨-, hlen₀, hlt, hlength, hfree⟩ :=
      nulFree_close h.nulFree (by omega) hb₁ hb₂ (by omega)
    have hle := h.length_le
    exact ⟨hlen₀, hlt, by dsimp only; omega, by dsimp only; omega, hfree, .inl rfl⟩

theorem Sound.delslice {sindex eindex : ℤ} (h : Sound s) (hindex : sindex ≤ s.len)
    (hs : s.delslice sindex eindex = some s') : Sound s' := by
  unfold DohString.delslice at hs
  dsimp only at hs
  generalize hi : (if sindex = DOH_BEGIN then 0 else sindex) = i at hs
  generalize (if eindex = DOH_END then s.len else eindex) = j at hs
  split at hs
  · cases hs
    exact h
  · simp only [Option.bind_eq_bind, Option.bind_eq_some_iff] at hs
    obtain ⟨s₁, hs₁, b₁, hb₁, b₂, hb₂, hs⟩ := hs
    cases hs
    have hlen := h.len_nonneg
    have hsp := h.sp_le
    have hile : i ≤ s.len := by
      rw [← hi]
      split <;> omega
    obtain ⟨sp, line, rfl, hsp₁⟩ : ∃ sp line, s₁ = { s with sp := sp, line := line } ∧
        (j ≤ s.len → sp ≤ s.len - (j - i)) := by
      unfold delslicePosition at hs₁
      split at hs₁
      · simp only [Option.bind_eq_bind, Option.bind_eq_some_iff] at hs₁
        obtain ⟨k, -, u, -, hs₁⟩ := hs₁
        cases hs₁
        refine ⟨_, _, rfl, fun hj => ?_⟩
        split <;> omega
      · cases hs₁
        exact ⟨s.sp, s.line, rfl, fun hj => by omega⟩
    dsimp only at hb₁ hb₂
    obtain ⟨hj, hlen₀, hlt, hlength, hfree⟩ :=
      nulFree_close h.nulFree hile hb₁ hb₂ (by omega)
    have hle := h.length_le
    exact ⟨hlen₀, hlt, by dsimp only; omega, hsp₁ hj, hfree, .inl rfl⟩

theorem chopLoop_eq_some {n : ℕ} (hlen : 0 ≤ s.len) (hsp : s.sp ≤ s.len)
    (hs : chopLoop n s = some s') : ∃ sp len line,
      s' = { s with sp := sp, len := len, line := line } ∧ 0 ≤ len ∧ len ≤ s.len ∧ sp ≤ len := by
  have hrefl : ∃ sp len line, s = { s with sp := sp, len := len, line := line } ∧ 0 ≤ len ∧
      len ≤ s.len ∧ sp ≤ len := ⟨s.sp, s.len, s.line, rfl, hlen, Int.le_refl _, hsp⟩
  induction n generalizing s with
  | zero =>
      cases hs
      exact hrefl
  | succ n ih =>
      rw [chopLoop] at hs
      split at hs
      · obtain ⟨c, -, hs⟩ := Option.bind_eq_some_iff.mp hs
        split at hs
        · -- a blank goes, and the position with it if it stands at the end
          rename_i hpos _
          have hnext {sp line : ℤ} (hsp' : sp ≤ s.len - 1)
              (hs : chopLoop n { s with sp := sp, len := s.len - 1, line := line } = some s') :
              ∃ sp len line, s' = { s with sp := sp, len := len, line := line } ∧ 0 ≤ len ∧
                len ≤ s.len ∧ sp ≤ len := by
            obtain ⟨sp', len', line', rfl, h₀, hle, hsp''⟩ := ih (by dsimp only; omega) hsp' hs
              ⟨sp, s.len - 1, line, rfl, by omega, Int.le_refl _, hsp'⟩
            dsimp only at hle
            exact ⟨sp', len', line', rfl, h₀, by omega, hsp''⟩
          split at hs
          · exact hnext (by omega) hs
          · exact hnext (by omega) hs
        · cases hs
          exact hrefl
      · cases hs
        exact hrefl

theorem Sound.chop (h : Sound s) (hs : s.chop = some s') : Sound s' := by
  unfold DohString.chop at hs
  simp only [Option.bind_eq_bind, Option.bind_eq_some_iff] at hs
  obtain ⟨s₁, hs₁, b, hb, u, -, hs⟩ := hs
  cases hs
  obtain ⟨sp, len, line, rfl, hlen₀, hlen, hsp⟩ := chopLoop_eq_some h.len_nonneg h.sp_le hs₁
  obtain ⟨-, hlt, -⟩ := store_eq_some hb
  rw [← length_store hb] at hlt
  have hle := h.length_le
  have hb' := length_store hb
  refine ⟨hlen₀, hlt, ?_, hsp, ?_, .inl rfl⟩
  · dsimp only at hb' ⊢
    omega
  · exact (h.nulFree.mono (Int.le_refl 0) hlen).store hb (.inr (.inl (Int.le_refl _)))

theorem writeRoom_eq_some {l : ℤ} (h : Sound s) (hs : s.writeRoom junk l = some s') :
    ∃ s₀, Regrown s s₀ ∧ s' = { s₀ with len := max s.len (s.sp + l) } := by
  have hlt := h.len_lt
  have hle := h.length_le
  obtain ⟨s₁, hs₁, hs⟩ := Option.bind_eq_some_iff.mp hs
  cases hs
  split at hs₁
  · -- the new size exceeds the contents
    obtain ⟨s₀, hs₀, rfl⟩ := Option.map_eq_some_iff.mp hs₁
    obtain ⟨h₀, -⟩ := regrown_setMaxsize h.nulFree (by omega) hs₀
    refine ⟨s₀, h₀, ?_⟩
    have hmax : max s.len (s.sp + l) = s₀.sp + l := by
      rw [h₀.eq]
      dsimp only
      omega
    simp [hmax]
  · cases hs₁
    refine ⟨s, h.regrown_refl, ?_⟩
    congr 1
    split <;> omega

theorem Sound.write (h : Sound s) (hnew : ∀ c ∈ new, c ≠ 0) (hs : s.write junk new = some s') :
    Sound s' := by
  unfold DohString.write at hs
  have hsp := h.sp_le
  rw [if_neg (by omega)] at hs
  simp only [Option.bind_eq_bind, Option.bind_eq_some_iff] at hs
  obtain ⟨s₁, hs₁, b₁, hb₁, b₂, hb₂, hs⟩ := hs
  cases hs
  obtain ⟨s₀, ⟨heq, hfree, hle⟩, rfl⟩ := writeRoom_eq_some h hs₁
  have hsp₀ : s₀.sp = s.sp := by rw [heq]
  dsimp only at hb₁ hb₂ ⊢
  rw [hsp₀] at hb₁
  have hfree₁ := (hfree.overwrite hb₁ hsp hnew).store hb₂ (.inr (.inl (Int.le_refl _)))
  obtain ⟨h₀, hlt, -⟩ := store_eq_some hb₂
  have hb := (length_store hb₂).trans (length_storeBytes hb₁)
  rw [← length_store hb₂] at hlt
  exact ⟨h₀, hlt, by dsimp only; omega, by dsimp only; omega, hfree₁, .inl rfl⟩

theorem Sound.putc {ch : Byte} (h : Sound s) (hch : ch ≠ 0) (hs : s.putc junk ch = some s') :
    Sound s' := by
  unfold DohString.putc at hs
  have hsp := h.sp_le
  have hlen := h.len_nonneg
  have hlt := h.len_lt
  have hle := h.length_le
  dsimp only at hs
  split at hs
  · simp only [Option.bind_eq_bind, Option.bind_eq_some_iff] at hs
    obtain ⟨s₁, hs₁, b₁, hb₁, b₂, hb₂, hs⟩ := hs
    cases hs
    obtain ⟨heq, hfree, hle₁⟩ : Regrown s s₁ := by
      unfold putcRoom at hs₁
      split at hs₁
      · exact (regrown_setMaxsize h.nulFree (by omega) hs₁).1
      · cases hs₁
        exact h.regrown_refl
    have hsp₁ : s₁.sp = s.sp := by rw [heq]
    -- the position stands at the end
    have hfree₁ := ((hfree.mono (Int.le_refl 0) (by omega)).push hb₁ hch).store hb₂
      (.inr (.inl (Int.le_refl _)))
    obtain ⟨h₀, hlt₂, -⟩ := store_eq_some hb₂
    have hb := (length_store hb₂).trans (length_store hb₁)
    rw [← length_store hb₂] at hlt₂
    exact ⟨h₀, hlt₂, by dsimp only; omega, Int.le_refl _, hfree₁, .inl rfl⟩
  · obtain ⟨b, hb, hs⟩ := Option.bind_eq_some_iff.mp hs
    cases hs
    have hb' := length_store hb
    exact ⟨hlen, by dsimp only; omega, by dsimp only; omega, by dsimp only; omega,
      h.nulFree.store hb (.inr (.inr hch)), .inl rfl⟩

/-! ### Replacing -/

section Replace

variable {r : MatchRule} {token rep : List Byte} {once noquote : Bool} {first e n : ℕ}

theorem Sound.replaceInPlace (h : Sound s) (hkey : s.hashkey = -1) (hrep : ∀ c ∈ rep, c ≠ 0)
    (hle : rep.length ≤ token.length) (hends : EndsAt s.str 0 e) (hfirst : first + token.length ≤ e)
    (hs : s.replaceInPlace r token rep once first noquote = some (n, s')) : Sound s' := by
  unfold DohString.replaceInPlace at hs
  simp only [Option.bind_eq_bind, Option.bind_eq_some_iff] at hs
  obtain ⟨⟨b, k⟩, hb, b', hb', hs⟩ := hs
  cases hs
  obtain ⟨hlength, hfree⟩ := shrinkLoop_nulFree hrep hle
    (hends.nulFree.mono (Int.le_refl _) (by omega)) (hends.drop (Nat.zero_le _) (by omega)) hfirst
    (Nat.le_refl _) (fun _ => rfl) (hends.le_of_nulFree h.nulFree) hb
  rw [show (first : ℤ) + (s.len - first) = s.len by omega] at hfree
  obtain ⟨h₀, hlt, -⟩ := store_eq_some hb'
  have hlength' := length_store hb'
  rw [← hlength'] at hlt
  have hsp := h.sp_le
  have hmax := h.length_le
  dsimp only at hlength hlength'
  refine ⟨h₀, hlt, by dsimp only; omega, ?_, hfree.store hb' (.inr (.inl (Int.le_refl _))),
    .inl hkey⟩
  dsimp only
  split <;> omega

theorem Sound.replaceExpanding (h : Sound s) (hkey : s.hashkey = -1) (hrep : ∀ c ∈ rep, c ≠ 0)
    (hlt : token.length < rep.length) (hends : EndsAt s.str 0 e) (hfirst : first + token.length ≤ e)
    (hs : s.replaceExpanding r token rep once junk first noquote = some (n, s')) : Sound s' := by
  unfold DohString.replaceExpanding at hs
  simp only [Option.bind_eq_bind, Option.bind_eq_some_iff] at hs
  obtain ⟨⟨more, noquote'⟩, -, newsize, -, ns, hns, y, hy, ns₁, hns₁, ns₂, hns₂, ns₃, hns₃, hs⟩ := hs
  cases hs
  have hprefix : NulFree ns₁ 0 first := by
    have hfree := hends.nulFree.mono (Int.le_refl _) (show 0 + (first : ℤ) ≤ e by omega)
    simpa using hfree.copy_self hy hns₁ (Int.le_refl _)
  obtain ⟨hlength, hfree⟩ := copyLoop_nulFree hrep hprefix (hends.drop (Nat.zero_le _) (by omega))
    hfirst (hends.le_of_nulFree h.nulFree) hns₂
  rw [show (first : ℤ) + (s.len - first) = s.len by omega] at hfree
  obtain ⟨h₀, hlt', -⟩ := store_eq_some hns₃
  have hlength' := length_store hns₃
  rw [← hlength'] at hlt'
  have hsize := length_malloc hns
  have hlength₁ := length_storeBytes hns₁
  have hsp := h.sp_le
  have hexpand : 0 ≤ ((rep.length : ℤ) - token.length) * (more + 1) :=
    Int.mul_nonneg (by omega) (by omega)
  refine ⟨h₀, hlt', by dsimp only; omega, ?_, hfree.store hns₃ (.inr (.inl (Int.le_refl _))),
    .inl hkey⟩
  dsimp only
  split <;> omega

theorem Sound.replaceSimple (h : Sound s) (hrep : ∀ c ∈ rep, c ≠ 0)
    (hs : s.replaceSimple junk token rep noquote once r = some (n, s')) : Sound s' := by
  unfold DohString.replaceSimple at hs
  split at hs
  · cases hs
    exact h
  · simp only [Option.bind_eq_bind, Option.bind_eq_some_iff] at hs
    obtain ⟨m, hm, hs⟩ := hs
    cases m with
    | none =>
        cases hs
        exact h
    | some k =>
        obtain ⟨e, hends⟩ := exists_endsAt hm
        obtain ⟨⟨m, noquote'⟩, hm, hs⟩ := Option.bind_eq_some_iff.mp hs
        have hdrop : Sound { s with hashkey := -1 } := { h with hashkey := .inl rfl }
        cases m with
        | none =>
            cases hs
            exact hdrop
        | some first =>
            have hfirst := (nextMatch_bounds hends hm).2
            dsimp only at hs
            split at hs
            · exact hdrop.replaceInPlace rfl hrep (by assumption) hends hfirst hs
            · exact hdrop.replaceExpanding rfl hrep (by omega) hends hfirst hs

theorem Sound.replace {flags : ℕ} (h : Sound s) (hrep : ∀ c ∈ rep, c ≠ 0)
    (hs : s.replace junk token rep flags = some (n, s')) : Sound s' := by
  unfold DohString.replace at hs
  dsimp only at hs
  split at hs
  · exact h.replaceSimple hrep hs
  · split at hs
    · exact h.replaceSimple hrep hs
    · split at hs <;> exact h.replaceSimple hrep hs

end Replace

/-! ### Operations that leave the contents -/

theorem Sound.move (h : Sound s) {sp line : ℤ} (hsp : sp ≤ s.len) :
    Sound { s with sp := sp, line := line } :=
  { h with sp_le := hsp }

theorem Sound.seek {offset : ℤ} {whence : Whence} (h : Sound s)
    (htarget : s.seekTarget offset whence ≤ s.len) (hs : s.seek offset whence = some s') :
    Sound s' := by
  unfold DohString.seek at hs
  simp only [Option.bind_eq_bind, Option.bind_eq_some_iff] at hs
  obtain ⟨k, -, u, -, hs⟩ := hs
  cases hs
  exact h.move htarget

theorem Sound.getc {c : Option Byte} (h : Sound s) (hs : s.getc = some (c, s')) : Sound s' := by
  unfold DohString.getc at hs
  split at hs
  · cases hs
    exact h
  · obtain ⟨c, -, hs⟩ := Option.bind_eq_some_iff.mp hs
    cases hs
    exact h.move (by omega)

theorem Sound.ungetc (h : Sound s) (ch : Option Byte) : Sound (s.ungetc ch) := by
  have hsp := h.sp_le
  cases ch with
  | none => exact h
  | some ch =>
      unfold DohString.ungetc
      dsimp only
      split
      · exact h
      · exact h.move (by omega)

theorem Sound.read {len : ℤ} {y : List Byte} (h : Sound s) (hs : s.read len = some (y, s')) :
    Sound s' := by
  unfold DohString.read at hs
  dsimp only at hs
  generalize hreal : (if s.sp + len > s.len then s.len - s.sp else len) = reallen at hs
  have hle : s.sp + reallen ≤ s.len := by
    rw [← hreal]
    split <;> omega
  split at hs
  · obtain ⟨y, -, hs⟩ := Option.bind_eq_some_iff.mp hs
    cases hs
    exact { h with sp_le := hle }
  · cases hs
    exact h

theorem stringHash_take (txt : List Byte) : stringHash (txt.take 50) = stringHash txt := by
  rw [stringHash, List.take_take, stringHash]
  rfl

/-- `Hashval` gives the hash value of the contents. -/
theorem Sound.hash (h : Sound s) :
    ∃ s', s.hash = some ((stringHash s.contents : ℤ), s') ∧ Sound s' := by
  have hlen := h.len_nonneg
  have hlt := h.len_lt
  unfold DohString.hash
  by_cases hkey : s.hashkey ≥ 0
  · refine ⟨s, ?_, h⟩
    rw [if_pos hkey]
    rcases h.hashkey with hk | hk
    · omega
    · rw [hk]
  · have hload : loadBytes s.str 0 (if s.len > 50 then 50 else s.len) =
        some (s.contents.take 50) := by
      rw [contents, List.take_take]
      split
      · rw [loadBytes_zero (by omega) (by omega), min_eq_left (by omega)]
        rfl
      · rw [loadBytes_zero hlen (by omega), min_eq_right (by omega)]
    refine ⟨{ s with hashkey := stringHash s.contents }, ?_, { h with hashkey := .inr rfl }⟩
    rw [if_neg hkey, hload]
    simp only [Option.bind_eq_bind, Option.bind_some, stringHash_take]
    rfl

end DohString

end Swig.DOH
