import Swig.DOH.String
import Mathlib.Tactic.Common

/-!
What the operations do with a string in order: `Holds s data tail sp m` says
that the buffer of `s` starts with the contents `data`, that there is room for a
terminator behind them, and that the position lies within them. Every
operation keeps to such strings, except for the few calls `string.c` gets wrong.
-/

namespace Swig.DOH.DohString

open ByteBlock

structure Holds (s : DohString) (data tail : List Byte) (sp m : ℕ) : Prop where
  str : s.str = data ++ tail
  len : s.len = data.length
  sp_eq : s.sp = sp
  maxsize : s.maxsize = m
  sp_le : sp ≤ data.length
  tail_ne : tail ≠ []
  len_le : data.length ≤ m
  maxsize_le : m ≤ data.length + tail.length
  nulfree : ∀ c ∈ data, c ≠ 0

/-- A string in order. -/
def Valid (s : DohString) : Prop := ∃ data tail sp m, Holds s data tail sp m

/-- The byte behind the contents is a terminator. -/
def Terminated (s : DohString) : Prop := load s.str s.len = some 0

variable {s : DohString} {data tail : List Byte} {sp m : ℕ} {junk : ℕ → Byte}

theorem Valid.bounds (h : Valid s) : 0 ≤ s.sp ∧ s.sp ≤ s.len ∧ s.len + 1 ≤ s.str.length := by
  obtain ⟨data, tail, sp, m, h⟩ := h
  have htail := List.length_pos_iff.mpr h.tail_ne
  have hsp := h.sp_le
  rw [h.sp_eq, h.len, h.str, List.length_append]
  omega

theorem Holds.tail_pos (h : Holds s data tail sp m) : 0 < tail.length :=
  List.length_pos_iff.mpr h.tail_ne

theorem Holds.exists_cons (h : Holds s data tail sp m) : ∃ t ts, tail = t :: ts :=
  List.exists_cons_of_ne_nil h.tail_ne

theorem guard_of {p : Prop} [Decidable p] (h : p) : (guard p : Option Unit) = some () := if_pos h

theorem countNewlines_of_le {b : Block} {n : ℕ} {p : ℤ} (h₀ : 0 ≤ p) (h : p + n ≤ b.length) :
    ∃ k, countNewlines b p n = some k := by
  induction n generalizing p with
  | zero => exact ⟨0, rfl⟩
  | succ n ih =>
      obtain ⟨c, hc⟩ := load_of_lt (b := b) h₀ (by omega)
      obtain ⟨k, hk⟩ := ih (p := p + 1) (by omega) (by omega)
      exact ⟨_, by simp [countNewlines, hc, hk]; rfl⟩

/-! ### Constructors and copies -/

theorem holds_newStringEmpty (junk : ℕ → Byte) :
    ∃ s tail m, newStringEmpty junk = some s ∧ Holds s [] (0 :: tail) 0 m := by
  obtain ⟨b, hb, hlen⟩ := malloc_eq junk (n := INIT_MAXSIZE) (by decide)
  obtain ⟨c, cs, rfl⟩ : ∃ c cs, b = c :: cs := by
    cases b with
    | nil => simp [INIT_MAXSIZE] at hlen
    | cons c cs => exact ⟨c, cs, rfl⟩
  have hstore : store (c :: cs) 0 0 = some (0 :: cs) := store_append (x := []) c 0
  refine ⟨_, cs, 16, by simp [newStringEmpty, hb, hstore]; rfl, ?_⟩
  simp only [INIT_MAXSIZE, List.length_cons] at hlen
  exact ⟨rfl, rfl, rfl, rfl, by simp, by simp, by simp, by simp; omega, by simp⟩

theorem Holds.stringData (h : Holds s data tail sp m) :
    ∃ s' tail', s.stringData = some s' ∧ Holds s' data (0 :: tail') sp m ∧
      s'.hashkey = s.hashkey := by
  obtain ⟨t, ts, rfl⟩ := h.exists_cons
  have hstore : store s.str s.len 0 = some (data ++ 0 :: ts) := by
    rw [h.str, h.len, store_append]
  refine ⟨{ s with str := data ++ 0 :: ts }, ts, by simp [DohString.stringData, hstore], ?_, rfl⟩
  exact { h with str := rfl, tail_ne := by simp, maxsize_le := by simpa using h.maxsize_le }

theorem Holds.copyString (h : Holds s data tail sp m) (junk : ℕ → Byte) :
    ∃ s', s.copyString junk = some s' ∧ Holds s' data [0] sp data.length := by
  obtain ⟨b, hb, hlen⟩ := malloc_eq junk (n := s.len + 1) (by rw [h.len]; omega)
  rw [h.len] at hlen
  have hload : loadBytes s.str 0 s.len = some data := by
    rw [h.str, h.len]
    have := loadBytes_append (x := []) (y := data ++ tail) (n := data.length) (by simp)
    simpa using this
  have hcopy : storeBytes b 0 data = some (data ++ b.drop data.length) := by
    have := storeBytes_append (x := []) (y := b) (z := data) (by omega)
    simpa using this
  obtain ⟨c, hc⟩ : ∃ c, b.drop data.length = [c] := by
    rw [← List.length_eq_one_iff, List.length_drop]
    omega
  have hstore : store (data ++ [c]) s.len 0 = some (data ++ [0]) := by
    rw [h.len, store_append]
  refine ⟨_, by simp [DohString.copyString, hb, hload, hcopy, hc, hstore]; rfl, ?_⟩
  exact ⟨rfl, h.len, h.sp_eq, h.len, h.sp_le, by simp, by omega, by simp, h.nulfree⟩

/-- A new buffer of at least 16 bytes for contents `txt` and a terminator. -/
theorem holds_newString (junk : ℕ → Byte) (txt : List Byte) (hashkey : ℤ)
    (htxt : ∀ c ∈ txt, c ≠ 0) :
    ∃ s tail m, newString junk (some (txt, txt.length, hashkey)) = some s ∧
      Holds s txt (0 :: tail) txt.length m := by
  obtain ⟨n, hn⟩ : ∃ n : ℤ, n = if (txt.length : ℤ) + 1 > INIT_MAXSIZE then (txt.length : ℤ) + 1
      else INIT_MAXSIZE := ⟨_, rfl⟩
  have hle : (txt.length : ℤ) + 1 ≤ n := by
    rw [hn]
    split <;> omega
  obtain ⟨b, hb, hlen⟩ := malloc_eq junk (n := n) (by omega)
  have hstore : storeBytes b 0 (txt ++ [0]) = some (txt ++ (0 :: b.drop (txt.length + 1))) := by
    have := storeBytes_append (x := []) (y := b) (z := txt ++ [0])
      (by simp only [List.length_append, List.length_singleton]; omega)
    simpa using this
  have hnew : newString junk (some (txt, txt.length, hashkey)) =
      some ⟨1, n, txt.length, hashkey, txt.length, txt ++ (0 :: b.drop (txt.length + 1))⟩ := by
    simp only [newString, ← hn, hb, hstore, Option.bind_eq_bind, Option.bind_some]
    rfl
  refine ⟨_, b.drop (txt.length + 1), n.toNat, hnew, ?_⟩
  refine ⟨rfl, rfl, rfl, by simp; omega, Nat.le_refl _, by simp, by omega, ?_, htxt⟩
  simp only [List.length_cons, List.length_drop]
  omega

theorem holds_newStringWithSize (junk : ℕ → Byte) (txt : List Byte) {len : ℕ}
    (hlen : len ≤ txt.length) (htxt : ∀ c ∈ txt, c ≠ 0) :
    ∃ s tail m, newStringWithSize junk (some txt) len = some s ∧
      Holds s (txt.take len) tail len m := by
  obtain ⟨n, hn⟩ : ∃ n : ℤ, n = if (len : ℤ) + 1 > INIT_MAXSIZE then (len : ℤ) + 1
      else INIT_MAXSIZE := ⟨_, rfl⟩
  have hle : (len : ℤ) + 1 ≤ n := by
    rw [hn]
    split <;> omega
  obtain ⟨b, hb, hblen⟩ := malloc_eq junk (n := n) (by omega)
  have htake : (txt.take len).length = len := List.length_take_of_le hlen
  have hstore : storeBytes b 0 (txt.take len) = some (txt.take len ++ b.drop len) := by
    have := storeBytes_append (x := []) (y := b) (z := txt.take len) (by omega)
    simpa [htake] using this
  have hpad : len - txt.length = 0 := by omega
  have hguard : 0 ≤ (len : ℤ) := Int.natCast_nonneg len
  have hnew : newStringWithSize junk (some txt) len =
      some ⟨1, n, len, -1, len, txt.take len ++ b.drop len⟩ := by
    simp only [newStringWithSize, ← hn, hb, guard_of hguard, Int.toNat_natCast, hpad,
      List.replicate_zero, List.append_nil, hstore, Option.bind_eq_bind, Option.bind_some]
    rfl
  refine ⟨_, b.drop len, n.toNat, hnew, ?_⟩
  refine ⟨rfl, by simp [htake], rfl, by simp; omega, by omega, ?_, by omega, ?_, ?_⟩
  · rw [← List.length_pos_iff, List.length_drop]
    omega
  · rw [htake, List.length_drop]
    omega
  · exact fun c hc => htxt c (List.mem_of_mem_take hc)

/-! ### Adding to a string -/

/-- The buffer made longer, with the contents kept. -/
theorem Holds.setMaxsize (h : Holds s data tail sp m) (junk : ℕ → Byte) {n : ℕ}
    (hn : data.length < n) :
    ∃ s' ts, s.setMaxsize junk n = some s' ∧ ts.length + data.length = n ∧ Holds s' data ts sp n := by
  obtain ⟨ts, hb, hlen⟩ := realloc_append junk (x := data) (y := tail) (n := n)
    (by omega) (by omega)
  rw [← h.str] at hb
  simp only [List.length_append] at hlen
  have hts : 0 < ts.length := by omega
  refine ⟨{ s with str := data ++ ts, maxsize := n }, ts, by simp [DohString.setMaxsize, hb],
    by omega, rfl, h.len, h.sp_eq, rfl, h.sp_le, List.length_pos_iff.mp hts, by omega, by omega,
    h.nulfree⟩

/-- The new bytes and their terminator fit behind the contents. -/
theorem Holds.appendRoom (h : Holds s data tail sp m) (junk : ℕ → Byte) (l : ℕ) :
    ∃ s' ts m', s.appendRoom junk (s.len + l + 1) = some s' ∧ Holds s' data ts sp m' ∧
      l + 1 ≤ ts.length ∧ data.length + l ≤ m' := by
  have hlen := h.len
  have hm := h.maxsize
  have hmle := h.maxsize_le
  unfold DohString.appendRoom
  by_cases hgrow : s.len + l + 1 ≥ s.maxsize - 1
  · obtain ⟨n, hn, hbig⟩ : ∃ n : ℕ, (if s.len + l + 1 ≥ 2 * s.maxsize - 1 then s.len + l + 1 + 1
        else 2 * s.maxsize) = n ∧ data.length + l + 1 < n := by
      split
      · exact ⟨data.length + l + 2, by omega, by omega⟩
      · exact ⟨2 * m, by omega, by omega⟩
    obtain ⟨s', ts, hs', hts, h'⟩ := h.setMaxsize junk (n := n) (by omega)
    exact ⟨s', ts, n, by rw [if_pos hgrow]; simp only [hn, hs'], h', by omega, by omega⟩
  · exact ⟨s, tail, m, by rw [if_neg hgrow], h, by omega, by omega⟩

theorem Holds.append (h : Holds s data tail sp m) (junk : ℕ → Byte) {new : List Byte}
    (hnew : ∀ c ∈ new, c ≠ 0) :
    ∃ s' tail' sp' m', s.append junk new = some s' ∧ Holds s' (data ++ new) (0 :: tail') sp' m' := by
  obtain ⟨s₁, ts, m₁, hs₁, h₁, hfit, hroom⟩ := h.appendRoom junk new.length
  have hstore : storeBytes s₁.str s.len (new ++ [0]) =
      some ((data ++ new) ++ (0 :: ts.drop (new.length + 1))) := by
    rw [h₁.str, h.len, storeBytes_append (by simpa using hfit)]
    simp
  have hsp₁ := h₁.sp_eq
  have hlen₁ := h₁.len
  have hle := h₁.sp_le
  have hresult {s' : DohString} {sp' : ℕ} (hstr : s'.str = (data ++ new) ++ (0 ::
      ts.drop (new.length + 1))) (hlen : s'.len = s₁.len + new.length) (hsp : s'.sp = sp')
      (hmax : s'.maxsize = s₁.maxsize) (hsp' : sp' ≤ (data ++ new).length) :
      Holds s' (data ++ new) (0 :: ts.drop (new.length + 1)) sp' m₁ := by
    refine ⟨hstr, by rw [hlen, hlen₁]; simp, hsp, by rw [hmax, h₁.maxsize], hsp', by simp, ?_, ?_, ?_⟩
    · simpa using hroom
    · have := h₁.maxsize_le
      simp only [List.length_append, List.length_cons, List.length_drop]
      omega
    · intro c hc
      rcases List.mem_append.mp hc with hc | hc
      · exact h.nulfree c hc
      · exact hnew c hc
  unfold DohString.append
  simp only [Option.bind_eq_bind]
  rw [hs₁, Option.bind_some, hstore, Option.bind_some, h.len]
  by_cases hsp : s₁.sp ≥ data.length
  · -- the position is at the end and moves with it
    obtain ⟨k, hk⟩ := countNewlines_of_le (b := (data ++ new) ++ (0 :: ts.drop (new.length + 1)))
      (n := (data.length + new.length - s₁.sp).toNat) (p := s₁.sp) (by omega)
      (by simp only [List.length_append, List.length_cons]; omega)
    have hguard : 0 ≤ (data.length : ℤ) + new.length - s₁.sp := by omega
    rw [if_pos hsp, guard_of hguard, Option.bind_some, hk, Option.bind_some]
    exact ⟨_, _, (data ++ new).length, m₁, rfl, hresult rfl rfl (by simp) rfl (Nat.le_refl _)⟩
  · rw [if_neg hsp]
    exact ⟨_, _, sp, m₁, rfl, hresult rfl rfl hsp₁ rfl (by simp only [List.length_append]; omega)⟩

/-- The doubling ends with a buffer larger than `need`. -/
theorem Holds.grow (h : Holds s data tail sp m) (junk : ℕ → Byte) (need : ℕ) {n : ℕ} (hm : 0 < m)
    (hn : need + 2 ≤ n + m) (hn0 : 0 < n) :
    ∃ s' ts m', DohString.grow junk need n s = some s' ∧ Holds s' data ts sp m' ∧ need < m' := by
  induction n generalizing s tail m with
  | zero => omega
  | succ n ih =>
      rw [DohString.grow, h.maxsize]
      by_cases hle : (m : ℤ) ≤ need
      · obtain ⟨s₁, ts, hs₁, -, h₁⟩ := h.setMaxsize junk (n := 2 * m) (by have := h.len_le; omega)
        obtain ⟨s', ts', m', hs', h', hlt⟩ := ih h₁ (by omega) (by omega) (by omega)
        refine ⟨s', ts', m', ?_, h', hlt⟩
        rw [if_pos hle]
        push_cast at hs₁
        simp only [Option.bind_eq_bind, hs₁, Option.bind_some, hs']
      · exact ⟨s, tail, m, by rw [if_neg hle], h, by omega⟩

theorem Holds.insert (h : Holds s data tail sp m) (junk : ℕ → Byte) (pos : ℤ) {new : List Byte}
    (own : Bool) (hnew : ∀ c ∈ new, c ≠ 0) (hm : 0 < m)
    (hown : own = true → data.length + new.length < m ∧ (new.length : ℤ) ≤ pos ∧
      new.length ≤ data.length) :
    ∃ s' data' tail' sp' m', s.insert junk pos new own = some s' ∧
      Holds s' data' (0 :: tail') sp' m' := by
  obtain ⟨p, hp, hple⟩ : ∃ p : ℕ, (if pos < 0 then 0 else if pos > s.len then s.len else pos) = p ∧
      p ≤ data.length := by
    have hlen := h.len
    split
    · exact ⟨0, rfl, by omega⟩
    · split
      · exact ⟨data.length, hlen, by omega⟩
      · exact ⟨pos.toNat, by omega, by omega⟩
  have hguard : ¬(own = true ∧ (s.maxsize ≤ s.len + new.length ∨ (p : ℤ) < new.length)) := by
    rintro ⟨hself, hbad⟩
    obtain ⟨hroom, hpos, hlen⟩ := hown hself
    have hslen := h.len
    have hmax := h.maxsize
    rcases hbad with hbad | hbad
    · omega
    · rw [← hp] at hbad
      split at hbad
      · omega
      · split at hbad <;> omega
  obtain ⟨s₁, ts, m₁, hs₁, h₁, hlt⟩ := h.grow junk (data.length + new.length)
    (n := data.length + new.length + 2) hm (by omega) (by omega)
  have hroom : new.length + 1 ≤ ts.length := by
    have := h₁.maxsize_le
    omega
  obtain ⟨pre, post, rfl, rfl⟩ : ∃ pre post, data = pre ++ post ∧ p = pre.length :=
    ⟨data.take p, data.drop p, by simp, by simp [hple]⟩
  simp only [List.length_append] at hs₁ hlt hroom hple
  obtain ⟨t, ts', hts⟩ := List.exists_cons_of_length_pos (l := ts.drop new.length)
    (by simp only [List.length_drop]; omega)
  have hmove : memmove s₁.str (pre.length + new.length) pre.length (s₁.len - pre.length) =
      some (pre ++ ((post ++ ts).take new.length ++ (post ++ ts.drop new.length))) := by
    have := memmove_up (x := pre) (y := post) (z := ts) (n := new.length) (by omega)
    have hrest : s₁.len - pre.length = (post.length : ℤ) := by
      rw [h₁.len, List.length_append]
      omega
    rwa [h₁.str, hrest, List.append_assoc]
  have hcopy : storeBytes (pre ++ ((post ++ ts).take new.length ++ (post ++ ts.drop new.length)))
      pre.length new = some ((pre ++ new ++ post) ++ t :: ts') := by
    have htake : ((post ++ ts).take new.length).length = new.length := by
      simp only [List.length_take, List.length_append]
      omega
    rw [storeBytes_append (by simp only [List.length_append]; omega), List.drop_left' htake, hts]
    simp
  have hlen : s₁.len + new.length = ((pre ++ new ++ post).length : ℕ) := by
    rw [h₁.len]
    simp only [List.length_append]
    omega
  unfold DohString.insert
  simp only [Option.bind_eq_bind, hp, guard_of hguard, Option.bind_some]
  rw [show s.len + (new.length : ℤ) = ((pre.length + post.length + new.length : ℕ) : ℤ) by
    rw [h.len]; simp, show ((pre.length + post.length + new.length : ℕ) : ℤ).toNat + 2 =
    pre.length + post.length + new.length + 2 by omega, hs₁, Option.bind_some, hmove,
    Option.bind_some, hcopy, Option.bind_some, hlen]
  obtain ⟨line', sp', hpos, hsp'⟩ : ∃ (line' : ℤ) (sp' : ℕ),
      (if s₁.sp ≥ pre.length then (s₁.line + (new.count (chr '\n') : ℤ), s₁.sp + (new.length : ℤ))
        else (s₁.line, s₁.sp)) = (line', (sp' : ℤ)) ∧ sp' ≤ (pre ++ new ++ post).length := by
    have hsp := h₁.sp_le
    simp only [List.length_append] at hsp ⊢
    rw [h₁.sp_eq]
    split
    · exact ⟨s₁.line + new.count (chr '\n'), sp + new.length, by simp, by omega⟩
    · exact ⟨s₁.line, sp, rfl, by omega⟩
  simp only [hpos, store_append, Option.bind_some]
  refine ⟨_, pre ++ new ++ post, ts', sp', m₁, rfl, rfl, rfl, rfl, h₁.maxsize, hsp', by simp, ?_, ?_, ?_⟩
  · simp only [List.length_append]
    omega
  · have := h₁.maxsize_le
    have hcount := congrArg List.length hts
    simp only [List.length_append, List.length_drop, List.length_cons] at this hcount ⊢
    omega
  · intro c hc
    simp only [List.mem_append] at hc
    rcases hc with (hc | hc) | hc
    · exact h.nulfree c (by simp [hc])
    · exact hnew c hc
    · exact h.nulfree c (by simp [hc])

/-! ### Taking bytes out -/

/-- The bytes behind a gap move down over it and get a terminator. -/
theorem close_gap (pre mid post : List Byte) {tail : List Byte} (htail : tail ≠ []) :
    ∃ b ts, memmove (pre ++ mid ++ post ++ tail) pre.length (pre.length + mid.length)
        post.length = some b ∧
      store b (pre.length + post.length) 0 = some ((pre ++ post) ++ 0 :: ts) ∧
      ts.length + 1 = mid.length + tail.length := by
  have hpos := List.length_pos_iff.mpr htail
  obtain ⟨t, ts, hts⟩ := List.exists_cons_of_length_pos
    (l := (mid ++ (post ++ tail)).drop post.length)
    (by simp only [List.length_drop, List.length_append]; omega)
  have hlen := congrArg List.length hts
  simp only [List.length_drop, List.length_append, List.length_cons] at hlen
  refine ⟨(pre ++ post) ++ t :: ts, ts, ?_, ?_, by omega⟩
  · rw [show pre ++ mid ++ post ++ tail = pre ++ (mid ++ (post ++ tail)) by simp, memmove_down, hts]
    simp
  · rw [← store_append t 0]
    simp

/-- The string left when the gap is closed. -/
theorem Holds.of_gap {pre mid post tail ts : List Byte}
    (h : Holds s (pre ++ mid ++ post) tail sp m) {s' : DohString} {sp' : ℕ}
    (hts : ts.length + 1 = mid.length + tail.length)
    (hstr : s'.str = (pre ++ post) ++ 0 :: ts) (hlen : s'.len = pre.length + post.length)
    (hsp : s'.sp = sp') (hmax : s'.maxsize = s.maxsize) (hle : sp' ≤ pre.length + post.length) :
    Holds s' (pre ++ post) (0 :: ts) sp' m := by
  have hdata := h.len_le
  have hmaxsize := h.maxsize_le
  simp only [List.length_append] at hdata hmaxsize
  refine ⟨hstr, by rw [hlen]; simp, hsp, by rw [hmax, h.maxsize], by simpa using hle, by simp,
    by simp only [List.length_append]; omega, ?_, ?_⟩
  · simp only [List.length_append, List.length_cons]
    omega
  · intro c hc
    refine h.nulfree c ?_
    simp only [List.mem_append] at hc ⊢
    tauto

theorem Holds.terminated (h : Holds s data (0 :: tail) sp m) : Terminated s := by
  rw [Terminated, h.str, h.len]
  exact load_append 0

/-- The position `String_delitem` deletes at. -/
theorem Holds.delitem_index (h : Holds s data tail sp m) {pos : ℤ} (hdata : data ≠ [])
    (hpos : pos = DOH_BEGIN ∨ pos = DOH_END ∨ 0 ≤ pos ∧ pos < data.length) :
    ∃ p : ℕ, (if (if pos = DOH_END then s.len - 1 else pos) = DOH_BEGIN then 0
      else if pos = DOH_END then s.len - 1 else pos) = (p : ℤ) ∧ p < data.length := by
  have hlen := h.len
  have hpos₀ : 0 < data.length := List.length_pos_iff.mpr hdata
  have hne : DOH_BEGIN ≠ DOH_END := by decide
  have hnonneg : ∀ i : ℤ, 0 ≤ i → i ≠ DOH_BEGIN ∧ i ≠ DOH_END := by
    intro i hi
    constructor <;> rintro rfl <;> exact absurd hi (by decide)
  rcases hpos with rfl | rfl | ⟨hpos, hlt⟩
  · exact ⟨0, by simp [hne], hpos₀⟩
  · have hlast := (hnonneg (s.len - 1) (by omega)).1
    exact ⟨data.length - 1, by rw [if_pos rfl, if_neg hlast, hlen]; omega, by omega⟩
  · obtain ⟨hbegin, hend⟩ := hnonneg pos hpos
    exact ⟨pos.toNat, by rw [if_neg hend, if_neg hbegin]; omega, by omega⟩

theorem Holds.delitem (h : Holds s data tail sp m) {pos : ℤ}
    (hpos : pos = DOH_BEGIN ∨ pos = DOH_END ∨ 0 ≤ pos ∧ pos < data.length ∨ data = []) :
    ∃ s' data' tail' sp' m', s.delitem pos = some s' ∧ Holds s' data' tail' sp' m' ∧
      (Terminated s → Terminated s') := by
  have hlen := h.len
  unfold DohString.delitem
  simp only [Option.bind_eq_bind]
  by_cases hdata : data = []
  · have hzero : s.len = 0 := by simp [hlen, hdata]
    rw [if_pos hzero]
    exact ⟨_, data, tail, sp, m, rfl, { h with }, id⟩
  · have hpos₀ : 0 < data.length := List.length_pos_iff.mpr hdata
    rw [if_neg (by omega)]
    obtain ⟨p, hp, hplt⟩ := h.delitem_index hdata (show pos = DOH_BEGIN ∨ pos = DOH_END ∨
      0 ≤ pos ∧ pos < data.length by tauto)
    rw [hp]
    obtain ⟨pre, c, post, rfl, rfl⟩ : ∃ pre c post, data = pre ++ [c] ++ post ∧ p = pre.length := by
      refine ⟨data.take p, data[p], data.drop (p + 1), ?_, by simp; omega⟩
      simp
    obtain ⟨b, ts, hmove, hstore, hts⟩ := close_gap pre [c] post h.tail_ne
    have hslen : s.len = pre.length + 1 + post.length := by
      rw [hlen]
      simp only [List.length_append, List.length_singleton]
      omega
    obtain ⟨line', sp', hposition, hsp'⟩ : ∃ (line' : ℤ) (sp' : ℕ),
        s.delitemPosition pre.length = some { s with line := line', sp := sp' } ∧
          sp' ≤ pre.length + post.length := by
      have hsp := h.sp_le
      simp only [List.length_append, List.length_singleton] at hsp
      unfold DohString.delitemPosition
      rw [h.sp_eq]
      by_cases hlt : (sp : ℤ) > pre.length
      · have hload : load s.str pre.length = some c := by
          rw [h.str, List.append_assoc, List.append_assoc]
          exact load_append c
        rw [if_pos hlt]
        simp only [Option.bind_eq_bind, guard_of (show 0 ≤ (sp : ℤ) - 1 by omega),
          Option.bind_some, hload]
        refine ⟨if c = chr '\n' then s.line - 1 else s.line, sp - 1, ?_, by omega⟩
        rw [show ((sp - 1 : ℕ) : ℤ) = sp - 1 by omega]
        rfl
      · rw [if_neg hlt]
        exact ⟨s.line, sp, by rw [← h.sp_eq], by omega⟩
    rw [hposition, Option.bind_some]
    simp only [h.str]
    rw [show s.len - 1 - (pre.length : ℤ) = post.length by omega]
    simp only [List.length_singleton, Nat.cast_one] at hmove hts
    rw [hmove, Option.bind_some, show s.len - 1 = (pre.length : ℤ) + post.length by omega, hstore,
      Option.bind_some]
    have hgap : Holds { s with
        line := line', sp := sp', str := pre ++ post ++ 0 :: ts, hashkey := -1,
        len := (pre.length : ℤ) + post.length } (pre ++ post) (0 :: ts) sp' m :=
      h.of_gap (by simpa using hts) rfl rfl rfl rfl hsp'
    exact ⟨_, pre ++ post, 0 :: ts, sp', m, rfl, hgap, fun _ => hgap.terminated⟩

end Swig.DOH.DohString
