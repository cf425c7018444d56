import Mathlib.Data.List.Basic
import Mathlib.Data.List.Infix
import Mathlib.Data.List.TakeDrop
import Mathlib.Data.List.TakeWhile
import Mathlib.Data.Int.Notation
import Mathlib.Tactic.Common

/-!
Allocated blocks of bytes and the string functions of C over them.

A block is the list of its bytes. An access through an index outside the block
gives `none`, and so does reading a string that has no terminator in the
block. Pointers into a block are offsets; a null pointer is `none`.
-/

namespace ByteBlock

abbrev Block := List UInt8

/-- `p[i]`. -/
def load (b : Block) (i : ℤ) : Option UInt8 := if 0 ≤ i then b[i.toNat]? else none

/-- `p[i] = v`. -/
def store (b : Block) (i : ℤ) (v : UInt8) : Option Block :=
  if 0 ≤ i ∧ i < b.length then some (b.set i.toNat v) else none

/-- The `n` bytes at `p + i`, as `memcpy` reads them. A negative `n` becomes a
size no block has. -/
def loadBytes (b : Block) (i n : ℤ) : Option Block :=
  if n = 0 then some []
  else if 0 ≤ i ∧ 0 < n ∧ i + n ≤ b.length then some ((b.drop i.toNat).take n.toNat) else none

/-- The bytes `bs` written at `p + i`. -/
def storeBytes (b : Block) (i : ℤ) (bs : Block) : Option Block :=
  if bs = [] then some b
  else if 0 ≤ i ∧ i + bs.length ≤ b.length then
    some (b.take i.toNat ++ bs ++ b.drop (i.toNat + bs.length))
  else none

/-- `memmove(p + dst, p + src, n)`. -/
def memmove (b : Block) (dst src n : ℤ) : Option Block :=
  (loadBytes b src n).bind (storeBytes b dst)

/-- A new block; `junk` are the bytes the allocator leaves in it. -/
def malloc (junk : ℕ → UInt8) (n : ℤ) : Option Block :=
  if 0 < n then some ((List.range n.toNat).map junk) else none

/-- `realloc(p, n)`. A block of no bytes is not a string buffer: there `realloc`
returns a null pointer. -/
def realloc (junk : ℕ → UInt8) (b : Block) (n : ℤ) : Option Block :=
  if 0 < n then some (b.take n.toNat ++ (List.range (n.toNat - b.length)).map junk) else none

/-- The string at `p + s`, up to its terminator. -/
def cstring (b : Block) (s : ℕ) : Option Block :=
  let txt := (b.drop s).takeWhile (· != 0)
  if txt.length < (b.drop s).length then some txt else none

/-- The first position of `token` in a text. -/
def indexOf (token : Block) : Block → Option ℕ
  | [] => if token.isPrefixOf [] then some 0 else none
  | c :: cs => if token.isPrefixOf (c :: cs) then some 0 else (indexOf token cs).map (· + 1)

/-- `strstr(p + s, token)`. -/
def strstr (b : Block) (s : ℕ) (token : Block) : Option (Option ℕ) :=
  (cstring b s).map fun txt => (indexOf token txt).map (s + ·)

/-- The first byte from `p + s` on that passes the test, as `strpbrk` and
`strchr` look for it. -/
def findByte (p : UInt8 → Bool) (b : Block) (s : ℕ) : Option (Option ℕ) :=
  (cstring b s).map fun txt => (txt.findIdx? p).map (s + ·)

/-! ### Accesses inside the block -/

variable {x y z b : Block}

theorem load_append (c : UInt8) : load (x ++ c :: y) x.length = some c := by
  simp [load]

theorem load_of_lt {i : ℤ} (h₀ : 0 ≤ i) (h : i < b.length) : ∃ v, load b i = some v := by
  have hi : i.toNat < b.length := by omega
  exact ⟨b[i.toNat], by simp [load, h₀, hi]⟩

theorem store_append (c v : UInt8) : store (x ++ c :: y) x.length v = some (x ++ v :: y) := by
  have hlt : (x.length : ℤ) < ((x ++ c :: y).length : ℕ) := by
    simp only [List.length_append, List.length_cons]
    omega
  rw [store, if_pos ⟨by omega, hlt⟩]
  simp

theorem loadBytes_append {n : ℕ} (h : n ≤ y.length) :
    loadBytes (x ++ y) x.length n = some (y.take n) := by
  unfold loadBytes
  split
  · rw [show n = 0 by omega, List.take_zero]
  · rw [if_pos ⟨by omega, by omega, by simp only [List.length_append]; omega⟩]
    simp

theorem loadBytes_zero {n : ℤ} (h₀ : 0 ≤ n) (h : n ≤ b.length) :
    loadBytes b 0 n = some (b.take n.toNat) := by
  unfold loadBytes
  split
  · simp [*]
  · rw [if_pos (by omega)]
    simp

theorem storeBytes_append (h : z.length ≤ y.length) :
    storeBytes (x ++ y) x.length z = some (x ++ (z ++ y.drop z.length)) := by
  unfold storeBytes
  split
  · subst_vars
    simp
  · rw [if_pos ⟨by omega, by simp only [List.length_append]; omega⟩]
    simp [List.drop_append]

theorem storeBytes_singleton (b : Block) (i : ℤ) (v : UInt8) : storeBytes b i [v] = store b i v := by
  rw [storeBytes, store, if_neg (List.cons_ne_nil v [])]
  by_cases hi : 0 ≤ i ∧ i < b.length
  · rw [if_pos hi, if_pos (by simp only [List.length_singleton]; omega),
      List.set_eq_take_append_cons_drop, if_pos (by omega), List.append_assoc]
    rfl
  · rw [if_neg hi, if_neg (by simp only [List.length_singleton]; omega)]

/-- Moving the bytes `y` up by `n`. -/
theorem memmove_up {n : ℕ} (h : n ≤ z.length) :
    memmove (x ++ (y ++ z)) (x.length + n) x.length y.length =
      some (x ++ ((y ++ z).take n ++ (y ++ z.drop n))) := by
  rw [memmove, loadBytes_append (by simp), Option.bind_some, List.take_left]
  have hsplit : x ++ (y ++ z) = (x ++ (y ++ z).take n) ++ (y ++ z).drop n := by
    rw [List.append_assoc, List.take_append_drop]
  have hlen : ((x ++ (y ++ z).take n).length : ℤ) = x.length + n := by
    simp only [List.length_append, List.length_take]
    omega
  rw [hsplit, ← hlen, storeBytes_append (by simp only [List.length_drop, List.length_append]; omega),
    List.drop_drop, Nat.add_comm n, ← List.drop_drop, List.drop_left, List.append_assoc]

/-- Moving the bytes `z` down over `y`. -/
theorem memmove_down {w : Block} :
    memmove (x ++ (y ++ (z ++ w))) x.length (x.length + y.length) z.length =
      some (x ++ (z ++ (y ++ (z ++ w)).drop z.length)) := by
  have hlen : ((x ++ y).length : ℤ) = x.length + y.length := by simp
  rw [memmove, ← List.append_assoc, ← hlen, loadBytes_append (by simp), Option.bind_some,
    List.take_left, List.append_assoc,
    storeBytes_append (by simp only [List.length_append]; omega)]

theorem malloc_eq (junk : ℕ → UInt8) {n : ℤ} (h : 0 < n) :
    ∃ b, malloc junk n = some b ∧ (b.length : ℤ) = n := by
  refine ⟨_, if_pos h, ?_⟩
  simp only [List.length_map, List.length_range]
  omega

theorem length_malloc {junk : ℕ → UInt8} {n : ℤ} (h : malloc junk n = some b) :
    (b.length : ℤ) = n := by
  unfold malloc at h
  split at h
  · cases h
    simp only [List.length_map, List.length_range]
    omega
  · cases h

/-- A block made longer, or cut behind its first part. -/
theorem realloc_append (junk : ℕ → UInt8) {n : ℤ} (h : 0 < n) (hn : (x.length : ℤ) ≤ n) :
    ∃ w, realloc junk (x ++ y) n = some (x ++ w) ∧ ((x ++ w).length : ℤ) = n := by
  refine ⟨y.take (n.toNat - x.length) ++
    (List.range (n.toNat - (x ++ y).length)).map junk, ?_, ?_⟩
  · rw [realloc, if_pos h, List.take_append, List.take_of_length_le (by omega), List.append_assoc]
  · simp only [List.length_append, List.length_take, List.length_map, List.length_range]
    omega

/-! ### Strings in a block -/

/-- The bytes `txt` and a terminator stand at `s`. -/
def HasString (b : Block) (s : ℕ) (txt : Block) : Prop :=
  (∃ rest, b.drop s = txt ++ 0 :: rest) ∧ ∀ c ∈ txt, c ≠ 0

theorem HasString.cstring {s : ℕ} {txt : Block} (h : HasString b s txt) :
    cstring b s = some txt := by
  obtain ⟨⟨rest, hrest⟩, hnul⟩ := h
  have htake : (b.drop s).takeWhile (· != 0) = txt := by
    rw [hrest, List.takeWhile_append_of_pos (by simpa using hnul)]
    simp
  unfold ByteBlock.cstring
  rw [htake, hrest, if_pos (by simp)]

theorem HasString.drop {s k : ℕ} {txt : Block} (h : HasString b s txt) (hk : k ≤ txt.length) :
    HasString b (s + k) (txt.drop k) := by
  obtain ⟨⟨rest, hrest⟩, hnul⟩ := h
  refine ⟨⟨rest, ?_⟩, fun c hc => hnul c (List.mem_of_mem_drop hc)⟩
  rw [← List.drop_drop, hrest, List.drop_append_of_le_length hk]

theorem HasString.getElem? {s k : ℕ} {txt : Block} (h : HasString b s txt) (hk : k < txt.length) :
    b[s + k]? = some txt[k] := by
  obtain ⟨⟨rest, hrest⟩, -⟩ := h
  rw [← List.getElem?_drop, hrest, List.getElem?_append_left hk, List.getElem?_eq_getElem hk]

theorem HasString.getElem?_length {s : ℕ} {txt : Block} (h : HasString b s txt) :
    b[s + txt.length]? = some 0 := by
  obtain ⟨⟨rest, hrest⟩, -⟩ := h
  rw [← List.getElem?_drop, hrest]
  simp

theorem HasString.load_cons {s : ℕ} {c : UInt8} {txt : Block} (h : HasString b s (c :: txt)) :
    load b s = some c := by
  have hc := h.getElem? (Nat.zero_lt_succ _)
  rw [load, if_pos (Int.natCast_nonneg s)]
  exact hc

theorem HasString.load_nil {s : ℕ} (h : HasString b s []) : load b s = some 0 := by
  rw [load, if_pos (Int.natCast_nonneg s)]
  exact h.getElem?_length

theorem HasString.tail {s : ℕ} {c : UInt8} {txt : Block} (h : HasString b s (c :: txt)) :
    HasString b (s + 1) txt := h.drop (Nat.succ_le_succ (Nat.zero_le _))

theorem hasString_append {rest : Block} (h : ∀ c ∈ y, c ≠ 0) :
    HasString (x ++ (y ++ 0 :: rest)) x.length y :=
  ⟨⟨rest, by simp⟩, h⟩

theorem HasString.length_lt {s : ℕ} {txt : Block} (h : HasString b s txt) :
    s + txt.length < b.length := by
  have := h.getElem?_length
  by_contra hge
  rw [List.getElem?_eq_none (by omega)] at this
  cases this

/-! ### What a successful access leaves -/

theorem store_eq_some {b' : Block} {i : ℤ} {v : UInt8} (h : store b i v = some b') :
    0 ≤ i ∧ i < b.length ∧ b' = b.set i.toNat v := by
  unfold store at h
  split at h
  · rename_i hi
    exact ⟨hi.1, hi.2, (Option.some.inj h).symm⟩
  · cases h

theorem getElem?_loadBytes {i n : ℤ} (h : loadBytes b i n = some y) :
    (y.length : ℤ) = n ∧ ∀ k : ℕ, (k : ℤ) < n → 0 ≤ i ∧ y[k]? = b[i.toNat + k]? := by
  unfold loadBytes at h
  split at h
  · cases h
    exact ⟨by simp [*], fun k hk => by omega⟩
  · split at h
    · rename_i hn hrange
      cases h
      refine ⟨by simp only [List.length_take, List.length_drop]; omega, fun k hk => ?_⟩
      rw [List.getElem?_take_of_lt (by omega), List.getElem?_drop]
      exact ⟨hrange.1, rfl⟩
    · cases h

theorem getElem?_storeBytes {b' : Block} {i : ℤ} (h : storeBytes b i y = some b') (k : ℕ) :
    b'[k]? = if i ≤ k ∧ k < i + y.length then y[(k - i).toNat]? else b[k]? := by
  unfold storeBytes at h
  split at h
  · rename_i hy
    cases h
    subst hy
    rw [if_neg (by simp only [List.length_nil]; omega)]
  · split at h
    · rename_i hrange
      cases h
      have hi : (b.take i.toNat).length = i.toNat := by
        rw [List.length_take]
        omega
      rw [List.append_assoc, List.getElem?_append, hi]
      split
      · -- in front of the bytes written
        rw [if_neg (by omega), List.getElem?_take_of_lt (by assumption)]
      · rw [List.getElem?_append]
        split
        · rw [if_pos (by omega), show (k : ℤ) - i = ((k - i.toNat : ℕ) : ℤ) by omega, Int.toNat_natCast]
        · rw [if_neg (by omega), List.getElem?_drop]
          congr 1
          omega
    · cases h

theorem length_store {b' : Block} {i : ℤ} {v : UInt8} (h : store b i v = some b') :
    b'.length = b.length := by
  obtain ⟨-, -, rfl⟩ := store_eq_some h
  exact List.length_set

/-- A write behind the first bytes leaves them as they are. -/
theorem take_store {b' : Block} {n : ℕ} {i : ℤ} {v : UInt8} (h : store b i v = some b')
    (hi : n ≤ i) : b'.take n = b.take n := by
  obtain ⟨hi₀, hlt, rfl⟩ := store_eq_some h
  rw [List.take_set, List.set_eq_of_length_le]
  simp only [List.length_take]
  omega

theorem take_storeBytes {b' : Block} (h : storeBytes b 0 (y ++ z) = some b') :
    b'.take y.length = y := by
  unfold storeBytes at h
  split at h
  · rename_i hnil
    rw [(List.append_eq_nil_iff.mp hnil).1]
    rfl
  · split at h
    · cases h
      simp
    · cases h

theorem storeBytes_le {b' : Block} {i : ℤ} (h : storeBytes b i y = some b') (hy : y ≠ []) :
    0 ≤ i ∧ i + y.length ≤ b.length := by
  unfold storeBytes at h
  rw [if_neg hy] at h
  split at h
  · assumption
  · cases h

theorem length_storeBytes {b' : Block} {i : ℤ} (h : storeBytes b i y = some b') :
    b'.length = b.length := by
  unfold storeBytes at h
  split at h
  · cases h
    rfl
  · split at h
    · cases h
      simp only [List.length_append, List.length_take, List.length_drop]
      omega
    · cases h

theorem realloc_eq_some {b' : Block} {junk : ℕ → UInt8} {n : ℤ} (h : realloc junk b n = some b') :
    (b'.length : ℤ) = n ∧ ∀ k < b.length, (k : ℤ) < n → b'[k]? = b[k]? := by
  unfold realloc at h
  split at h
  · cases h
    constructor
    · simp only [List.length_append, List.length_take, List.length_map, List.length_range]
      omega
    · intro k hk hkn
      rw [List.getElem?_append_left (by simp only [List.length_take]; omega),
        List.getElem?_take_of_lt (by omega)]
  · cases h

theorem memmove_nonneg {b' : Block} {dst src n : ℤ} (h : memmove b dst src n = some b') : 0 ≤ n := by
  obtain ⟨y, hload, -⟩ := Option.bind_eq_some_iff.mp h
  rw [← (getElem?_loadBytes hload).1]
  exact Int.natCast_nonneg _

theorem length_memmove {b' : Block} {dst src n : ℤ} (h : memmove b dst src n = some b') :
    b'.length = b.length := by
  obtain ⟨y, -, hstore⟩ := Option.bind_eq_some_iff.mp h
  exact length_storeBytes hstore

/-! ### Ranges without a terminator -/

/-- The bytes from `lo` up to `hi` are in the block, and none of them is a terminator. -/
def NulFree (b : Block) (lo hi : ℤ) : Prop :=
  ∀ k : ℕ, lo ≤ k → k < hi → ∃ c, b[k]? = some c ∧ c ≠ 0

namespace NulFree

variable {b' : Block} {lo mid hi i n : ℤ}

theorem of_le (h : hi ≤ lo) : NulFree b lo hi := fun k hlo hhi => by omega

theorem mono (h : NulFree b lo hi) {lo' hi' : ℤ} (hlo : lo ≤ lo') (hhi : hi' ≤ hi) :
    NulFree b lo' hi' :=
  fun k hk hk' => h k (by omega) (by omega)

theorem from_zero (h : NulFree b 0 hi) (lo : ℤ) : NulFree b lo hi :=
  fun k _ hhi => h k (Int.natCast_nonneg k) hhi

theorem append (h : NulFree b lo mid) (h' : NulFree b mid hi) : NulFree b lo hi := by
  intro k hlo hhi
  rcases Int.lt_or_le k mid with hk | hk
  · exact h k hlo hk
  · exact h' k hk hhi

theorem le_length (h : NulFree b lo hi) (hlo : 0 ≤ lo) (hlt : lo < hi) : hi ≤ b.length := by
  obtain ⟨c, hc, -⟩ := h (hi - 1).toNat (by omega) (by omega)
  have := (List.getElem?_eq_some_iff.mp hc).1
  omega

theorem of_getElem? (h : NulFree b lo hi) (heq : ∀ k : ℕ, lo ≤ k → k < hi → b'[k]? = b[k]?) :
    NulFree b' lo hi := by
  intro k hlo hhi
  rw [heq k hlo hhi]
  exact h k hlo hhi

theorem store {v : UInt8} (h : NulFree b lo hi) (hs : store b i v = some b')
    (hv : i < lo ∨ hi ≤ i ∨ v ≠ 0) : NulFree b' lo hi := by
  obtain ⟨hi₀, hlt, rfl⟩ := store_eq_some hs
  intro k hlo hhi
  by_cases hk : i.toNat = k
  · subst hk
    refine ⟨v, List.getElem?_set_self (by omega), ?_⟩
    rcases hv with hv | hv | hv
    · omega
    · omega
    · exact hv
  · rw [List.getElem?_set_ne hk]
    exact h k hlo hhi

theorem storeBytes_self (hs : storeBytes b i y = some b') (hy : ∀ c ∈ y, c ≠ 0) :
    NulFree b' i (i + y.length) := by
  intro k hlo hhi
  rw [getElem?_storeBytes hs, if_pos ⟨hlo, hhi⟩]
  have hk : (k - i).toNat < y.length := by omega
  exact ⟨y[(k - i).toNat], List.getElem?_eq_getElem hk, hy _ (List.getElem_mem hk)⟩

theorem storeBytes_outside (h : NulFree b lo hi) (hs : storeBytes b i y = some b')
    (hout : hi ≤ i ∨ i + y.length ≤ lo) : NulFree b' lo hi := by
  refine h.of_getElem? fun k hlo hhi => ?_
  rw [getElem?_storeBytes hs, if_neg (by omega)]

/-- Writing at the end of the range makes it longer. -/
theorem extend (h : NulFree b lo i) (hs : ByteBlock.storeBytes b i y = some b')
    (hy : ∀ c ∈ y, c ≠ 0) : NulFree b' lo (i + y.length) :=
  (h.storeBytes_outside hs (.inl (Int.le_refl i))).append (storeBytes_self hs hy)

theorem push {v : UInt8} (h : NulFree b lo i) (hs : ByteBlock.store b i v = some b') (hv : v ≠ 0) :
    NulFree b' lo (i + 1) := by
  refine (h.store hs (.inr (.inl (Int.le_refl i)))).append fun k hlo hhi => ?_
  obtain ⟨hi₀, hlt, rfl⟩ := store_eq_some hs
  obtain rfl : i.toNat = k := by omega
  exact ⟨v, List.getElem?_set_self (by omega), hv⟩

/-- Writing within the range, or over its end. -/
theorem overwrite (h : NulFree b lo hi) (hs : ByteBlock.storeBytes b i y = some b') (hle : i ≤ hi)
    (hy : ∀ c ∈ y, c ≠ 0) : NulFree b' lo (max hi (i + y.length)) := by
  intro k hlo hhi
  by_cases hk : i ≤ k ∧ k < i + y.length
  · exact storeBytes_self hs hy k hk.1 hk.2
  · rw [getElem?_storeBytes hs, if_neg hk]
    exact h k hlo (by omega)

/-- A string written at the end of the range, with its terminator. -/
theorem extend_cstring (h : NulFree b lo i) (hs : ByteBlock.storeBytes b i (y ++ [0]) = some b')
    (hy : ∀ c ∈ y, c ≠ 0) : NulFree b' lo (i + y.length) := by
  refine (h.storeBytes_outside hs (.inl (Int.le_refl i))).append fun k hlo hhi => ?_
  have hk : (k - i).toNat < y.length := by omega
  rw [getElem?_storeBytes hs, if_pos ⟨hlo, by simp only [List.length_append]; omega⟩,
    List.getElem?_append_left hk]
  exact ⟨y[(k - i).toNat], List.getElem?_eq_getElem hk, hy _ (List.getElem_mem hk)⟩

/-- Bytes copied from another block. -/
theorem copy_self {dst src : ℤ} {w : Block} (h : NulFree b src (src + i))
    (hload : loadBytes b src n = some y) (hstore : ByteBlock.storeBytes w dst y = some b')
    (hi : i ≤ n) : NulFree b' dst (dst + i) := by
  obtain ⟨hlen, hy⟩ := getElem?_loadBytes hload
  intro k hlo hhi
  obtain ⟨hsrc, hk⟩ := hy (k - dst).toNat (by omega)
  rw [getElem?_storeBytes hstore, if_pos (by omega), hk]
  exact h _ (by omega) (by omega)

theorem memmove_self {dst src : ℤ} (h : NulFree b src (src + i)) (hs : memmove b dst src n = some b')
    (hi : i ≤ n) : NulFree b' dst (dst + i) := by
  obtain ⟨y, hload, hstore⟩ := Option.bind_eq_some_iff.mp hs
  exact h.copy_self hload hstore hi

theorem memmove_outside {dst src : ℤ} (h : NulFree b lo hi) (hs : memmove b dst src n = some b')
    (hout : hi ≤ dst ∨ dst + n ≤ lo) : NulFree b' lo hi := by
  obtain ⟨y, hload, hstore⟩ := Option.bind_eq_some_iff.mp hs
  have hlen := (getElem?_loadBytes hload).1
  exact h.storeBytes_outside hstore (by omega)

theorem realloc {junk : ℕ → UInt8} (h : NulFree b lo hi) (hs : realloc junk b n = some b')
    (hn : hi ≤ n) : NulFree b' lo hi := by
  refine h.of_getElem? fun k hlo hhi => ?_
  obtain ⟨c, hc, -⟩ := h k hlo hhi
  exact (realloc_eq_some hs).2 k (List.getElem?_eq_some_iff.mp hc).1 (by omega)

end NulFree

/-! ### Finding a token -/

/-- `token` stands at position `k` of the text. -/
def Occurs (token txt : Block) (k : ℕ) : Prop := token <+: txt.drop k

instance (token txt : Block) (k : ℕ) : Decidable (Occurs token txt k) :=
  inferInstanceAs (Decidable (token <+: txt.drop k))

theorem Occurs.le_length {token txt : Block} {k : ℕ} (h : Occurs token txt k)
    (htoken : token ≠ []) : k + token.length ≤ txt.length := by
  have hlen := h.length_le
  have hpos : 0 < token.length := List.length_pos_iff.mpr htoken
  simp only [List.length_drop] at hlen
  omega

theorem indexOf_spec (token txt : Block) :
    (∀ k, indexOf token txt = some k → Occurs token txt k ∧ ∀ i < k, ¬ Occurs token txt i) ∧
      (indexOf token txt = none → ∀ i, ¬ Occurs token txt i) := by
  induction txt with
  | nil =>
      by_cases h : token = []
      · subst h
        simp [indexOf, Occurs]
      · have hpre : token.isPrefixOf [] = false := by
          cases token with
          | nil => exact absurd rfl h
          | cons c z => rfl
        refine ⟨fun k hk => by simp [indexOf, hpre] at hk, fun _ i hi => h ?_⟩
        simpa [Occurs] using hi
  | cons c z ih =>
      rw [indexOf]
      by_cases h : token <+: c :: z
      · rw [if_pos (by simpa using h)]
        refine ⟨fun k hk => ?_, fun hk => by cases hk⟩
        obtain rfl := Option.some.inj hk
        exact ⟨h, fun i hi => absurd hi (by omega)⟩
      · rw [if_neg (by simpa using h)]
        refine ⟨fun k hk => ?_, fun hk i hi => ?_⟩
        · obtain ⟨j, hj, rfl⟩ := Option.map_eq_some_iff.mp hk
          obtain ⟨hocc, hbefore⟩ := ih.1 j hj
          refine ⟨hocc, fun i hi hocci => ?_⟩
          cases i with
          | zero => exact h hocci
          | succ i => exact hbefore i (by omega) hocci
        · cases i with
          | zero => exact h hi
          | succ i => exact ih.2 (Option.map_eq_none_iff.mp hk) i hi

theorem indexOf_le {token txt : Block} {k : ℕ} (h : indexOf token txt = some k) :
    k + token.length ≤ txt.length := by
  induction txt generalizing k with
  | nil =>
      cases token with
      | nil => simp [indexOf] at h; omega
      | cons c cs => simp [indexOf] at h
  | cons c cs ih =>
      rw [indexOf] at h
      split at h
      · rename_i hpre
        obtain rfl := Option.some.inj h
        simpa using (List.isPrefixOf_iff_prefix.mp hpre).length_le
      · obtain ⟨j, hj, rfl⟩ := Option.map_eq_some_iff.mp h
        have := ih hj
        rw [List.length_cons]
        omega

/-- A token is not found where its first byte is not. -/
theorem indexOf_of_head_notMem {c : UInt8} {token s : Block} (h : c ∉ s) : indexOf (c :: token) s = none := by
  induction s with
  | nil => rfl
  | cons b s ih =>
      obtain ⟨hb, hs⟩ : c ≠ b ∧ c ∉ s := by simpa using h
      have hne : (c :: token).isPrefixOf (b :: s) = false := by
        rw [List.isPrefixOf, beq_false_of_ne hb, Bool.false_and]
      rw [indexOf, hne, ih hs]
      rfl

/-! ### The end of a string -/

/-- The string at `s` has its terminator at `e`. -/
structure EndsAt (b : Block) (s e : ℕ) : Prop where
  le : s ≤ e
  nulFree : NulFree b s e
  terminator : b[e]? = some 0

namespace EndsAt

variable {s e : ℕ}

theorem drop (h : EndsAt b s e) {k : ℕ} (hs : s ≤ k) (he : k ≤ e) : EndsAt b k e :=
  ⟨he, h.nulFree.mono (by omega) (Int.le_refl _), h.terminator⟩

/-- Bytes without a terminator stand in front of it. -/
theorem le_of_nulFree (h : EndsAt b s e) {n : ℤ} (hn : NulFree b s n) : n ≤ e := by
  by_contra hlt
  obtain ⟨c, hc, hne⟩ := hn e (by have := h.le; omega) (by omega)
  rw [h.terminator] at hc
  exact hne (Option.some.inj hc).symm

theorem of_getElem? {b' : Block} (h : EndsAt b s e)
    (heq : ∀ k : ℕ, s ≤ k → k ≤ e → b'[k]? = b[k]?) : EndsAt b' s e := by
  refine ⟨h.le, h.nulFree.of_getElem? fun k hlo hhi => heq k (by omega) (by omega), ?_⟩
  rw [heq e h.le (Nat.le_refl e)]
  exact h.terminator

theorem storeBytes_below {b' : Block} {i : ℤ} (h : EndsAt b s e)
    (hs : storeBytes b i y = some b') (hi : i + y.length ≤ s) : EndsAt b' s e := by
  refine h.of_getElem? fun k hlo hhi => ?_
  rw [getElem?_storeBytes hs, if_neg (by omega)]

theorem memmove_below {b' : Block} {dst src n : ℤ} (h : EndsAt b s e)
    (hs : memmove b dst src n = some b') (hn : dst + n ≤ s) : EndsAt b' s e := by
  obtain ⟨y, hload, hstore⟩ := Option.bind_eq_some_iff.mp hs
  have hlen := (getElem?_loadBytes hload).1
  exact h.storeBytes_below hstore (by omega)

theorem of_hasString {txt : Block} (h : HasString b s txt) : EndsAt b s (s + txt.length) := by
  refine ⟨Nat.le_add_right _ _, fun k hlo hhi => ?_, h.getElem?_length⟩
  obtain ⟨i, rfl⟩ : ∃ i, k = s + i := ⟨k - s, by omega⟩
  have hi : i < txt.length := by omega
  exact ⟨txt[i], h.getElem? hi, h.2 _ (List.getElem_mem hi)⟩

theorem hasString (h : EndsAt b s e) : HasString b s ((b.drop s).take (e - s)) := by
  obtain ⟨he, heq⟩ := List.getElem?_eq_some_iff.mp h.terminator
  have hle := h.le
  refine ⟨⟨b.drop (e + 1), ?_⟩, ?_⟩
  · have hdrop : (b.drop s).drop (e - s) = 0 :: b.drop (e + 1) := by
      rw [List.drop_drop, show s + (e - s) = e by omega, List.drop_eq_getElem_cons he, heq]
    rw [← hdrop, List.take_append_drop]
  · intro c hc
    obtain ⟨i, hi, rfl⟩ := List.mem_iff_getElem.mp hc
    simp only [List.length_take, List.length_drop] at hi
    obtain ⟨c, hget, hne⟩ := h.nulFree (s + i) (by omega) (by omega)
    rw [List.getElem_take, List.getElem_drop]
    rw [List.getElem?_eq_getElem (by omega)] at hget
    rwa [Option.some.inj hget]

theorem cstring (h : EndsAt b s e) : cstring b s = some ((b.drop s).take (e - s)) :=
  h.hasString.cstring

theorem length_text (h : EndsAt b s e) : ((b.drop s).take (e - s)).length = e - s := by
  obtain ⟨he, -⟩ := List.getElem?_eq_some_iff.mp h.terminator
  simp only [List.length_take, List.length_drop]
  omega

theorem findByte {p : UInt8 → Bool} (h : EndsAt b s e) {q : ℕ}
    (hq : findByte p b s = some (some q)) : s ≤ q ∧ q < e := by
  rw [ByteBlock.findByte, h.cstring, Option.map_some, Option.some_inj] at hq
  obtain ⟨i, hi, rfl⟩ := Option.map_eq_some_iff.mp hq
  obtain ⟨hlt, -⟩ := List.findIdx?_eq_some_iff_getElem.mp hi
  rw [h.length_text] at hlt
  omega

theorem strstr {token : Block} (h : EndsAt b s e) {c : ℕ}
    (hc : strstr b s token = some (some c)) : s ≤ c ∧ c + token.length ≤ e := by
  rw [ByteBlock.strstr, h.cstring, Option.map_some, Option.some_inj] at hc
  obtain ⟨i, hi, rfl⟩ := Option.map_eq_some_iff.mp hc
  have hle := indexOf_le hi
  have := h.le
  rw [h.length_text] at hle
  omega

end EndsAt

theorem hasString_of_cstring {s : ℕ} {txt : Block} (h : cstring b s = some txt) :
    HasString b s txt := by
  unfold cstring at h
  dsimp only at h
  split at h
  · rename_i hlt
    obtain rfl := Option.some.inj h
    refine ⟨?_, fun c hc => by simpa using List.mem_takeWhile_imp hc⟩
    have hsplit := List.takeWhile_append_dropWhile (p := (· != 0)) (l := b.drop s)
    cases hrest : (b.drop s).dropWhile (· != 0) with
    | nil =>
        rw [hrest, List.append_nil] at hsplit
        rw [hsplit] at hlt
        exact absurd hlt (Nat.lt_irrefl _)
    | cons c rest =>
        have hhead := List.head_dropWhile_not (· != 0) (l := b.drop s) (by simp [hrest])
        simp only [hrest, List.head_cons, bne_eq_false_iff_eq] at hhead
        subst hhead
        exact ⟨rest, by rw [← hrest, hsplit]⟩
  · cases h

theorem EndsAt.of_cstring {s : ℕ} {txt : Block} (h : ByteBlock.cstring b s = some txt) :
    EndsAt b s (s + txt.length) :=
  of_hasString (hasString_of_cstring h)

end ByteBlock
