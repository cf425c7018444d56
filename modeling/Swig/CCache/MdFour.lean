import Swig.Lib.BlockHash
import Mathlib.Algebra.Group.Nat.Defs
import Mathlib.Algebra.GroupWithZero.Nat
import Mathlib.Data.List.GetD
import Mathlib.Data.List.TakeDrop

/-!
The checksum of the compiler cache (`mdfour.c`): MD4, fed in parts of any size.

The functions of the source work on the `struct mdfour` that `m` points to; here
it is passed along.
-/

namespace Swig.CCache

/-- The four words of the checksum. -/
structure Words where
  A : UInt32
  B : UInt32
  C : UInt32
  D : UInt32
  deriving DecidableEq

/-- The words, and the number of bytes that went into them. -/
structure Sum extends Words where
  totalN : UInt32

/-- `struct mdfour`: `tail` is the part of the buffer that is in use. -/
structure MdFour extends Sum where
  tail : List UInt8
  tail_lt : tail.length < 64

def F (X Y Z : UInt32) : UInt32 := (X &&& Y) ||| (~~~X &&& Z)

def G (X Y Z : UInt32) : UInt32 := (X &&& Y) ||| (X &&& Z) ||| (Y &&& Z)

def H (X Y Z : UInt32) : UInt32 := X ^^^ Y ^^^ Z

def lshift (x s : UInt32) : UInt32 := (x <<< s) ||| (x >>> (32 - s))

section Rounds

variable (M : List UInt32)

def ROUND1 (a b c d : UInt32) (k : ℕ) (s : UInt32) : UInt32 := lshift (a + F b c d + M.getD k 0) s

def ROUND2 (a b c d : UInt32) (k : ℕ) (s : UInt32) : UInt32 := lshift (a + G b c d + M.getD k 0 + 0x5A827999) s

def ROUND3 (a b c d : UInt32) (k : ℕ) (s : UInt32) : UInt32 := lshift (a + H b c d + M.getD k 0 + 0x6ED9EBA1) s

/-- Four steps of a round, each of which changes one word. -/
def steps (round : UInt32 → UInt32 → UInt32 → UInt32 → ℕ → UInt32 → UInt32) (s₀ s₁ s₂ s₃ : UInt32)
    (m : Words) (k₀ k₁ k₂ k₃ : ℕ) : Words :=
  let A := round m.A m.B m.C m.D k₀ s₀
  let D := round m.D A m.B m.C k₁ s₁
  let C := round m.C D A m.B k₂ s₂
  let B := round m.B C D A k₃ s₃
  ⟨A, B, C, D⟩

/-- One block of 16 words. -/
def mdfour64 (m : Words) : Words :=
  let r1 := steps (ROUND1 M) 3 7 11 19
  let r2 := steps (ROUND2 M) 3 5 9 13
  let r3 := steps (ROUND3 M) 3 9 11 15
  let w := r1 m 0 1 2 3
  let w := r1 w 4 5 6 7
  let w := r1 w 8 9 10 11
  let w := r1 w 12 13 14 15
  let w := r2 w 0 4 8 12
  let w := r2 w 1 5 9 13
  let w := r2 w 2 6 10 14
  let w := r2 w 3 7 11 15
  let w := r3 w 0 8 4 12
  let w := r3 w 2 10 6 14
  let w := r3 w 1 9 5 13
  let w := r3 w 3 11 7 15
  ⟨w.A + m.A, w.B + m.B, w.C + m.C, w.D + m.D⟩

end Rounds

/-- The words of a block, their low bytes first. -/
def copy64 (inp : List UInt8) : List UInt32 :=
  (List.range 16).map fun i =>
    (inp.getD (i * 4 + 3) 0).toUInt32 <<< 24 ||| (inp.getD (i * 4 + 2) 0).toUInt32 <<< 16 |||
      (inp.getD (i * 4 + 1) 0).toUInt32 <<< 8 ||| (inp.getD (i * 4 + 0) 0).toUInt32 <<< 0

/-- The bytes that `copy4` writes. -/
def bytes4 (x : UInt32) : List UInt8 := [x.toUInt8, (x >>> 8).toUInt8, (x >>> 16).toUInt8, (x >>> 24).toUInt8]

/-- `x` at the place `out` of a buffer. -/
def copy4 (buf : List UInt8) (out : ℕ) (x : UInt32) : List UInt8 :=
  buf.take out ++ bytes4 x ++ buf.drop (out + 4)

/-- One block of bytes into the words. -/
def compress (m : Words) (block : List UInt8) : Words := mdfour64 (copy64 block) m

/-- A block that counts as part of the message. -/
def takeBlock (m : Sum) (block : List UInt8) : Sum := { compress m.toWords block with totalN := m.totalN + 64 }

def initial : Words := ⟨0x67452301, 0xefcdab89, 0x98badcfe, 0x10325476⟩

def mdfourBegin : MdFour := { initial with totalN := 0, tail := [], tail_lt := by decide }

/-- The last bytes of a message, with the padding and the length of the message behind them. -/
def mdfourTail (m : Sum) (inp : List UInt8) : Sum :=
  let n := inp.length
  let totalN := m.totalN + n.toUInt32
  let b := totalN * 8
  let buf := inp ++ 0x80 :: List.replicate (127 - n) 0
  if n ≤ 55 then
    { compress m.toWords (copy4 buf 56 b) with totalN }
  else
    let buf := copy4 buf 120 b
    { compress (compress m.toWords buf) (buf.drop 64) with totalN }

/-- What is in the buffer is filled up to a block as far as the input goes: the
words, the buffer and the input after that. -/
def fillTail (m : Sum) (tail inp : List UInt8) : Sum × List UInt8 × List UInt8 :=
  if tail ≠ [] then
    let len := min (64 - tail.length) inp.length
    let tail := tail ++ inp.take len
    if tail.length = 64 then (takeBlock m tail, [], inp.drop len) else (m, tail, inp.drop len)
  else (m, tail, inp)

/-- The words and the buffer after some input. -/
def take (m : Sum) (tail inp : List UInt8) : Sum × List UInt8 :=
  let (m, tail, inp) := fillTail m tail inp
  let (m, inp) := BlockHash.absorb 64 takeBlock m inp
  (m, if inp ≠ [] then inp else tail)

variable {m : Sum} {tail inp : List UInt8}

theorem fillTail_full (hne : tail ≠ []) (htail : tail.length < 64) (h : 64 - tail.length ≤ inp.length) :
    fillTail m tail inp =
      (takeBlock m (tail ++ inp.take (64 - tail.length)), [], inp.drop (64 - tail.length)) := by
  have hlen : (tail ++ inp.take (64 - tail.length)).length = 64 := by
    rw [List.length_append, List.length_take]
    omega
  rw [fillTail, if_pos hne, Nat.min_eq_left h]
  exact if_pos hlen

theorem fillTail_part (hne : tail ≠ []) (h : inp.length < 64 - tail.length) :
    fillTail m tail inp = (m, tail ++ inp, []) := by
  have hlen : (tail ++ inp).length ≠ 64 := by
    rw [List.length_append]
    omega
  rw [fillTail, if_pos hne, Nat.min_eq_right (Nat.le_of_lt h)]
  dsimp only
  rw [List.take_length, List.drop_length, if_neg hlen]

theorem ite_ne_nil (xs : List UInt8) : (if xs ≠ [] then xs else []) = xs := by
  split_ifs with h
  · rfl
  · exact (not_not.mp h).symm

/-- The buffer stands in front of the input. -/
theorem take_eq (htail : tail.length < 64) : take m tail inp = BlockHash.absorb 64 takeBlock m (tail ++ inp) := by
  rw [take]
  rcases eq_or_ne tail [] with rfl | hne
  · rw [fillTail, if_neg (not_not.mpr rfl)]
    exact Prod.ext rfl (ite_ne_nil _)
  · rcases Nat.lt_or_ge inp.length (64 - tail.length) with h | h
    · -- the input is used up
      rw [fillTail_part hne h]
      dsimp only
      rw [BlockHash.absorb_lt (by decide), BlockHash.absorb_lt (by rw [List.length_append]; omega)]
      rfl
    · -- the buffer becomes a block
      have hlen : (tail ++ inp.take (64 - tail.length)).length = 64 := by
        rw [List.length_append, List.length_take]
        omega
      have hsplit : tail ++ inp = (tail ++ inp.take (64 - tail.length)) ++ inp.drop (64 - tail.length) := by
        rw [List.append_assoc, List.take_append_drop]
      rw [fillTail_full hne htail h, hsplit, BlockHash.absorb_block hlen]
      exact Prod.ext rfl (ite_ne_nil _)

theorem take_lt (htail : tail.length < 64) : (take m tail inp).2.length < 64 := by
  rw [take_eq htail]
  exact BlockHash.absorb_length_lt

/-- The next part of a message, or its end. -/
def mdfourUpdate (md : MdFour) : Option (List UInt8) → MdFour
  | none => { md with toSum := mdfourTail md.toSum md.tail }
  | some inp => { (take md.toSum md.tail inp).1 with
      tail := (take md.toSum md.tail inp).2, tail_lt := take_lt md.tail_lt }

def mdfourResult (m : Words) : List UInt8 := bytes4 m.A ++ bytes4 m.B ++ bytes4 m.C ++ bytes4 m.D

def mdfour (inp : List UInt8) : List UInt8 :=
  let md := mdfourUpdate mdfourBegin (some inp)
  let md := mdfourUpdate md none
  mdfourResult md.toWords

/-! ### Parts of a message -/

/-- A part behind another part. -/
theorem mdfourUpdate_append (md : MdFour) (xs ys : List UInt8) :
    mdfourUpdate (mdfourUpdate md (some xs)) (some ys) = mdfourUpdate md (some (xs ++ ys)) := by
  have h : take (take md.toSum md.tail xs).1 (take md.toSum md.tail xs).2 ys = take md.toSum md.tail (xs ++ ys) := by
    rw [take_eq (take_lt md.tail_lt), take_eq md.tail_lt, take_eq md.tail_lt, ← List.append_assoc,
      BlockHash.absorb_append (md.tail ++ xs)]
  simp only [mdfourUpdate, h]

theorem mdfourUpdate_nil (md : MdFour) : mdfourUpdate md (some []) = md := by
  have h : take md.toSum md.tail [] = (md.toSum, md.tail) := by
    rw [take_eq md.tail_lt, List.append_nil, BlockHash.absorb_lt md.tail_lt]
  simp only [mdfourUpdate, h]

/-- All parts, one after the other. -/
theorem foldl_update (md : MdFour) (parts : List (List UInt8)) :
    parts.foldl (fun md part => mdfourUpdate md (some part)) md = mdfourUpdate md (some parts.flatten) := by
  induction parts generalizing md with
  | nil => exact (mdfourUpdate_nil md).symm
  | cons part parts ih => rw [List.foldl_cons, ih, mdfourUpdate_append, List.flatten_cons]

/-! ### The padding -/

/-- A length in bits, as eight bytes. -/
def lengthBytes (n : ℕ) : List UInt8 := (List.range 8).map fun i => UInt8.ofNat (n / 2 ^ (8 * i))

/-- A message with the bit that ends it and its length, in whole blocks. -/
def padded (msg : List UInt8) : List UInt8 :=
  msg ++ 0x80 :: (List.replicate ((119 - msg.length % 64) % 64) 0 ++ lengthBytes (8 * msg.length))

/-- MD4 of a message in one piece. -/
def md4 (msg : List UInt8) : List UInt8 := mdfourResult (BlockHash.absorb 64 compress initial (padded msg)).1

theorem copy64_append {a b : List UInt8} (h : 64 ≤ a.length) : copy64 (a ++ b) = copy64 a := by
  refine List.map_congr_left fun i hi => ?_
  have hi := List.mem_range.mp hi
  simp only [List.getD_append a b 0 _ (show i * 4 + 3 < a.length by omega),
    List.getD_append a b 0 _ (show i * 4 + 2 < a.length by omega),
    List.getD_append a b 0 _ (show i * 4 + 1 < a.length by omega),
    List.getD_append a b 0 _ (show i * 4 + 0 < a.length by omega)]

theorem compress_append {w : Words} {a b : List UInt8} (h : 64 ≤ a.length) :
    compress w (a ++ b) = compress w a := by
  rw [compress, compress, copy64_append h]

theorem copy4_zeros (a : List UInt8) (k : ℕ) (x : UInt32) :
    copy4 (a ++ List.replicate (k + 4) 0) a.length x = a ++ (bytes4 x ++ List.replicate k 0) := by
  rw [copy4, List.take_left, ← List.drop_drop, List.drop_left, List.drop_replicate, Nat.add_sub_cancel,
    List.append_assoc]

theorem absorb_totalN (m : Sum) (xs : List UInt8) :
    (BlockHash.absorb 64 takeBlock m xs).1.totalN + (BlockHash.absorb 64 takeBlock m xs).2.length.toUInt32 =
      m.totalN + xs.length.toUInt32 := by
  induction xs using BlockHash.block_induction (n := 64) generalizing m with
  | hlt xs h => rw [BlockHash.absorb_lt h]
  | hblock b xs hb ih =>
      rw [BlockHash.absorb_block hb, ih, List.length_append, hb]
      show m.totalN + 64 + UInt32.ofNat xs.length = m.totalN + UInt32.ofNat (64 + xs.length)
      rw [UInt32.ofNat_add, ← UInt32.add_assoc]
      rfl

theorem bytes4_eq (x : UInt32) : bytes4 x =
    [UInt8.ofNat x.toNat, UInt8.ofNat (x.toNat / 2 ^ 8), UInt8.ofNat (x.toNat / 2 ^ 16),
      UInt8.ofNat (x.toNat / 2 ^ 24)] := by
  have hbyte (y : UInt32) : y.toUInt8 = UInt8.ofNat y.toNat := by
    rw [← UInt8.toNat_inj, UInt32.toNat_toUInt8, UInt8.toNat_ofNat']
  rw [bytes4, hbyte, hbyte, hbyte, hbyte, UInt32.toNat_shiftRight, UInt32.toNat_shiftRight, UInt32.toNat_shiftRight]
  simp only [Nat.shiftRight_eq_div_pow]
  rfl

/-- The low half of the length, with nothing in the high half. -/
theorem lengthBytes_eq {n : ℕ} (hn : n < 2 ^ 29) :
    lengthBytes (8 * n) = bytes4 (n.toUInt32 * 8) ++ List.replicate 4 0 := by
  have hx : (n.toUInt32 * 8).toNat = 8 * n := by
    rw [UInt32.toNat_mul, Nat.toUInt32, UInt32.toNat_ofNat']
    show n % 2 ^ 32 * 8 % 2 ^ 32 = 8 * n
    omega
  have hzero (i : ℕ) (hi : 4 ≤ i) : UInt8.ofNat (8 * n / 2 ^ (8 * i)) = 0 := by
    have hpow : 2 ^ 32 ≤ 2 ^ (8 * i) := Nat.pow_le_pow_right (by decide) (by omega)
    rw [Nat.div_eq_of_lt (by omega)]
    rfl
  have hsplit : lengthBytes (8 * n) = [UInt8.ofNat (8 * n / 2 ^ 0), UInt8.ofNat (8 * n / 2 ^ 8),
      UInt8.ofNat (8 * n / 2 ^ 16), UInt8.ofNat (8 * n / 2 ^ 24), UInt8.ofNat (8 * n / 2 ^ (8 * 4)),
      UInt8.ofNat (8 * n / 2 ^ (8 * 5)), UInt8.ofNat (8 * n / 2 ^ (8 * 6)), UInt8.ofNat (8 * n / 2 ^ (8 * 7))] := rfl
  rw [hsplit, hzero 4 (by decide), hzero 5 (by decide), hzero 6 (by decide), hzero 7 (by decide), bytes4_eq, hx,
    Nat.pow_zero, Nat.div_one]
  rfl

/-- A last block, and nothing behind it. -/
theorem absorb_last {w : Words} {b : List UInt8} (h : b.length = 64) :
    BlockHash.absorb 64 compress w b = (compress w b, []) := by
  have habsorb : BlockHash.absorb 64 compress w (b ++ []) = _ := BlockHash.absorb_block h
  rw [List.append_nil] at habsorb
  rw [habsorb, BlockHash.absorb_lt (by decide)]

/-- The padding as the source writes it into its buffer. -/
theorem mdfourTail_eq {m : Sum} {tail : List UInt8} {n : ℕ} (htail : tail.length < 64) (hmod : n % 64 = tail.length)
    (hn : n < 2 ^ 29) (htotal : m.totalN + tail.length.toUInt32 = n.toUInt32) :
    (BlockHash.absorb 64 compress m.toWords
      (tail ++ 0x80 :: (List.replicate ((119 - n % 64) % 64) 0 ++ lengthBytes (8 * n)))).1 =
      (mdfourTail m tail).toWords := by
  have hsplit (k l : ℕ) (h : 127 - tail.length = k + l) : tail ++ 0x80 :: List.replicate (127 - tail.length) (0 : UInt8) =
      (tail ++ 0x80 :: List.replicate k 0) ++ List.replicate l 0 := by
    rw [h, List.append_assoc, List.cons_append, List.replicate_append_replicate]
  have hlength (k : ℕ) : (tail ++ 0x80 :: List.replicate k (0 : UInt8)).length = tail.length + k + 1 := by
    rw [List.length_append, List.length_cons, List.length_replicate]
    omega
  have hcons (k : ℕ) (bs : List UInt8) : tail ++ 0x80 :: (List.replicate k 0 ++ bs) =
      (tail ++ 0x80 :: List.replicate k 0) ++ bs := by
    rw [List.append_assoc, List.cons_append]
  have hbytes (x : UInt32) (k : ℕ) : (bytes4 x ++ List.replicate k (0 : UInt8)).length = k + 4 := by
    rw [List.length_append, List.length_replicate]
    exact Nat.add_comm 4 k
  rw [hmod, lengthBytes_eq hn, mdfourTail, hcons]
  dsimp only
  rw [htotal]
  split_ifs with h
  · -- one block
    have hk : (119 - tail.length) % 64 = 55 - tail.length := by omega
    have h56 := hlength (55 - tail.length)
    rw [show tail.length + (55 - tail.length) + 1 = 56 by omega] at h56
    have hcopy := copy4_zeros (tail ++ 0x80 :: List.replicate (55 - tail.length) 0) 68 (n.toUInt32 * 8)
    have hblock : ((tail ++ 0x80 :: List.replicate (55 - tail.length) 0) ++
        (bytes4 (n.toUInt32 * 8) ++ List.replicate 4 0)).length = 64 := by
      rw [List.length_append, h56, hbytes]
    have hzeros : List.replicate 68 (0 : UInt8) = List.replicate 4 0 ++ List.replicate 64 0 := rfl
    rw [h56, hzeros, ← List.append_assoc (bytes4 _), ← List.append_assoc] at hcopy
    rw [hk, hsplit (55 - tail.length) (68 + 4) (by omega), hcopy, compress_append (Nat.le_of_eq hblock.symm),
      absorb_last hblock]
  · -- two blocks
    have hk : (119 - tail.length) % 64 = 119 - tail.length := by omega
    have h120 := hlength (119 - tail.length)
    rw [show tail.length + (119 - tail.length) + 1 = 120 by omega] at h120
    have hcopy := copy4_zeros (tail ++ 0x80 :: List.replicate (119 - tail.length) 0) 4 (n.toUInt32 * 8)
    rw [h120] at hcopy
    rw [hk, hsplit (119 - tail.length) (4 + 4) (by omega), hcopy]
    generalize hbuf : (tail ++ 0x80 :: List.replicate (119 - tail.length) 0) ++
      (bytes4 (n.toUInt32 * 8) ++ List.replicate 4 0) = buf
    have h128 : buf.length = 128 := by rw [← hbuf, List.length_append, h120, hbytes]
    have htake : (buf.take 64).length = 64 := by
      rw [List.length_take, h128]
      rfl
    have hdrop : (buf.drop 64).length = 64 := by rw [List.length_drop, h128]
    have hfirst : compress m.toWords buf = compress m.toWords (buf.take 64) := by
      conv_lhs => rw [← List.take_append_drop 64 buf]
      exact compress_append (Nat.le_of_eq htake.symm)
    have habsorb : BlockHash.absorb 64 compress m.toWords (buf.take 64 ++ buf.drop 64) = _ := BlockHash.absorb_block htake
    rw [List.take_append_drop, absorb_last hdrop] at habsorb
    rw [habsorb, hfirst]

/-- A message that comes in parts of any size, its end, and the checksum: MD4 of
the whole message, as long as its length in bits fits into the word that holds it. -/
theorem checksum_of_parts (parts : List (List UInt8)) (hlen : parts.flatten.length < 2 ^ 29) :
    mdfourResult (mdfourUpdate (parts.foldl (fun md part => mdfourUpdate md (some part)) mdfourBegin) none).toWords =
      md4 parts.flatten := by
  generalize hmsg : parts.flatten = msg at hlen
  have hparts := foldl_update mdfourBegin parts
  have htake : take mdfourBegin.toSum mdfourBegin.tail msg = _ := take_eq mdfourBegin.tail_lt
  have hwords : BlockHash.absorb 64 compress mdfourBegin.toSum.toWords msg =
      ((BlockHash.absorb 64 takeBlock mdfourBegin.toSum msg).1.toWords,
        (BlockHash.absorb 64 takeBlock mdfourBegin.toSum msg).2) := BlockHash.absorb_map fun s b => rfl
  have htotal := absorb_totalN mdfourBegin.toSum msg
  have hmod : (BlockHash.absorb 64 takeBlock mdfourBegin.toSum msg).2.length = _ := BlockHash.absorb_length
  have hend := mdfourTail_eq (m := (BlockHash.absorb 64 takeBlock mdfourBegin.toSum msg).1)
    BlockHash.absorb_length_lt hmod.symm hlen (htotal.trans (UInt32.zero_add _))
  have hinitial : BlockHash.absorb 64 compress initial msg =
      ((BlockHash.absorb 64 takeBlock mdfourBegin.toSum msg).1.toWords,
        (BlockHash.absorb 64 takeBlock mdfourBegin.toSum msg).2) := hwords
  rw [hparts, hmsg, md4, padded, BlockHash.absorb_append, hinitial]
  dsimp only
  rw [hend]
  simp only [mdfourUpdate, htake]
  rfl

theorem checksum_of_parts_abc :
    mdfourResult (mdfourUpdate
      ([[97], [98, 99]].foldl (fun md part => mdfourUpdate md (some part)) mdfourBegin) none).toWords =
      md4 [97, 98, 99] :=
  checksum_of_parts [[97], [98, 99]] (by decide)

example : mdfour [] = [0x31, 0xd6, 0xcf, 0xe0, 0xd1, 0x6a, 0xe9, 0x31, 0xb7, 0x3c, 0x59, 0xd7, 0xe0, 0xc0, 0x89, 0xc0] := by
  decide +kernel

end Swig.CCache
