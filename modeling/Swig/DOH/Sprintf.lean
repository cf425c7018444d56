import Swig.Errors.FilterText

/-!
`sprintf` of the C library, for the conversions of numbers, characters and strings.
-/

namespace Swig.DOH

open Errors (decimal digitsVal)

/-! ### Conversions -/

/-- The digits of a number, in lower case. -/
def numeral (base n : ℕ) : List Byte := (Nat.toDigits base n).map chr

def toupper (c : Byte) : Byte := if islower c then c - 32 else c

def isFlag (c : Byte) : Bool := c ∈ lit "-+ #0"

/-- A conversion specification. -/
structure Conversion where
  flags : List Byte
  width : ℕ
  precision : Option ℕ
  code : Byte
  deriving DecidableEq

def parsePrecision : List Byte → Option ℕ × List Byte
  | [] => (none, [])
  | c :: s =>
      if c = chr '.' then (some (digitsVal (s.takeWhile isdigit)), s.dropWhile isdigit) else (none, c :: s)

/-- A format that is one conversion. Others have no meaning, and neither has a width or a
precision that an `int` does not hold. -/
def parseConversion : List Byte → Option Conversion
  | [] => none
  | c :: s =>
      let rest := s.dropWhile isFlag
      let width := digitsVal (rest.takeWhile isdigit)
      let (precision, rest) := parsePrecision (rest.dropWhile isdigit)
      match rest with
      | [code] =>
          if c = chr '%' ∧ width < 2 ^ 31 ∧ precision.getD 0 < 2 ^ 31 then
            some ⟨s.takeWhile isFlag, width, precision, code⟩
          else none
      | _ => none

namespace Conversion

variable (k : Conversion)

/-- Blanks up to the width. -/
def pad (s : List Byte) : List Byte :=
  let blanks := List.replicate (k.width - s.length) (chr ' ')
  if chr '-' ∈ k.flags then s ++ blanks else blanks ++ s

/-- The digits of a number, zeros among them up to the precision. -/
def digits (base n : ℕ) : List Byte :=
  let ds := if n = 0 then [] else numeral base n
  List.replicate (k.precision.getD 1 - ds.length) (chr '0') ++ ds

/-- The `int` as an `unsigned int`. -/
def unsigned (v : ℤ) : ℕ := (v % 2 ^ 32).toNat

/-- What stands before the digits of the number, and the digits. -/
def parts (v : ℤ) : List Byte × List Byte :=
  if k.code = chr 'd' ∨ k.code = chr 'i' then
    (if v < 0 then lit "-" else if chr '+' ∈ k.flags then lit "+" else if chr ' ' ∈ k.flags then lit " " else [],
      k.digits 10 v.natAbs)
  else if k.code = chr 'o' then
    (if chr '#' ∈ k.flags ∧ (k.digits 8 (unsigned v)).head? ≠ some (chr '0') then lit "0" else [],
      k.digits 8 (unsigned v))
  else if k.code = chr 'u' then ([], k.digits 10 (unsigned v))
  else if k.code = chr 'x' then
    (if chr '#' ∈ k.flags ∧ unsigned v ≠ 0 then lit "0x" else [], k.digits 16 (unsigned v))
  else (if chr '#' ∈ k.flags ∧ unsigned v ≠ 0 then lit "0X" else [], (k.digits 16 (unsigned v)).map toupper)

/-- `%d`, `%i`, `%o`, `%u`, `%x` and `%X`. -/
def number (v : ℤ) : List Byte :=
  let zeros := List.replicate (k.width - ((k.parts v).1.length + (k.parts v).2.length)) (chr '0')
  if chr '0' ∈ k.flags ∧ chr '-' ∉ k.flags ∧ k.precision = none then (k.parts v).1 ++ zeros ++ (k.parts v).2
  else k.pad ((k.parts v).1 ++ (k.parts v).2)

/-- `%c`. -/
def character (v : ℤ) : List Byte := k.pad [UInt8.ofNat (v % 256).toNat]

/-- `%s`. -/
def string (s : List Byte) : List Byte := k.pad (s.take (k.precision.getD s.length))

end Conversion

/-- `sprintf` of an `int`. -/
def sprintfInt (format : List Byte) (v : ℤ) : Option (List Byte) :=
  (parseConversion format).bind fun k =>
    if k.code ∈ lit "dioxXu" then some (k.number v) else if k.code = chr 'c' then some (k.character v) else none

/-- `sprintf` of a string. -/
def sprintfString (format s : List Byte) : Option (List Byte) :=
  (parseConversion format).bind fun k => if k.code = chr 's' then some (k.string s) else none

example : sprintfInt (lit "%-6.3d") (-7) = some (lit "-007  ") := by decide

example : sprintfInt (lit "%#06x") 255 = some (lit "0x00ff") := by decide

/-! ### Numerals -/

theorem mem_toDigits {b n : ℕ} (hb : 1 < b) {c : Char} (h : c ∈ Nat.toDigits b n) : ∃ d < b, c = d.digitChar := by
  induction n using Nat.strong_induction_on with
  | _ n ih =>
      by_cases hn : n < b
      · rw [Nat.toDigits_of_lt_base hn, List.mem_singleton] at h
        exact ⟨n, hn, h⟩
      · rw [Nat.toDigits_of_base_le hb (Nat.le_of_not_lt hn), List.mem_append, List.mem_singleton] at h
        rcases h with h | h
        · exact ih (n / b) (Nat.div_lt_self (by omega) hb) h
        · exact ⟨n % b, Nat.mod_lt _ (by omega), h⟩

theorem digitVal_chr {c : Char} (h : c.isDigit) : digitVal (chr c) = c.toNat - '0'.toNat := by
  rw [Char.isDigit, Bool.and_eq_true, decide_eq_true_iff, decide_eq_true_iff] at h
  have h₁ : 48 ≤ c.toNat := h.1
  have h₂ : c.toNat ≤ 57 := h.2
  have hc : (chr c).toNat = c.toNat := Nat.mod_eq_of_lt (by omega)
  have hle : chr '0' ≤ chr c := by
    rw [UInt8.le_iff_toNat_le, hc]
    exact h₁
  rw [digitVal, UInt8.toNat_sub_of_le _ _ hle, hc]
  rfl

theorem digitsVal_decimal (n : ℕ) : digitsVal (decimal n) = n := by
  have hfold : ∀ (cs : List Char) (m : ℕ), (∀ c ∈ cs, c.isDigit) →
      (cs.map chr).foldl (fun n d => 10 * n + digitVal d) m = Nat.ofDigitChars 10 cs m := by
    intro cs
    induction cs with
    | nil => exact fun _ _ => rfl
    | cons c cs ih =>
        intro m h
        obtain ⟨hc, hcs⟩ := List.forall_mem_cons.mp h
        rw [List.map_cons, List.foldl_cons, digitVal_chr hc, ih _ hcs, Nat.ofDigitChars_cons]
  have hdigits : ∀ c ∈ Nat.toDigits 10 n, c.isDigit := fun c => Nat.isDigit_of_mem_toDigits (by decide) (by decide)
  exact (hfold _ 0 hdigits).trans Nat.ofDigitChars_ten_toDigits

/-- The first digit of a number that is not 0. -/
theorem decimal_head {n : ℕ} (hn : n ≠ 0) : ∃ c cs, decimal n = c :: cs ∧ c ≠ chr '0' := by
  induction n using Nat.strong_induction_on with
  | _ n ih =>
      by_cases hlt : n < 10
      · have hall : ∀ d < 10, d ≠ 0 → chr d.digitChar ≠ chr '0' := by decide
        exact ⟨_, _, by rw [decimal, Nat.toDigits_of_lt_base hlt]; rfl, hall n hlt hn⟩
      · have hdiv : n / 10 ≠ 0 := by omega
        obtain ⟨c, cs, hcs, hc⟩ := ih (n / 10) (by omega) hdiv
        rw [decimal] at hcs
        refine ⟨c, cs ++ [chr (n % 10).digitChar], ?_, hc⟩
        rw [decimal, Nat.toDigits_of_base_le (by decide) (Nat.le_of_not_lt hlt), List.map_append, hcs,
          List.cons_append]
        rfl

theorem length_numeral {b n : ℕ} (hb : 8 ≤ b) (hn : n < 2 ^ 32) : (numeral b n).length ≤ 11 := by
  rw [numeral, List.length_map, Nat.length_toDigits_le_iff (by omega) (by decide)]
  calc
    n < 8 ^ 11 := by omega
    _ ≤ b ^ 11 := Nat.pow_le_pow_left hb 11

theorem numeral_ne_zero {b n : ℕ} (hb : 1 < b) (hb' : b ≤ 16) : ∀ c ∈ numeral b n, c ≠ 0 := by
  intro c hc
  obtain ⟨ch, hch, rfl⟩ := List.mem_map.mp hc
  obtain ⟨d, hd, rfl⟩ := mem_toDigits hb hch
  have hall : ∀ d < 16, chr d.digitChar ≠ 0 := by decide
  exact hall d (by omega)

/-! ### Lengths -/

namespace Conversion

variable (k : Conversion)

theorem length_pad (s : List Byte) : (k.pad s).length = max k.width s.length := by
  rw [pad]
  split
  · rw [List.length_append, List.length_replicate]
    omega
  · rw [List.length_append, List.length_replicate]
    omega

theorem length_number (v : ℤ) : (k.number v).length = max k.width ((k.parts v).1.length + (k.parts v).2.length) := by
  rw [number]
  split
  · rw [List.length_append, List.length_append, List.length_replicate]
    omega
  · rw [length_pad, List.length_append]

theorem length_digits (base n : ℕ) :
    (k.digits base n).length = max (k.precision.getD 1) (if n = 0 then [] else numeral base n).length := by
  rw [digits, List.length_append, List.length_replicate]
  omega

/-- The digits that are not there for the precision are eleven at most. -/
theorem length_digits_le {base n : ℕ} (hbase : 8 ≤ base) (hn : n < 2 ^ 32) :
    k.precision.getD 0 ≤ (k.digits base n).length ∧ (k.digits base n).length ≤ max (k.precision.getD 0) 11 := by
  have hlen : (if n = 0 then [] else numeral base n).length ≤ 11 := by
    split
    · exact Nat.zero_le _
    · exact length_numeral hbase hn
  rw [length_digits]
  cases k.precision with
  | none => simp only [Option.getD_none]; omega
  | some p => simp only [Option.getD_some]; omega

theorem unsigned_lt (v : ℤ) : unsigned v < 2 ^ 32 := by
  rw [unsigned]
  omega

theorem length_parts {v : ℤ} (hv : v.natAbs < 2 ^ 32) :
    (k.parts v).1.length ≤ 2 ∧ k.precision.getD 0 ≤ (k.parts v).2.length ∧
      (k.parts v).2.length ≤ max (k.precision.getD 0) 11 := by
  rw [parts]
  split
  · refine ⟨?_, k.length_digits_le (by decide) hv⟩
    split_ifs <;> dsimp only <;> decide
  · split
    · refine ⟨?_, k.length_digits_le (by decide) (unsigned_lt v)⟩
      split_ifs <;> dsimp only <;> decide
    · split
      · exact ⟨Nat.zero_le 2, k.length_digits_le (by decide) (unsigned_lt v)⟩
      · split
        · refine ⟨?_, k.length_digits_le (by decide) (unsigned_lt v)⟩
          split_ifs <;> dsimp only <;> decide
        · rw [List.length_map]
          refine ⟨?_, k.length_digits_le (by decide) (unsigned_lt v)⟩
          split_ifs <;> dsimp only <;> decide

/-- In a buffer of some size the digits of the number itself do not matter. -/
theorem length_number_lt_iff {v : ℤ} (hv : v.natAbs < 2 ^ 32) {size : ℕ} (hsize : 512 ≤ size) :
    (k.number v).length < size ↔ k.width < size ∧ (k.parts v).1.length + k.precision.getD 0 < size := by
  have hparts := k.length_parts hv
  rw [length_number]
  omega

end Conversion

end Swig.DOH
