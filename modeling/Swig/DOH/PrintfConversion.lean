import Swig.DOH.PrintfDirective

/-!
The conversion that `sprintf` reads in `newformat` for a directive, and what it writes.
-/

namespace Swig.DOH

open Errors (decimal formatInt digitsVal isdigit_of_mem_decimal)

/-- An argument for a code. A text has no NUL in it, and no NUL is given as a character. -/
def Matches (code : Byte) : PrintfArg → Prop
  | .int v => code ∈ lit "diouxXc" ∧ IsInt v ∧ (code = chr 'c' → v % 256 ≠ 0)
  | .null => code ∈ lit "sS"
  | .chars s | .object s => code ∈ lit "sS" ∧ 0 ∉ s

/-- A directive `%[flags][width][.precision]code`, with its argument. -/
structure Directive where
  flags : List Byte
  width : Width
  precision : Precision
  code : Byte
  arg : PrintfArg
  flags_ok : ∀ c ∈ flags, isFlag c = true
  width_ok : width.Valid
  precision_ok : precision.Valid
  arg_ok : Matches code arg

/-- The flag that `sprintf` sees in the argument for a width. -/
def Width.sign : Width → List Byte
  | absent | number .. => []
  | star v => if v < 0 then lit "-" else if v = 0 then lit "0" else []

def Width.numerals : Width → List Byte
  | absent => []
  | number c cs => c :: cs
  | star v => if v = 0 then [] else decimal v.natAbs

def Precision.given : Precision → Option ℕ
  | absent => none
  | number ds => some (digitsVal ds)
  | star v => some v.toNat

namespace Directive

variable (d : Directive)

def text : List Byte := chr '%' :: (d.flags ++ (d.width.text ++ (d.precision.text ++ [d.code])))

def args : List PrintfArg := d.width.args ++ (d.precision.args ++ [d.arg])

/-- What is put into `newformat`, up to the code. -/
def filled : List Byte := chr '%' :: (d.flags ++ (d.width.filled ++ d.precision.filled))

/-- The code in `newformat`. -/
def letter : Byte := if d.code = chr 'S' then chr 's' else d.code

def conversion : Conversion :=
  ⟨d.flags ++ d.width.sign, d.width.value.natAbs, d.precision.given, d.letter⟩

/-- The text given for `%s`. -/
def str : List Byte :=
  match d.arg with
  | .chars s | .object s => s
  | .null | .int _ => []

/-- What the directive writes. -/
def written : List Byte :=
  match d.arg with
  | .int v => if d.code = chr 'c' then d.conversion.character v else d.conversion.number v
  | .null | .chars _ | .object _ => d.conversion.string d.str

end Directive

/-! ### Reading `newformat` -/

section

variable {w : Width} {p : Precision} {c : Byte}

theorem span_append {f : Byte → Bool} {l r : List Byte} (hl : ∀ a ∈ l, f a = true) (hr : ∀ a ∈ r.head?, f a = false) :
    (l ++ r).takeWhile f = l ∧ (l ++ r).dropWhile f = r := by
  rw [List.takeWhile_append_of_pos hl, List.dropWhile_append_of_pos hl]
  cases r with
  | nil => exact ⟨List.append_nil l, rfl⟩
  | cons a r =>
      have ha : ¬ f a = true := by
        rw [hr a rfl]
        exact Bool.false_ne_true
      rw [List.takeWhile_cons_of_neg ha, List.dropWhile_cons_of_neg ha, List.append_nil]
      exact ⟨rfl, rfl⟩

theorem not_flag_of_digit : ∀ c : Byte, isdigit c = true → c ≠ chr '0' → isFlag c = false := by decide +kernel

/-- In the width that is put into `newformat` the flags of `sprintf` come before a number. -/
theorem Width.split (hw : w.Valid) :
    w.filled = w.sign ++ w.numerals ∧ (∀ c ∈ w.sign, isFlag c = true) ∧ (∀ c ∈ w.numerals, isdigit c = true) ∧
      (∀ c ∈ w.numerals.head?, isFlag c = false) ∧ digitsVal w.numerals = w.value.natAbs := by
  cases w with
  | absent => exact ⟨rfl, nofun, nofun, nofun, rfl⟩
  | number c cs =>
      obtain ⟨⟨hc, hzero⟩, hcs⟩ := hw
      refine ⟨rfl, nofun, List.forall_mem_cons.mpr ⟨hc, hcs⟩, ?_, rfl⟩
      rintro d hd
      obtain rfl := Option.some.inj hd
      exact not_flag_of_digit c hc hzero
  | star v =>
      have hnumber (hv : v ≠ 0) : ∀ c ∈ (decimal v.natAbs).head?, isFlag c = false := by
        obtain ⟨d, ds, hds, hd⟩ := decimal_head (Int.natAbs_ne_zero.mpr hv)
        have hmem : d ∈ decimal v.natAbs := by
          rw [hds]
          exact List.mem_cons_self ..
        have hdigit : isdigit d = true := isdigit_of_mem_decimal hmem
        rw [hds]
        rintro c hc
        obtain rfl := Option.some.inj hc
        exact not_flag_of_digit d hdigit hd
      rw [Width.filled, Width.sign, Width.numerals, Width.value, formatInt]
      rcases Int.lt_trichotomy v 0 with hv | rfl | hv
      · have hne : v ≠ 0 := by omega
        rw [if_pos hv, if_pos hv, if_neg hne]
        exact ⟨rfl, by decide +kernel, fun _ => isdigit_of_mem_decimal, hnumber hne, digitsVal_decimal _⟩
      · exact ⟨by decide, by decide +kernel, nofun, nofun, rfl⟩
      · have hne : v ≠ 0 := by omega
        have hpos : ¬ v < 0 := by omega
        rw [if_neg hpos, if_neg hpos, if_neg hne, if_neg hne]
        exact ⟨rfl, nofun, fun _ => isdigit_of_mem_decimal, hnumber hne, digitsVal_decimal _⟩

/-- A byte that ends the flags and the numbers. -/
def Stops (c : Byte) : Prop := isFlag c = false ∧ isdigit c = false ∧ c ≠ chr '.' ∧ c ≠ chr '-'

theorem parsePrecision_filled (hp : p.Valid) (hc : Stops c) (hvalue : 0 ≤ p.value) :
    parsePrecision (p.filled ++ [c]) = (p.given, [c]) := by
  have hpoint {ds : List Byte} (hds : ∀ d ∈ ds, isdigit d = true) :
      parsePrecision (chr '.' :: ds ++ [c]) = (some (digitsVal ds), [c]) := by
    obtain ⟨htake, hdrop⟩ := span_append (r := [c]) hds fun a ha => by
      obtain rfl := Option.some.inj ha
      exact hc.2.1
    rw [List.cons_append, parsePrecision, if_pos rfl, htake, hdrop]
  cases p with
  | absent =>
      rw [Precision.filled, List.nil_append, parsePrecision, if_neg hc.2.2.1]
      rfl
  | number ds => exact hpoint hp
  | star v =>
      have hv : ¬ v < 0 := Int.not_lt.mpr hvalue
      have habs : v.toNat = v.natAbs := by omega
      rw [Precision.filled, formatInt, if_neg hv, hpoint fun _ => isdigit_of_mem_decimal, digitsVal_decimal,
        Precision.given, habs]

/-- A negative precision is no number. -/
theorem parsePrecision_negative (hvalue : p.value < 0) :
    (parsePrecision (p.filled ++ [c])).2.length ≠ 1 := by
  cases p with
  | absent => exact absurd hvalue (by decide)
  | number ds => exact absurd hvalue (Int.not_lt.mpr (Int.natCast_nonneg _))
  | star v =>
      have hminus : ¬ isdigit (chr '-') = true := by decide
      rw [Precision.filled, formatInt, if_pos (show v < 0 from hvalue), List.cons_append, parsePrecision, if_pos rfl,
        List.cons_append, List.dropWhile_cons_of_neg hminus, List.length_cons, List.length_append]
      simp

end

namespace Directive

variable (d : Directive)

theorem code_mem : d.code ∈ lit "diouxXcsS" := by
  have hsub : ∀ c ∈ lit "diouxXc" ++ lit "sS", c ∈ lit "diouxXcsS" := List.all_iff_forall_prop.mp rfl
  have harg := d.arg_ok
  revert harg
  cases d.arg with
  | int v => exact fun h => hsub _ (List.mem_append_left _ h.1)
  | null => exact fun h => hsub _ (List.mem_append_right _ h)
  | chars s => exact fun h => hsub _ (List.mem_append_right _ h.1)
  | object s => exact fun h => hsub _ (List.mem_append_right _ h.1)

theorem letter_stops : Stops d.letter := by
  have hall : ∀ c ∈ lit "diouxXcsS", let l := if c = chr 'S' then chr 's' else c
      isFlag l = false ∧ isdigit l = false ∧ l ≠ chr '.' ∧ l ≠ chr '-' := by decide +kernel
  exact hall d.code d.code_mem

/-- The width and the precision are numbers that `sprintf` knows. -/
structure Readable : Prop where
  width : d.width.value.natAbs < 2 ^ 31
  nonneg : 0 ≤ d.precision.value
  precision : d.precision.value < 2 ^ 31

theorem given_lt (h : 0 ≤ d.precision.value) : d.precision.given.getD 0 < 2 ^ 31 ↔ d.precision.value < 2 ^ 31 := by
  revert h
  cases d.precision with
  | absent => exact fun _ => ⟨fun _ => by decide, fun _ => by decide⟩
  | number ds => exact fun _ => by rw [Precision.given, Precision.value, Option.getD_some]; omega
  | star v => exact fun h => by rw [Precision.given, Precision.value, Option.getD_some] at *; omega

theorem parse_yields : Yields (parseConversion (d.filled ++ [d.letter])) d.Readable d.conversion := by
  obtain ⟨hfilled, hsign, hnumerals, hhead, hvalue⟩ := Width.split d.width_ok
  have hstops := d.letter_stops
  have htail : ∀ c ∈ (d.precision.filled ++ [d.letter]).head?, isFlag c = false ∧ isdigit c = false := by
    cases d.precision with
    | absent =>
        rintro c hc
        obtain rfl := Option.some.inj hc
        exact ⟨hstops.1, hstops.2.1⟩
    | number | star =>
        rintro c hc
        obtain rfl := Option.some.inj hc
        decide
  have hnum := span_append hnumerals fun c hc => (htail c hc).2
  have hflags : ∀ c ∈ (d.width.numerals ++ (d.precision.filled ++ [d.letter])).head?, isFlag c = false := by
    intro c hc
    rw [List.head?_append] at hc
    cases hw : d.width.numerals.head? with
    | none =>
        rw [hw, Option.none_or] at hc
        exact (htail c hc).1
    | some a =>
        rw [hw] at hc
        exact hhead c (hw.trans hc)
  have hflag := span_append (l := d.flags ++ d.width.sign)
    (List.forall_mem_append.mpr ⟨d.flags_ok, hsign⟩) hflags
  have hshape : d.filled ++ [d.letter] = chr '%' :: ((d.flags ++ d.width.sign) ++
      (d.width.numerals ++ (d.precision.filled ++ [d.letter]))) := by
    rw [filled, hfilled]
    simp only [List.cons_append, List.append_assoc]
  rw [hshape, parseConversion]
  dsimp only
  rw [hflag.1, hflag.2, hnum.1, hnum.2, hvalue]
  by_cases hneg : d.precision.value < 0
  · have hlen := parsePrecision_negative (c := d.letter) hneg
    intro r
    refine iff_of_false ?_ fun h => absurd h.1.nonneg (Int.not_le.mpr hneg)
    split
    · rename_i hone
      rw [hone] at hlen
      exact absurd rfl hlen
    · exact nofun
  · rw [parsePrecision_filled d.precision_ok hstops (Int.not_lt.mp hneg)]
    refine (Yields.ite _).congr ?_
    rw [d.given_lt (Int.not_lt.mp hneg), and_iff_right rfl]
    exact ⟨fun h => ⟨h.1, Int.not_lt.mp hneg, h.2⟩, fun h => ⟨h.width, h.precision⟩⟩

theorem letter_of_int {v : ℤ} (h : d.arg = .int v) : d.code ∈ lit "diouxXc" ∧ d.letter = d.code := by
  have hall : ∀ c ∈ lit "diouxXc", c ≠ chr 'S' := List.all_iff_forall_prop.mp rfl
  have harg := d.arg_ok
  rw [h] at harg
  exact ⟨harg.1, if_neg (hall d.code harg.1)⟩

theorem letter_of_str (h : ∀ v, d.arg ≠ .int v) : d.code ∈ lit "sS" ∧ d.letter = chr 's' ∧ 0 ∉ d.str := by
  have hall : ∀ c ∈ lit "sS", (if c = chr 'S' then chr 's' else c) = chr 's' := List.all_iff_forall_prop.mp rfl
  have harg := d.arg_ok
  rw [str, letter]
  cases hd : d.arg with
  | int v => exact absurd hd (h v)
  | null =>
      rw [hd] at harg
      exact ⟨harg, hall d.code harg, List.not_mem_nil⟩
  | chars s =>
      rw [hd] at harg
      exact ⟨harg.1, hall d.code harg.1, harg.2⟩
  | object s =>
      rw [hd] at harg
      exact ⟨harg.1, hall d.code harg.1, harg.2⟩

theorem sprintfInt_yields {v : ℤ} (h : d.arg = .int v) :
    Yields (sprintfInt (d.filled ++ [d.letter]) v) d.Readable d.written := by
  obtain ⟨hcode, hletter⟩ := d.letter_of_int h
  have hall : ∀ c ∈ lit "diouxXc", (c ∈ lit "dioxXu" ∧ c ≠ chr 'c') ∨ (c ∉ lit "dioxXu" ∧ c = chr 'c') := by
    decide +kernel
  have hwritten : Yields (if d.conversion.code ∈ lit "dioxXu" then some (d.conversion.number v)
      else if d.conversion.code = chr 'c' then some (d.conversion.character v) else none) True d.written := by
    rw [show d.conversion.code = d.code from hletter, written, h]
    dsimp only
    rcases hall d.code hcode with ⟨hmem, hne⟩ | ⟨hmem, he⟩
    · rw [if_pos hmem, if_neg hne]
      exact Yields.some _
    · rw [if_neg hmem, if_pos he, if_pos he]
      exact Yields.some _
  exact (d.parse_yields.bind fun _ => hwritten).congr (iff_of_eq (and_true _))

theorem sprintfString_yields (h : ∀ v, d.arg ≠ .int v) :
    Yields (sprintfString (d.filled ++ [d.letter]) d.str) d.Readable d.written := by
  have hwritten : Yields (if d.conversion.code = chr 's' then some (d.conversion.string d.str) else none) True
      d.written := by
    rw [show d.conversion.code = chr 's' from (d.letter_of_str h).2.1, if_pos rfl, written]
    cases hd : d.arg with
    | int v => exact absurd hd (h v)
    | null | chars | object => exact Yields.some _
  exact (d.parse_yields.bind fun _ => hwritten).congr (iff_of_eq (and_true _))

end Directive

/-! ### NULs -/

section

variable {s u : List Byte}

theorem cString_append (h : 0 ∉ s) (u : List Byte) : cString (s ++ u) = s ++ cString u :=
  List.takeWhile_append_of_pos fun _ hc => bne_iff_ne.mpr fun h0 => h (h0 ▸ hc)

theorem cString_eq (h : 0 ∉ s) : cString s = s := by
  have happ := cString_append h []
  rwa [List.append_nil, show cString [] = [] from rfl, List.append_nil] at happ

theorem zero_notMem_append : 0 ∉ s ++ u ↔ (0 : Byte) ∉ s ∧ 0 ∉ u := by
  rw [List.mem_append, not_or]

theorem zero_notMem_of_all {f : Byte → Bool} (hf : f 0 = false) (h : ∀ c ∈ s, f c = true) : 0 ∉ s := by
  intro h0
  rw [h 0 h0] at hf
  cases hf

theorem zero_notMem_replicate {n : ℕ} {c : Byte} (hc : c ≠ 0) : 0 ∉ List.replicate n c := fun h =>
  hc (List.eq_of_mem_replicate h).symm

namespace Conversion

variable (k : Conversion)

theorem zero_notMem_pad (h : 0 ∉ s) : 0 ∉ k.pad s := by
  have hblanks : (0 : Byte) ∉ List.replicate (k.width - s.length) (chr ' ') := zero_notMem_replicate (by decide)
  rw [pad]
  split
  · exact zero_notMem_append.mpr ⟨h, hblanks⟩
  · exact zero_notMem_append.mpr ⟨hblanks, h⟩

theorem zero_notMem_digits {base n : ℕ} (hbase : 1 < base) (hbase' : base ≤ 16) : 0 ∉ k.digits base n := by
  refine zero_notMem_append.mpr ⟨zero_notMem_replicate (by decide), ?_⟩
  split
  · exact List.not_mem_nil
  · exact fun h => numeral_ne_zero hbase hbase' 0 h rfl

theorem zero_notMem_parts (v : ℤ) : 0 ∉ (k.parts v).1 ∧ 0 ∉ (k.parts v).2 := by
  have hupper : (0 : Byte) ∉ (k.digits 16 (unsigned v)).map toupper := by
    intro h
    obtain ⟨c, hc, h0⟩ := List.mem_map.mp h
    have hall : ∀ c : Byte, toupper c = 0 → c = 0 := by decide +kernel
    exact k.zero_notMem_digits (by decide) (by decide) (hall c h0 ▸ hc)
  rw [parts]
  split
  · refine ⟨?_, k.zero_notMem_digits (by decide) (by decide)⟩
    split_ifs <;> dsimp only <;> decide
  · split
    · refine ⟨?_, k.zero_notMem_digits (by decide) (by decide)⟩
      split_ifs <;> dsimp only <;> decide
    · split
      · exact ⟨List.not_mem_nil, k.zero_notMem_digits (by decide) (by decide)⟩
      · split
        · refine ⟨?_, k.zero_notMem_digits (by decide) (by decide)⟩
          split_ifs <;> dsimp only <;> decide
        · refine ⟨?_, hupper⟩
          split_ifs <;> dsimp only <;> decide

theorem zero_notMem_number (v : ℤ) : 0 ∉ k.number v := by
  obtain ⟨hlead, hdigits⟩ := k.zero_notMem_parts v
  rw [number]
  split
  · exact zero_notMem_append.mpr ⟨zero_notMem_append.mpr ⟨hlead, zero_notMem_replicate (by decide)⟩, hdigits⟩
  · exact k.zero_notMem_pad (zero_notMem_append.mpr ⟨hlead, hdigits⟩)

theorem zero_notMem_character {v : ℤ} (hv : v % 256 ≠ 0) : 0 ∉ k.character v := by
  refine k.zero_notMem_pad fun h => hv ?_
  have h0 := congrArg UInt8.toNat (List.mem_singleton.mp h)
  rw [UInt8.toNat_ofNat', UInt8.toNat_zero] at h0
  omega

theorem zero_notMem_string (h : 0 ∉ s) : 0 ∉ k.string s :=
  k.zero_notMem_pad fun h0 => h (List.mem_of_mem_take h0)

end Conversion

end

end Swig.DOH
