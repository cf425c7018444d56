import Mathlib.Data.List.Basic
import Mathlib.Data.Nat.Notation

/-!
Bytes of a C string and the character classes of the C locale.

SWIG never calls `setlocale`, so the classes are those of the C locale: a
byte above 127 belongs to none of them, whether `char` is signed or not.
-/

namespace Swig

abbrev Byte := UInt8

/-- The byte of an ASCII character literal of the source. -/
def chr (c : Char) : Byte := UInt8.ofNat c.toNat

/-- The bytes of an ASCII string literal of the source. -/
def lit (s : String) : List Byte := s.toList.map chr

instance (s : List Byte) (ss : List (List Byte)) : Decidable (s ∈ ss) := List.instDecidableMemOfLawfulBEq s ss

def isdigit (c : Byte) : Bool := chr '0' ≤ c && c ≤ chr '9'

def isupper (c : Byte) : Bool := chr 'A' ≤ c && c ≤ chr 'Z'

def islower (c : Byte) : Bool := chr 'a' ≤ c && c ≤ chr 'z'

def isalpha (c : Byte) : Bool := isupper c || islower c

def isalnum (c : Byte) : Bool := isalpha c || isdigit c

def isxdigit (c : Byte) : Bool :=
  isdigit c || (chr 'A' ≤ c && c ≤ chr 'F') || (chr 'a' ≤ c && c ≤ chr 'f')

/-- Blank, tab, newline, vertical tab, form feed and carriage return. -/
def isspace (c : Byte) : Bool := c == 32 || (9 ≤ c && c ≤ 13)

/-- A printing character other than the blank. -/
def isgraph (c : Byte) : Bool := 33 ≤ c && c ≤ 126

def tolower (c : Byte) : Byte := if isupper c then c + 32 else c

/-- The value of a decimal digit, `c - '0'` in the source. -/
def digitVal (c : Byte) : ℕ := (c - chr '0').toNat

/-- The sign of `strcmp`, which compares the bytes as `unsigned char`. -/
def strcmp (a b : List Byte) : Ordering := compare a b

instance : Std.TransCmp strcmp :=
  inferInstanceAs (Std.TransCmp (compare : List Byte → List Byte → Ordering))

instance : Std.LawfulEqCmp strcmp :=
  inferInstanceAs (Std.LawfulEqCmp (compare : List Byte → List Byte → Ordering))

theorem strcmp_eq_iff {a b : List Byte} : strcmp a b = .eq ↔ a = b :=
  ⟨Std.LawfulEqCmp.eq_of_compare, fun h => h ▸ Std.ReflCmp.compare_self⟩

/-- A property of all bytes is checked on the 256 codes. -/
theorem forall_byte {p : Byte → Prop} (h : ∀ n < 256, p (UInt8.ofNat n)) (b : Byte) : p b := by
  have hb := h b.toNat b.toNat_lt
  rwa [UInt8.ofNat_toNat] at hb

instance (priority := low) decidableForallByte {p : Byte → Prop} [DecidablePred p] : Decidable (∀ b, p b) :=
  decidable_of_iff (∀ n < 256, p (UInt8.ofNat n)) ⟨forall_byte, fun h _ _ => h _⟩

end Swig
