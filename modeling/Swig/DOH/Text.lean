import Swig.DOH.CType
import Mathlib.Tactic.Ring
import Mathlib.Data.List.TakeDrop

/-!
A DOH string as its users see it: contents, read position and line counter.
The buffer, its allocated size and the cached hash are not visible through
these operations.
-/

namespace Swig

/-- A string object: its bytes, the current position and the line number. -/
structure Text where
  data : List Byte
  sp : ℕ
  line : ℤ
  deriving DecidableEq

inductive Whence | set | cur | end_
  deriving DecidableEq

namespace Text

/-- The byte at an index; the terminator stands just after the contents. -/
def at_ (t : Text) (i : ℕ) : Byte := t.data.getD i 0

/-- `String_getc`: `none` is `EOF`. -/
def getc (t : Text) : Option Byte × Text :=
  if t.sp ≥ t.data.length then (none, t)
  else
    let c := t.at_ t.sp
    (some c, { t with sp := t.sp + 1, line := if c = chr '\n' then t.line + 1 else t.line })

/-- The forward loop of `String_seek`, which looks at the byte it arrives at. -/
def seekForward (t : Text) : ℕ → Text
  | 0 => t
  | n + 1 => seekForward
      { t with sp := t.sp + 1
               line := if t.at_ (t.sp + 1) = chr '\n' then t.line + 1 else t.line } n

/-- The backward loop of `String_seek`. -/
def seekBackward (t : Text) : ℕ → Text
  | 0 => t
  | n + 1 => seekBackward
      { t with sp := t.sp - 1
               line := if t.at_ (t.sp - 1) = chr '\n' then t.line - 1 else t.line } n

/-- The position `String_seek` moves to. -/
def seekTarget (t : Text) (offset : ℤ) (whence : Whence) : ℕ :=
  let nsp : ℤ := match whence with
    | .set => offset
    | .cur => t.sp + offset
    | .end_ => t.data.length - offset
  let nsp := if nsp < 0 then 0 else nsp
  (if 0 < t.data.length ∧ nsp > t.data.length then (t.data.length : ℤ) else nsp).toNat

/-- `String_seek`. -/
def seek (t : Text) (offset : ℤ) (whence : Whence) : Text :=
  let nsp := t.seekTarget offset whence
  if nsp > t.sp then t.seekForward (nsp - t.sp) else t.seekBackward (t.sp - nsp)

/-- A string object that holds `data`, read from its first byte on. -/
def ofBytes (data : List Byte) : Text := ⟨data, 0, 1⟩

/-- The bytes not read yet. -/
def rest (t : Text) : List Byte := t.data.drop t.sp

theorem lt_length_of_rest_cons {t : Text} {c : Byte} {cs : List Byte} (h : t.rest = c :: cs) :
    t.sp < t.data.length := by
  by_contra hge
  have : t.rest = [] := List.drop_eq_nil_iff.mpr (by omega)
  simp [this] at h

theorem at_of_rest_cons {t : Text} {c : Byte} {cs : List Byte} (h : t.rest = c :: cs) :
    t.at_ t.sp = c := by
  have hlt := lt_length_of_rest_cons h
  rw [rest, List.drop_eq_getElem_cons hlt] at h
  simp [at_, List.getD_eq_getElem?_getD, hlt, (List.cons.inj h).1]

theorem getc_of_rest_nil {t : Text} (h : t.rest = []) : t.getc = (none, t) := by
  have hlen : t.data.length ≤ t.sp := List.drop_eq_nil_iff.mp h
  simp [getc, hlen]

theorem getc_of_rest_cons {t : Text} {c : Byte} {cs : List Byte} (h : t.rest = c :: cs) :
    t.getc = (some c, { t with
      sp := t.sp + 1
      line := if c = chr '\n' then t.line + 1 else t.line }) := by
  simp [getc, Nat.not_le.mpr (lt_length_of_rest_cons h), at_of_rest_cons h]

theorem rest_succ {t : Text} {c : Byte} {cs : List Byte} (h : t.rest = c :: cs) (l : ℤ) :
    rest { t with sp := t.sp + 1, line := l } = cs := by
  have : t.data.drop (t.sp + 1) = (t.data.drop t.sp).drop 1 := by rw [List.drop_drop]
  rw [rest] at h
  simp [rest, this, h]

/-- Stepping back over the byte just read gives the state before it was read. -/
theorem seek_back_getc {t : Text} {c : Byte} {cs : List Byte} (h : t.rest = c :: cs) :
    seek t.getc.2 (-1) .cur = t := by
  have hlt := lt_length_of_rest_cons h
  rw [getc_of_rest_cons h]
  have htarget : seekTarget { t with
      sp := t.sp + 1
      line := if c = chr '\n' then t.line + 1 else t.line } (-1) .cur = t.sp := by
    simp only [seekTarget]
    split <;> split <;> omega
  simp only [seek, htarget]
  rw [if_neg (by omega), show t.sp + 1 - t.sp = 1 by omega]
  simp only [seekBackward, Nat.add_sub_cancel]
  rw [show at_ { t with
      sp := t.sp + 1
      line := if c = chr '\n' then t.line + 1 else t.line } t.sp = c from at_of_rest_cons h]
  by_cases hn : c = chr '\n' <;> simp [hn]

end Text

end Swig
