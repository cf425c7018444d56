import Swig.DOH.PrintfRounds

/-!
The directives of a format with the arguments they take: what the loop of `DohvPrintf` has recorded
of one when it comes to its code.
-/

namespace Swig.DOH

open Errors (formatInt digitsVal)

/-- A width: a number that does not begin with a zero, which is a flag, or an argument. -/
inductive Width
  | absent
  | number (c : Byte) (cs : List Byte)
  | star (v : ℤ)

inductive Precision
  | absent
  | number (ds : List Byte)
  | star (v : ℤ)

/-- The values of an `int`. -/
def IsInt (v : ℤ) : Prop := -2 ^ 31 ≤ v ∧ v < 2 ^ 31

namespace Width

def Valid : Width → Prop
  | absent => True
  | number c cs => (isdigit c = true ∧ c ≠ chr '0') ∧ ∀ d ∈ cs, isdigit d = true
  | star v => IsInt v

def text : Width → List Byte
  | absent => []
  | number c cs => c :: cs
  | star _ => lit "*"

def args : Width → List PrintfArg
  | absent | number .. => []
  | star v => [.int v]

def value : Width → ℤ
  | absent => 0
  | number c cs => digitsVal (c :: cs)
  | star v => v

/-- What is put into `newformat`. -/
def filled : Width → List Byte
  | absent => []
  | number c cs => c :: cs
  | star v => formatInt v

/-- The width is read without leaving `temp` or `int`. -/
def Room : Width → Prop
  | number c cs => Small (c :: cs)
  | absent | star _ => True

end Width

namespace Precision

def Valid : Precision → Prop
  | absent => True
  | number ds => ∀ d ∈ ds, isdigit d = true
  | star v => IsInt v

def text : Precision → List Byte
  | absent => []
  | number ds => chr '.' :: ds
  | star _ => lit ".*"

def args : Precision → List PrintfArg
  | absent | number _ => []
  | star v => [.int v]

def value : Precision → ℤ
  | absent => 0
  | number ds => digitsVal ds
  | star v => v

def filled : Precision → List Byte
  | absent => []
  | number ds => chr '.' :: ds
  | star v => chr '.' :: formatInt v

/-- What is recorded of a precision behind a width: nothing when it begins with a zero. -/
def behind : Precision → ℤ
  | absent => 0
  | number ds => if ds.head? = some (chr '0') then 0 else digitsVal ds
  | star v => v

def digitsBehind : Precision → List Byte
  | number ds => if ds.head? = some (chr '0') then [] else ds
  | absent | star _ => []

/-- The digits of a precision without a width: its zeros are read as flags. -/
def digitsAlone : Precision → List Byte
  | number ds => ds.dropWhile (· == chr '0')
  | absent | star _ => []

end Precision

section

variable (w : Width) (p : Precision)

/-- The value of `widthval` in state 100: a precision without a width is read as one. -/
def recordedWidth : ℤ :=
  match w with
  | .absent => p.value
  | .number .. | .star _ => w.value

/-- The value of `precval` in state 100. -/
def recordedPrecision : ℤ :=
  match w with
  | .absent => 0
  | .number .. | .star _ => p.behind

/-- The digits of the precision that are put into `temp`. -/
def recordedDigits : List Byte :=
  match w with
  | .absent => p.digitsAlone
  | .number .. | .star _ => p.digitsBehind

end

/-! ### Reading a width and a precision -/

namespace Printf

variable (encode : List Byte → List Byte → List Byte) {q : Printf} {b s ds : List Byte} {w : Width} {p : Precision}
  {rest : List PrintfArg}

theorem reads_width (hb : b.length = 256) (hstate : q.state = .flags) (hw : w.Valid) (hne : w ≠ .absent)
    (hargs : q.args = w.args ++ rest) :
    ∃ temp state, (state = .width ∨ state = .argWidth) ∧ (s.length ≤ 256 →
      Reads encode (q.formed b s) w.text ((s ++ w.filled).length ≤ 256 ∧ w.Room)
        ({ q with widthval := w.value, args := rest, temp := temp, state := state }.formed b (s ++ w.filled))) := by
  cases w with
  | absent => exact absurd rfl hne
  | number c cs =>
      refine ⟨c :: cs, .width, .inl rfl, fun hs => ?_⟩
      rw [← show q.args = rest from hargs]
      exact Reads.width encode hb hs hstate hw.1 hw.2
  | star v =>
      refine ⟨q.temp, .argWidth, .inr rfl, fun hs => ?_⟩
      exact (Reads.star encode hb hs hstate hargs).congr (iff_of_eq (and_true _)).symm

/-- The digits of a precision, behind a width and the point. -/
theorem reads_precision (hb : b.length = 256) (hstate : q.state = .precision) (htemp : q.temp = [])
    (hprec : q.precval = 0) (hds : ∀ d ∈ ds, isdigit d = true) :
    ∃ temp state, (state ≠ .text ∧ state ≠ .encoder) ∧ (s.length ≤ 256 →
      Reads encode (q.formed b s) ds
        ((s ++ ds).length ≤ 256 ∧ Small (if ds.head? = some (chr '0') then [] else ds))
        ({ q with
          precval := if ds.head? = some (chr '0') then 0 else digitsVal ds
          temp := temp, state := state }.formed b (s ++ ds))) := by
  cases ds with
  | nil =>
      have hq : { q with precval := 0, temp := [], state := .precision } = q := by rw [← hprec, ← htemp, ← hstate]
      have hhead : ([] : List Byte).head? ≠ some (chr '0') := nofun
      refine ⟨[], .precision, ⟨nofun, nofun⟩, fun hs => ?_⟩
      rw [if_neg hhead, if_neg hhead, List.append_nil, show ((digitsVal [] : ℕ) : ℤ) = 0 from rfl, hq]
      refine (Reads.nil ?_).congr (iff_of_true trivial ⟨hs, small_nil⟩)
      rw [show (q.formed b s).state = _ from hstate]
      exact ⟨nofun, nofun⟩
  | cons d ds =>
      obtain ⟨hd, htail⟩ := List.forall_mem_cons.mp hds
      by_cases hzero : d = chr '0'
      · subst hzero
        have hq : { q with precval := 0, temp := [], state := .waiting } = { q with state := .waiting } := by
          rw [← hprec, ← htemp]
        refine ⟨[], .waiting, ⟨nofun, nofun⟩, fun hs => ?_⟩
        rw [List.head?_cons, if_pos rfl, if_pos rfl, hq]
        exact (Reads.zero encode hb hs hstate htail).congr (and_iff_left small_nil).symm
      · have hhead : (d :: ds).head? ≠ some (chr '0') := fun h => hzero (Option.some.inj h)
        refine ⟨d :: ds, .precisionDigits, ⟨nofun, nofun⟩, fun hs => ?_⟩
        rw [if_neg hhead, if_neg hhead]
        exact Reads.precision encode hb hs hstate htemp ⟨hd, hzero⟩ htail

/-- The digits of a precision without a width, behind the point: zeros are read as flags, and the
others as a width. -/
theorem reads_point (hb : b.length = 256) (hstate : q.state = .flags) (hwidth : q.widthval = 0)
    (hds : ∀ d ∈ ds, isdigit d = true) :
    ∃ temp state, (state ≠ .text ∧ state ≠ .encoder) ∧ (s.length ≤ 256 →
      Reads encode (q.formed b s) ds ((s ++ ds).length ≤ 256 ∧ Small (ds.dropWhile (· == chr '0')))
        ({ q with widthval := digitsVal ds, temp := temp, state := state }.formed b (s ++ ds))) := by
  have hsplit : ds.takeWhile (· == chr '0') ++ ds.dropWhile (· == chr '0') = ds := List.takeWhile_append_dropWhile
  have hzeros : ∀ d ∈ ds.takeWhile (· == chr '0'), d = chr '0' := by
    intro d hd
    have hd := List.mem_takeWhile_imp hd
    exact beq_iff_eq.mp hd
  have hhead : ∀ d ∈ (ds.dropWhile (· == chr '0')).head?, d ≠ chr '0' := by
    have h := List.head?_dropWhile_not (· == chr '0') ds
    intro d hd
    rw [hd] at h
    exact beq_eq_false_iff_ne.mp h
  generalize ds.takeWhile (· == chr '0') = zs at hsplit hzeros
  generalize ds.dropWhile (· == chr '0') = rest at hsplit hhead ⊢
  subst hsplit
  have hflags : ∀ d ∈ zs, isFlag d = true := fun d hd => by
    rw [hzeros d hd]
    decide
  have hlen : (s ++ zs).length ≤ 256 ∧ (s ++ (zs ++ rest)).length ≤ 256 ↔ (s ++ (zs ++ rest)).length ≤ 256 := by
    rw [List.length_append, List.length_append, List.length_append]
    omega
  rw [digitsVal_zeros hzeros]
  cases rest with
  | nil =>
      have hq : { q with widthval := 0, temp := q.temp, state := .flags } = q := by rw [← hwidth, ← hstate]
      refine ⟨q.temp, .flags, ⟨nofun, nofun⟩, fun hs => ?_⟩
      rw [show ((digitsVal [] : ℕ) : ℤ) = 0 from rfl, hq]
      have hnil : Reads encode (q.formed b (s ++ zs)) [] True (q.formed b (s ++ zs)) := by
        refine Reads.nil ?_
        rw [show (q.formed b (s ++ zs)).state = _ from hstate]
        exact ⟨nofun, nofun⟩
      rw [List.append_nil]
      have hread := Reads.flags encode hb hs hstate hflags fun _ => hnil
      rw [List.append_nil] at hread
      exact hread.congr (and_congr_right fun _ => iff_of_true trivial small_nil)
  | cons d rest =>
      obtain ⟨hd, hrest⟩ := List.forall_mem_cons.mp (List.forall_mem_append.mp hds).2
      refine ⟨d :: rest, .width, ⟨nofun, nofun⟩, fun hs => ?_⟩
      have hread := Reads.flags encode hb hs hstate hflags fun hs' =>
        Reads.width encode hb hs' hstate ⟨hd, hhead d rfl⟩ hrest
      rw [List.append_assoc] at hread
      refine hread.congr ?_
      rw [← and_assoc, hlen]

theorem length_snoc_le {n : ℕ} : (s ++ [chr '.']).length ≤ n ↔ s.length < n := by
  rw [List.length_append, List.length_singleton]
  exact Iff.rfl

/-- A precision without a width. -/
theorem reads_alone (hb : b.length = 256) (hstate : q.state = .flags) (hwidth : q.widthval = 0) (hp : p.Valid)
    (hargs : q.args = p.args ++ rest) :
    ∃ temp state, (state ≠ .text ∧ state ≠ .encoder) ∧ (s.length ≤ 256 →
      Reads encode (q.formed b s) p.text ((s ++ p.filled).length ≤ 256 ∧ Small p.digitsAlone)
        ({ q with widthval := p.value, args := rest, temp := temp, state := state }.formed b (s ++ p.filled))) := by
  have hpoint : Yields ([chr '.'].foldlM (step encode) (q.formed b s)) (s.length < 256)
      (q.formed b (s ++ [chr '.'])) := by
    rw [run_one, step_flag (q := q.formed b s) hstate (.inr rfl)]
    exact put_yields hb
  have hlen (u : List Byte) : s.length < 256 ∧ (s ++ chr '.' :: u).length ≤ 256 ↔ (s ++ chr '.' :: u).length ≤ 256 := by
    rw [List.length_append, List.length_cons]
    omega
  cases p with
  | absent =>
      have hq : { q with widthval := 0, args := q.args, temp := q.temp, state := .flags } = q := by
        rw [← hwidth, ← hstate]
      refine ⟨q.temp, .flags, ⟨nofun, nofun⟩, fun hs => ?_⟩
      rw [Precision.filled, List.append_nil, Precision.value, ← show q.args = rest from hargs, hq]
      refine (Reads.nil ?_).congr (iff_of_true trivial ⟨hs, small_nil⟩)
      rw [show (q.formed b s).state = _ from hstate]
      exact ⟨nofun, nofun⟩
  | number ds =>
      obtain ⟨temp, state, hok, hread⟩ := reads_point encode (s := s ++ [chr '.']) hb hstate hwidth hp
      refine ⟨temp, state, hok, fun _ => ?_⟩
      rw [List.append_assoc] at hread
      rw [← show q.args = rest from hargs]
      refine (Reads.after hpoint fun h => hread (length_snoc_le.mpr h)).congr ?_
      rw [← and_assoc]
      exact and_congr_left fun _ => hlen ds
  | star v =>
      refine ⟨q.temp, .argWidth, ⟨nofun, nofun⟩, fun _ => ?_⟩
      have hread (h : s.length < 256) :=
        Reads.star encode hb (length_snoc_le.mpr h : (s ++ [chr '.']).length ≤ 256) hstate hargs
      rw [List.append_assoc] at hread
      refine (Reads.after hpoint hread).congr ?_
      rw [Precision.filled, and_iff_left (show Small (Precision.star v).digitsAlone from small_nil)]
      exact hlen (formatInt v)

/-- A precision behind a width. -/
theorem reads_behind {a : Printf} (cs : List Byte) {u : List Byte} {P : Prop} (hb : b.length = 256)
    (ha : a.state = .width ∨ a.state = .argWidth) (hprec : a.precval = 0) (hp : p.Valid)
    (hargs : a.args = p.args ++ rest) (hP : P → u.length ≤ 256) :
    ∃ temp state, (state ≠ .text ∧ state ≠ .encoder) ∧ (Reads encode q cs P (a.formed b u) →
      Reads encode q (cs ++ p.text) (P ∧ (u ++ p.filled).length ≤ 256 ∧ Small p.digitsBehind)
        ({ a with precval := p.behind, args := rest, temp := temp, state := state }.formed b (u ++ p.filled))) := by
  have hlen (t : List Byte) :
      u.length < 256 ∧ (u ++ chr '.' :: t).length ≤ 256 ↔ (u ++ chr '.' :: t).length ≤ 256 := by
    rw [List.length_append, List.length_cons]
    omega
  cases p with
  | absent =>
      have hq : { a with precval := 0, args := a.args, temp := a.temp, state := a.state } = a := by rw [← hprec]
      refine ⟨a.temp, a.state, ?_, fun hread => ?_⟩
      · rcases ha with ha | ha
        · rw [ha]
          exact ⟨nofun, nofun⟩
        · rw [ha]
          exact ⟨nofun, nofun⟩
      · rw [Precision.filled, Precision.text, Precision.behind, List.append_nil, List.append_nil,
          ← show a.args = rest from hargs, hq]
        exact hread.congr (iff_self_and.mpr fun h => ⟨hP h, small_nil⟩)
  | number ds =>
      obtain ⟨temp, state, hok, hrest⟩ := reads_precision encode
        (q := { a with temp := [], state := .precision }) (s := u ++ [chr '.']) hb rfl rfl hprec hp
      refine ⟨temp, state, hok, fun hread => ?_⟩
      rw [List.append_assoc] at hrest
      rw [← show a.args = rest from hargs]
      refine (Reads.point hread ha hb fun h => hrest (length_snoc_le.mpr h)).congr ?_
      rw [and_assoc, ← and_assoc (a := u.length < 256)]
      exact and_congr_right fun _ => and_congr_left fun _ => hlen ds
  | star v =>
      have hrest (h : u.length < 256) := Reads.starPrecision encode
        (q := { a with temp := [], state := .precision }) hb (length_snoc_le.mpr h : (u ++ [chr '.']).length ≤ 256) rfl
        hargs
      rw [List.append_assoc] at hrest
      refine ⟨[], .waiting, ⟨nofun, nofun⟩, fun hread => ?_⟩
      refine (Reads.point hread ha hb hrest).congr ?_
      rw [and_assoc, and_iff_left (show Small (Precision.star v).digitsBehind from small_nil)]
      exact and_congr_right fun _ => hlen (formatInt v)

/-- A width and a precision. -/
theorem reads_both (hb : b.length = 256) (hstate : q.state = .flags) (hwidth : q.widthval = 0)
    (hprec : q.precval = 0) (hw : w.Valid) (hp : p.Valid) (hargs : q.args = w.args ++ (p.args ++ rest)) :
    ∃ temp state, (state ≠ .text ∧ state ≠ .encoder) ∧ (s.length ≤ 256 →
      Reads encode (q.formed b s) (w.text ++ p.text)
        ((s ++ (w.filled ++ p.filled)).length ≤ 256 ∧ w.Room ∧ Small (recordedDigits w p))
        ({ q with
          widthval := recordedWidth w p, precval := recordedPrecision w p
          args := rest, temp := temp, state := state }.formed b (s ++ (w.filled ++ p.filled)))) := by
  by_cases hne : w = .absent
  · subst hne
    obtain ⟨temp, state, hok, hread⟩ := reads_alone encode (s := s) hb hstate hwidth hp hargs
    have hq : { q with widthval := p.value, precval := 0, args := rest, temp := temp, state := state } =
        { q with widthval := p.value, args := rest, temp := temp, state := state } := by rw [← hprec]
    refine ⟨temp, state, hok, fun hs => ?_⟩
    rw [show recordedPrecision .absent p = 0 from rfl, show recordedWidth .absent p = p.value from rfl, hq]
    exact (hread hs).congr (and_congr_right fun _ => (and_iff_right trivial).symm)
  · have hvalues : recordedWidth w p = w.value ∧ recordedPrecision w p = p.behind ∧
        recordedDigits w p = p.digitsBehind := by
      cases w with
      | absent => exact absurd rfl hne
      | number c cs => exact ⟨rfl, rfl, rfl⟩
      | star v => exact ⟨rfl, rfl, rfl⟩
    obtain ⟨temp, state, hok, hread⟩ := reads_width encode (s := s) hb hstate hw hne hargs
    obtain ⟨temp', state', hok', hread'⟩ := reads_behind encode w.text (q := q.formed b s)
      (a := { q with widthval := w.value, args := p.args ++ rest, temp := temp, state := state })
      (P := (s ++ w.filled).length ≤ 256 ∧ w.Room) hb hok hprec hp rfl And.left
    refine ⟨temp', state', hok', fun hs => ?_⟩
    rw [hvalues.1, hvalues.2.1, hvalues.2.2, ← List.append_assoc]
    refine (hread' (hread hs)).congr ?_
    have hlen : (s ++ w.filled ++ p.filled).length = (s ++ w.filled).length + p.filled.length := List.length_append
    constructor
    · exact fun h => ⟨h.2.1, h.1.2, h.2.2⟩
    · exact fun h => ⟨⟨by omega, h.2.1⟩, h.1, h.2.2⟩

end Printf

end Swig.DOH
