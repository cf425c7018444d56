import Swig.DOH.PrintfConversion

/-!
The buffer that `DohvPrintf` selects for a directive, and when `sprintf` stays within it.
-/

namespace Swig.DOH

open Errors (digitsVal isdigit_of_mem_decimal)

namespace Directive

variable (d : Directive) (b : List Byte)

/-! ### The estimate -/

/-- What is counted for the directive beside its width and precision, where `newformat` has held
`b`. The length of a format for a string is taken before its end is marked. -/
def counted : ℕ :=
  match d.arg with
  | .int _ => d.filled.length + 1 + 64
  | .null | .chars _ | .object _ => (cString (overlay b d.filled)).length + d.str.length

/-- `maxwidth`, from what has been recorded of the width and of the precision. -/
def estimate : ℤ :=
  toInt (max (recordedWidth d.width d.precision) (recordedPrecision d.width d.precision) + d.counted b)

/-- The columns that the width and the precision ask for, whatever their sign and their zeros. -/
def columns : ℕ :=
  max d.width.value.natAbs <|
    match d.arg with
    | .int v => if d.code = chr 'c' then 1 else (d.conversion.parts v).1.length + d.precision.given.getD 0
    | .null | .chars _ | .object _ => min (d.precision.given.getD d.str.length) d.str.length

/-- The directive has room in `newformat`, its numbers have room in `temp` and are known to
`sprintf`, and its columns are below 512 or within the estimate. -/
structure Fits : Prop where
  room : d.filled.length ≤ 254
  width : d.width.Room
  precision : Small (recordedDigits d.width d.precision)
  readable : d.Readable
  estimate : d.estimate b + 1 < 2 ^ 31
  columns : d.columns < 512 ∨ d.columns ≤ d.estimate b

/-- What `newformat` holds after the directive. -/
def left : List Byte := overlay b (d.filled ++ [d.letter] ++ [0])

variable {d b}

theorem isInt_of_int {v : ℤ} (h : d.arg = .int v) : IsInt v := by
  have harg := d.arg_ok
  rw [h] at harg
  exact harg.2.1

/-- The digits of a number do not count, in a buffer that is not small. -/
theorem length_written_lt_iff {size : ℕ} (hsize : 512 ≤ size) : d.written.length < size ↔ d.columns < size := by
  rw [written, columns]
  cases h : d.arg with
  | int v =>
      dsimp only
      split
      · rw [Conversion.character, Conversion.length_pad]
        exact Iff.rfl
      · have hv := isInt_of_int h
        have habs : v.natAbs < 2 ^ 32 := by
          rw [IsInt] at hv
          omega
        rw [d.conversion.length_number_lt_iff habs hsize]
        exact Nat.max_lt.symm
  | null | chars | object =>
      dsimp only
      rw [Conversion.string, Conversion.length_pad, List.length_take]
      exact Iff.rfl

/-! ### Plain directives -/

/-- No argument for a width or a precision is negative, and a precision behind a width does not
begin with a zero: what is recorded is what `sprintf` sees. -/
structure Plain (d : Directive) : Prop where
  room : d.filled.length ≤ 254
  width : d.width.Room
  precision : Small (recordedDigits d.width d.precision)
  width_nonneg : 0 ≤ d.width.value
  precision_nonneg : 0 ≤ d.precision.value
  no_zero : d.width = .absent ∨ ∀ ds, d.precision = .number ds → ds.head? ≠ some (chr '0')
  total : max d.width.value d.precision.value + d.str.length + 512 < 2 ^ 31

theorem recorded_of_plain (h : d.Plain) : max (recordedWidth d.width d.precision)
    (recordedPrecision d.width d.precision) = max d.width.value d.precision.value := by
  have hwidth := h.width_nonneg
  have hprec := h.precision_nonneg
  have hbehind (hzero : ∀ ds, d.precision = .number ds → ds.head? ≠ some (chr '0')) :
      d.precision.behind = d.precision.value := by
    revert hzero
    cases d.precision with
    | absent | star => exact fun _ => rfl
    | number ds => exact fun hzero => if_neg (hzero ds rfl)
  rcases h.no_zero with hw | hzero
  · rw [hw, recordedWidth, recordedPrecision, Width.value]
    omega
  · have hne := hbehind hzero
    revert hwidth
    cases d.width with
    | absent =>
        intro _
        rw [recordedWidth, recordedPrecision, Width.value]
        omega
    | number | star =>
        intro _
        rw [recordedWidth, recordedPrecision, hne]

theorem given_getD (p : Precision) : p.given.getD 0 = p.value.toNat := by
  cases p with
  | absent | number | star => rfl

theorem length_cString_le (s : List Byte) : (cString s).length ≤ s.length := (List.takeWhile_sublist _).length_le

theorem counted_le (hb : b.length = 256) (hroom : d.filled.length ≤ 254) :
    d.str.length ≤ d.counted b ∧ d.counted b ≤ d.str.length + 319 := by
  have hover : (cString (overlay b d.filled)).length ≤ 256 :=
    calc
      _ ≤ (overlay b d.filled).length := length_cString_le _
      _ = 256 := by rw [length_overlay (by omega), hb]
  rw [counted, str]
  cases d.arg with
  | int v => exact ⟨Nat.zero_le _, by dsimp only [List.length_nil]; omega⟩
  | null | chars | object =>
      dsimp only
      omega

theorem columns_le (hv : 0 ≤ d.width.value) (hp : 0 ≤ d.precision.value) :
    d.columns ≤ max d.width.value d.precision.value + d.counted b := by
  have hgiven := given_getD d.precision
  rw [columns, counted]
  cases h : d.arg with
  | int v =>
      have hint := isInt_of_int h
      have habs : v.natAbs < 2 ^ 32 := by
        rw [IsInt] at hint
        omega
      have hlead := (d.conversion.length_parts habs).1
      dsimp only
      split
      · omega
      · omega
  | null | chars | object =>
      dsimp only
      omega

/-- The estimate is enough for a plain directive. -/
theorem Plain.fits (h : d.Plain) (hb : b.length = 256) : d.Fits b := by
  have htotal := h.total
  have hv := h.width_nonneg
  have hp := h.precision_nonneg
  obtain ⟨hcounted, hcounted'⟩ := counted_le hb h.room
  have hcolumns := columns_le (b := b) hv hp
  have hestimate : d.estimate b = max d.width.value d.precision.value + d.counted b := by
    rw [estimate, recorded_of_plain h, toInt, Int.bmod_def]
    omega
  refine ⟨h.room, h.width, h.precision, ⟨by omega, hp, by omega⟩, ?_, .inr ?_⟩
  · rw [hestimate]
    omega
  · rw [hestimate]
    exact hcolumns

/-! ### NULs -/

theorem isFlag_zero : isFlag 0 = false := by decide

theorem isdigit_zero : isdigit 0 = false := by decide

theorem zero_notMem_formatInt (v : ℤ) : 0 ∉ Errors.formatInt v := by
  have hdecimal : (0 : Byte) ∉ Errors.decimal v.natAbs :=
    zero_notMem_of_all isdigit_zero fun _ => isdigit_of_mem_decimal
  rw [Errors.formatInt]
  split
  · rw [List.mem_cons, not_or]
    exact ⟨by decide, hdecimal⟩
  · exact hdecimal

theorem zero_notMem_width {w : Width} (hw : w.Valid) : 0 ∉ w.filled ∧ 0 ∉ w.text := by
  cases w with
  | absent => exact ⟨List.not_mem_nil, List.not_mem_nil⟩
  | number c cs =>
      have h : (0 : Byte) ∉ c :: cs := zero_notMem_of_all isdigit_zero (List.forall_mem_cons.mpr ⟨hw.1.1, hw.2⟩)
      exact ⟨h, h⟩
  | star v => exact ⟨zero_notMem_formatInt v, (by decide : (0 : Byte) ∉ lit "*")⟩

theorem zero_notMem_precision {p : Precision} (hp : p.Valid) : 0 ∉ p.filled ∧ 0 ∉ p.text := by
  have hpoint {u : List Byte} (hu : 0 ∉ u) : 0 ∉ chr '.' :: u := by
    rw [List.mem_cons, not_or]
    exact ⟨by decide, hu⟩
  cases p with
  | absent => exact ⟨List.not_mem_nil, List.not_mem_nil⟩
  | number ds =>
      have h := hpoint (zero_notMem_of_all isdigit_zero hp)
      exact ⟨h, h⟩
  | star v => exact ⟨hpoint (zero_notMem_formatInt v), (by decide : (0 : Byte) ∉ lit ".*")⟩

theorem zero_notMem_flags : 0 ∉ d.flags := zero_notMem_of_all isFlag_zero d.flags_ok

theorem zero_notMem_filled : 0 ∉ d.filled := by
  rw [filled, List.mem_cons, not_or, zero_notMem_append, zero_notMem_append]
  exact ⟨by decide, zero_notMem_flags, (zero_notMem_width d.width_ok).1, (zero_notMem_precision d.precision_ok).1⟩

theorem zero_notMem_letter : 0 ∉ [d.letter] := by
  have hstops := d.letter_stops
  intro h
  have h0 := List.mem_singleton.mp h
  have hall : ∀ c ∈ lit "diouxXcsS", (if c = chr 'S' then chr 's' else c) ≠ 0 := List.all_iff_forall_prop.mp rfl
  exact hall d.code d.code_mem h0.symm

theorem zero_notMem_text : 0 ∉ d.text := by
  have hcode : (0 : Byte) ∉ [d.code] := by
    intro h
    have hall : (0 : Byte) ∉ lit "diouxXcsS" := by decide
    exact hall ((List.mem_singleton.mp h) ▸ d.code_mem)
  rw [text, List.mem_cons, not_or, zero_notMem_append, zero_notMem_append, zero_notMem_append]
  exact ⟨by decide, zero_notMem_flags, (zero_notMem_width d.width_ok).2, (zero_notMem_precision d.precision_ok).2,
    hcode⟩

theorem zero_notMem_written : 0 ∉ d.written := by
  rw [written]
  cases h : d.arg with
  | int v =>
      dsimp only
      split
      · have harg := d.arg_ok
        rw [h] at harg
        exact d.conversion.zero_notMem_character (harg.2.2 ‹_›)
      · exact d.conversion.zero_notMem_number v
  | null | chars | object =>
      have hstr := (d.letter_of_str fun v hv => by rw [h] at hv; cases hv).2.2
      exact d.conversion.zero_notMem_string hstr

end Directive

/-! ### State 100 -/

namespace Printf

variable (encode : List Byte → List Byte → List Byte) {q : Printf} {b s : List Byte} {c : Byte}

/-- The locals with the end of the text marked. -/
def closed (q : Printf) (b s : List Byte) : Printf := { q with newformat := overlay b (s ++ [0]), fmt := s.length }

theorem close_yields (hb : b.length = 256) : Yields (q.formed b s).close (s.length < 256) (q.closed b s) := by
  intro r
  rw [close, Option.ite_none_right_eq_some, Option.some.injEq]
  refine and_congr_right fun hs => ?_
  have hset := set_overlay (hb ▸ hs : s.length < b.length) 0
  dsimp only [formed, closed] at hs ⊢
  rw [hset]
  exact eq_comm

theorem cString_overlay (hs : 0 ∉ s) : cString (overlay b (s ++ [0])) = s := by
  rw [overlay, List.append_assoc, cString_append hs]
  exact List.append_nil s

theorem stringBuffer_eq (m : ℤ) :
    stringBuffer m = if m + 1 < 2 ^ 31 then some (max 512 (m + 1).toNat) else none := by
  rw [stringBuffer]
  split_ifs with h₁ h₂ h₃ h₃
  · omega
  · rfl
  · rw [max_eq_left (by omega)]
  · omega
  · rw [max_eq_right (by omega)]
  · omega

theorem numberBuffer_eq (m : ℤ) :
    numberBuffer m = if m + 1 < 2 ^ 31 then some (max 512 (m + 1).toNat) else none := by
  rw [numberBuffer]
  split_ifs with h₁ h₂ h₃ h₃
  · rw [max_eq_left (by omega)]
  · omega
  · omega
  · rfl
  · rw [max_eq_right (by omega)]
  · omega

theorem maxwidth_eq (q : Printf) : q.maxwidth = max q.widthval q.precval := by
  rw [maxwidth]
  split
  · omega
  · omega

/-- The locals after a directive. -/
def printed (q : Printf) (b s text : List Byte) : Printf :=
  { q.closed b s with
    nbytes := toInt (q.nbytes + text.length), out := q.out ++ text, state := .text }

theorem print_yields {m : ℤ} {buffer : Option ℕ} {x : Option (List Byte)} {p : Prop} {text : List Byte}
    (hbuffer : buffer = if m + 1 < 2 ^ 31 then some (max 512 (m + 1).toNat) else none) (hx : Yields x p text)
    (htext : 0 ∉ text) :
    Yields (buffer.bind fun size => x.bind fun text => (q.closed b s).write size text)
      (m + 1 < 2 ^ 31 ∧ p ∧ text.length < max 512 (m + 1).toNat) (q.printed b s text) := by
  have hwrite : Yields ((q.closed b s).write (max 512 (m + 1).toNat) text) (text.length < max 512 (m + 1).toNat)
      (q.printed b s text) := by
    have h := Yields.ite (p := text.length < max 512 (m + 1).toNat) (q.printed b s text)
    rw [write, cString_eq htext]
    exact h
  rw [hbuffer]
  exact (Yields.ite _).bind fun _ => hx.bind fun _ => hwrite

/-- The code and the end of the text are put into `newformat`. -/
theorem finish_yields (hb : b.length = 256) (c : Byte) {f : Printf → Option Printf} {p : Prop} {r : Printf}
    (hf : Yields (f (q.closed b (s ++ [c]))) p r) :
    Yields (((q.formed b s).put c).bind fun q => q.close.bind f) (s.length ≤ 254 ∧ p) r := by
  refine ((put_yields hb).bind fun _ => (close_yields hb).bind fun _ => hf).congr ?_
  rw [← and_assoc, List.length_append, List.length_singleton]
  refine and_congr_left fun _ => ?_
  omega

theorem writeString_yields (hb : b.length = 256) {str text : List Byte} {p : Prop} (hs : 0 ∉ s ++ [chr 's'])
    (hstr : 0 ∉ str) (hx : Yields (sprintfString (s ++ [chr 's']) str) p text) (htext : 0 ∉ text) {m : ℤ}
    (hm : m = toInt (max q.widthval q.precval + ((cString (overlay b s)).length + str.length : ℕ))) :
    Yields ((q.formed b s).writeString str str.length)
      (s.length ≤ 254 ∧ m + 1 < 2 ^ 31 ∧ p ∧ text.length < max 512 (m + 1).toNat)
      (q.printed b (s ++ [chr 's']) text) := by
  have hmax : toInt ((q.formed b s).maxwidth + (cString (q.formed b s).newformat).length + str.length) = m := by
    rw [hm, maxwidth_eq, Int.natCast_add, Int.add_assoc]
    rfl
  rw [writeString, hmax, cString_eq hstr]
  refine finish_yields hb (chr 's') (f := fun q => (stringBuffer m).bind fun size =>
    (sprintfString (cString q.newformat) str).bind fun text => q.write size text) ?_
  rw [show cString (q.closed b (s ++ [chr 's'])).newformat = _ from cString_overlay hs]
  exact print_yields (stringBuffer_eq m) hx htext

theorem writeInt_yields (hb : b.length = 256) {v : ℤ} {text : List Byte} {p : Prop} (hs : 0 ∉ s ++ [c])
    (hx : Yields (sprintfInt (s ++ [c]) v) p text) (htext : 0 ∉ text) {m : ℤ}
    (hm : m = toInt (max q.widthval q.precval + (s.length + 1 + 64 : ℕ))) :
    Yields ((q.formed b s).writeInt c v)
      (s.length ≤ 254 ∧ m + 1 < 2 ^ 31 ∧ p ∧ text.length < max 512 (m + 1).toNat)
      (q.printed b (s ++ [c]) text) := by
  have hmax : toInt ((q.closed b (s ++ [c])).maxwidth + (s ++ [c]).length + 64) = m := by
    rw [hm, maxwidth_eq, List.length_append, List.length_singleton, Int.natCast_add, Int.add_assoc]
    rfl
  rw [writeInt]
  refine finish_yields hb c (f := fun q =>
    (numberBuffer (toInt (q.maxwidth + (cString q.newformat).length + 64))).bind fun size =>
      (sprintfInt (cString q.newformat) v).bind fun text => q.write size text) ?_
  rw [show cString (q.closed b (s ++ [c])).newformat = _ from cString_overlay hs, hmax]
  exact print_yields (numberBuffer_eq m) hx htext

theorem emit_int {v : ℤ} {rest : List PrintfArg} (hc : c ∈ lit "diouxXc") (hargs : q.args = .int v :: rest) :
    q.emit encode c = { q with args := rest }.writeInt c v := by
  have hall : ∀ c ∈ lit "diouxXc", ¬ (c = chr 's' ∨ c = chr 'S') ∧ c ∈ lit "dioxXuc" := List.all_iff_forall_prop.mp rfl
  rw [emit]
  dsimp only
  rw [if_neg (hall c hc).1, if_pos (hall c hc).2, hargs]

/-- A string that is written as it is given. -/
theorem emit_str (d : Directive) {rest : List PrintfArg} (h : ∀ v, d.arg ≠ .int v) (hencoder : q.encoder = [])
    (hargs : q.args = d.arg :: rest) :
    q.emit encode d.code = { q with args := rest }.writeString d.str d.str.length := by
  have hall : ∀ c ∈ lit "sS", c = chr 's' ∨ c = chr 'S' := List.all_iff_forall_prop.mp rfl
  obtain ⟨hcode, -, hstr⟩ := d.letter_of_str h
  rw [emit]
  simp only [if_pos hencoder]
  rw [if_pos (hall d.code hcode), hargs]
  revert hstr
  rw [Directive.str]
  cases hd : d.arg with
  | int v => exact absurd hd (h v)
  | null => exact fun _ => rfl
  | chars s =>
      intro hstr
      dsimp only at hstr ⊢
      rw [cString_eq hstr, cString_eq hstr]
  | object s => exact fun _ => rfl

/-- The columns are within the buffer: 512 bytes, or one more than the estimate. -/
theorem lt_buffer_iff {d : Directive} {m : ℤ} :
    d.written.length < max 512 (m + 1).toNat ↔ d.columns < 512 ∨ d.columns ≤ m := by
  rw [Directive.length_written_lt_iff (Nat.le_max_left _ _)]
  omega

/-- The directive in state 100. -/
theorem emit_yields (hb : b.length = 256) (d : Directive) {rest : List PrintfArg} (hencoder : q.encoder = [])
    (hargs : q.args = d.arg :: rest) (hwidth : q.widthval = recordedWidth d.width d.precision)
    (hprec : q.precval = recordedPrecision d.width d.precision) :
    Yields ((q.formed b d.filled).emit encode d.code)
      (d.filled.length ≤ 254 ∧ d.estimate b + 1 < 2 ^ 31 ∧ d.Readable ∧
        (d.columns < 512 ∨ d.columns ≤ d.estimate b))
      ({ q with args := rest }.printed b (d.filled ++ [d.letter]) d.written) := by
  have hfilled := d.zero_notMem_filled
  have hend : 0 ∉ d.filled ++ [d.letter] := zero_notMem_append.mpr ⟨hfilled, Directive.zero_notMem_letter⟩
  have htext := d.zero_notMem_written
  rw [← lt_buffer_iff]
  by_cases hint : ∃ v, d.arg = .int v
  · obtain ⟨v, hv⟩ := hint
    obtain ⟨hcode, hletter⟩ := d.letter_of_int hv
    have hm : d.estimate b = toInt (max q.widthval q.precval + (d.filled.length + 1 + 64 : ℕ)) := by
      rw [Directive.estimate, Directive.counted, hv, hwidth, hprec]
    have hx := d.sprintfInt_yields hv
    rw [emit_int encode (q := q.formed b d.filled) hcode (hargs.trans (by rw [hv]))]
    rw [hletter] at hx hend ⊢
    exact writeInt_yields (q := { q with args := rest }) hb hend hx htext hm
  · have hstr : ∀ v, d.arg ≠ .int v := fun v hv => hint ⟨v, hv⟩
    obtain ⟨-, hletter, hzero⟩ := d.letter_of_str hstr
    have hm : d.estimate b = toInt (max q.widthval q.precval +
        ((cString (overlay b d.filled)).length + d.str.length : ℕ)) := by
      rw [Directive.estimate, Directive.counted, hwidth, hprec]
      split
      · exact absurd ‹_› (hstr _)
      all_goals rfl
    have hx := d.sprintfString_yields hstr
    rw [emit_str encode (q := q.formed b d.filled) d hstr hencoder hargs]
    rw [hletter] at hx hend ⊢
    exact writeString_yields (q := { q with args := rest }) hb hend hzero hx htext hm

/-! ### Directives -/

/-- Between two directives. -/
structure Ready (q : Printf) (b : List Byte) (args : List PrintfArg) (out : List Byte) : Prop where
  state : q.state = .text
  newformat : q.newformat = b
  args : q.args = args
  out : q.out = out
  nbytes : q.nbytes = toInt q.out.length

theorem toInt_add (m n : ℕ) : toInt (toInt m + n) = toInt (m + n : ℕ) := by
  rw [toInt, toInt, toInt, Int.bmod_add_bmod]
  rfl

theorem step_percent (hb : b.length = 256) (hstate : q.state = .text) (hnew : q.newformat = b) :
    Yields (step encode q (chr '%')) True
      ({ q with widthval := 0, precval := 0, encoder := [], state := .flags }.formed b [chr '%']) := by
  have hbase : { q with fmt := 0, widthval := 0, precval := 0, encoder := [], state := .flags } =
      { q with widthval := 0, precval := 0, encoder := [], state := .flags }.formed b [] := by
    rw [formed, ← hnew]
    rfl
  rw [step, hstate]
  dsimp only
  rw [if_neg (not_not.mpr rfl), hbase]
  exact (put_yields hb).congr (iff_true_intro (by decide))

theorem mem_fmtCodes (d : Directive) : d.code ∈ fmtCodes := by
  have hall : ∀ c ∈ lit "diouxXcsS", c ∈ fmtCodes := List.all_iff_forall_prop.mp rfl
  exact hall d.code d.code_mem

/-- A whole directive. -/
theorem run_directive (hb : b.length = 256) (d : Directive) {rest : List PrintfArg} {out : List Byte}
    (hq : q.Ready b (d.args ++ rest) out) :
    ∃ r : Printf, r.Ready (d.left b) rest (out ++ d.written) ∧ Yields (d.text.foldlM (step encode) q) (d.Fits b) r := by
  have hargs : q.args = d.width.args ++ (d.precision.args ++ d.arg :: rest) := by
    rw [hq.args, Directive.args, List.append_assoc, List.append_assoc]
    rfl
  obtain ⟨temp, state, hok, hboth⟩ := reads_both encode (s := [chr '%'] ++ d.flags)
    (q := { q with widthval := 0, precval := 0, encoder := [], state := .flags })
    hb rfl rfl rfl d.width_ok d.precision_ok hargs
  have hpercent := step_percent encode hb hq.state hq.newformat
  rw [← run_one] at hpercent
  have hread := Reads.after hpercent fun _ => Reads.flags encode hb (by decide) rfl d.flags_ok hboth
  have hemit := emit_yields encode hb d (q := { q with
    state := state, temp := temp, encoder := [], args := d.arg :: rest
    widthval := recordedWidth d.width d.precision, precval := recordedPrecision d.width d.precision }) rfl
    (rfl : _ = d.arg :: rest) rfl rfl
  have hcode := hread.code hok (mem_fmtCodes d) fun _ => hemit
  have htext : d.text = [chr '%'] ++ (d.flags ++ (d.width.text ++ d.precision.text)) ++ [d.code] := by
    rw [Directive.text, List.append_assoc, List.append_assoc, List.append_assoc]
    rfl
  rw [htext]
  refine ⟨_, ?_, hcode.congr ?_⟩
  · refine ⟨rfl, rfl, rfl, congrArg (· ++ d.written) hq.out, ?_⟩
    rw [printed, hq.nbytes, toInt_add, List.length_append]
  · have hlen : d.filled.length = ([chr '%'] ++ d.flags).length + (d.width.filled ++ d.precision.filled).length := by
      rw [← List.length_append]
      rfl
    constructor
    · exact fun h => ⟨h.2.1, h.1.2.2.2.1, h.1.2.2.2.2, h.2.2.2.1, h.2.2.1, h.2.2.2.2⟩
    · intro h
      have hroom := h.room
      refine ⟨⟨trivial, by omega, ?_, h.width, h.precision⟩, hroom, h.estimate, h.readable, h.columns⟩
      rw [List.length_append]
      omega

end Printf

end Swig.DOH
