import Swig.DOH.PrintfBuffers

/-!
The formats of `DohvPrintf` that are made of literal text and directives.
-/

namespace Swig.DOH

/-- A piece of a format: literal text or a directive. -/
inductive FormatItem
  | char (c : Byte) (h : c ≠ chr '%' ∧ c ≠ 0)
  | directive (d : Directive)

namespace FormatItem

def text : FormatItem → List Byte
  | char c _ => [c]
  | directive d => d.text

def args : FormatItem → List PrintfArg
  | char .. => []
  | directive d => d.args

def written : FormatItem → List Byte
  | char c _ => [c]
  | directive d => d.written

/-- The format string. -/
def format (items : List FormatItem) : List Byte := items.flatMap text

/-- The argument list. -/
def arguments (items : List FormatItem) : List PrintfArg := items.flatMap args

/-- What the format stands for. -/
def output (items : List FormatItem) : List Byte := items.flatMap written

/-- Every directive has its room, over what those before it have left in `newformat`. -/
def AllFit : List Byte → List FormatItem → Prop
  | _, [] => True
  | b, .char .. :: items => AllFit b items
  | b, .directive d :: items => d.Fits b ∧ AllFit (d.left b) items

variable {b : List Byte}

theorem zero_notMem_text (i : FormatItem) : 0 ∉ i.text := by
  cases i with
  | char c h => exact fun h0 => h.2 (List.mem_singleton.mp h0).symm
  | directive d => exact Directive.zero_notMem_text

theorem zero_notMem_format (items : List FormatItem) : 0 ∉ format items := by
  intro h
  obtain ⟨i, -, hi⟩ := List.mem_flatMap.mp h
  exact i.zero_notMem_text hi

theorem length_left {d : Directive} (hb : b.length = 256) (h : d.Fits b) : (d.left b).length = 256 := by
  have hroom := h.room
  rw [Directive.left, length_overlay, hb]
  rw [List.length_append, List.length_append, List.length_singleton, List.length_singleton]
  omega

end FormatItem

open FormatItem

namespace Printf

variable (encode : List Byte → List Byte → List Byte) {b : List Byte}

theorem step_char {q : Printf} {c : Byte} {args : List PrintfArg} {out : List Byte} (h : c ≠ chr '%')
    (hq : q.Ready b args out) :
    ∃ r : Printf, r.Ready b args (out ++ [c]) ∧ Yields ([c].foldlM (step encode) q) True r := by
  refine ⟨{ q with nbytes := toInt (q.nbytes + 1), out := q.out ++ [c] }, ?_, ?_⟩
  · refine ⟨hq.state, hq.newformat, hq.args, congrArg (· ++ [c]) hq.out, ?_⟩
    dsimp only
    rw [hq.nbytes, List.length_append]
    exact toInt_add q.out.length 1
  · rw [run_one, step, hq.state]
    dsimp only
    rw [if_pos h]
    exact Yields.some _

/-- A whole format: it is run to its end if every directive has its room. -/
theorem run_format (hb : b.length = 256) (items : List FormatItem) {q : Printf} {out : List Byte}
    (hq : q.Ready b (arguments items) out) :
    ∃ r : Printf, (AllFit b items → r.state = .text ∧ r.out = out ++ output items ∧ r.nbytes = toInt r.out.length) ∧
      Yields ((format items).foldlM (step encode) q) (AllFit b items) r := by
  induction items generalizing b q out with
  | nil =>
      refine ⟨q, fun _ => ⟨hq.state, ?_, hq.nbytes⟩, Yields.some q⟩
      exact hq.out.trans (List.append_nil out).symm
  | cons i items ih =>
      have hformat : format (i :: items) = i.text ++ format items := List.flatMap_cons
      have houtput : out ++ output (i :: items) = out ++ i.written ++ output items := by
        rw [output, List.flatMap_cons, ← List.append_assoc]
        rfl
      rw [hformat, houtput, List.foldlM_append, Option.bind_eq_bind]
      cases i with
      | char c h =>
          obtain ⟨r, hr, hstep⟩ := step_char encode h.1 hq
          obtain ⟨r', hr', hrun⟩ := ih hb hr
          exact ⟨r', hr', (hstep.bind fun _ => hrun).congr (iff_of_eq (true_and _))⟩
      | directive d =>
          obtain ⟨r, hr, hstep⟩ := run_directive encode hb d hq
          by_cases hfits : d.Fits b
          · obtain ⟨r', hr', hrun⟩ := ih (length_left hb hfits) hr
            exact ⟨r', fun h => hr' h.2, hstep.bind fun _ => hrun⟩
          · exact ⟨q, fun h => absurd h.1 hfits, hstep.bind fun h => absurd h hfits⟩

end Printf

theorem ready_start (args : List PrintfArg) :
    Printf.Ready { args := args } (List.replicate 256 0) args [] where
  state := rfl
  newformat := rfl
  args := rfl
  out := rfl
  nbytes := (by decide : (0 : ℤ) = toInt 0)

/-- The output and the value returned, if every directive has its room. -/
theorem dohvPrintf_yields (encode : List Byte → List Byte → List Byte) (items : List FormatItem) :
    Yields (dohvPrintf encode (format items) (arguments items)) (AllFit (List.replicate 256 0) items)
      (toInt (output items).length, output items) := by
  obtain ⟨r, hr, hrun⟩ := Printf.run_format encode List.length_replicate items (ready_start _)
  have hend (h : AllFit (List.replicate 256 0) items) :
      Yields (if r.state = .text ∨ r.fmt < 256 then some (r.nbytes, r.out) else none) True
        (toInt (output items).length, output items) := by
    obtain ⟨hstate, hout, hbytes⟩ := hr h
    rw [if_pos (.inl hstate), hbytes, hout, List.nil_append]
    exact Yields.some _
  rw [dohvPrintf, cString_eq (zero_notMem_format items)]
  exact (hrun.bind hend).congr (iff_of_eq (and_true _))

/-- A format whose directives are plain is written, and its length returned. -/
theorem dohvPrintf_plain (encode : List Byte → List Byte → List Byte) {items : List FormatItem}
    (h : ∀ d, .directive d ∈ items → d.Plain) :
    dohvPrintf encode (format items) (arguments items) = some (toInt (output items).length, output items) := by
  refine (dohvPrintf_yields encode items).eq_some ?_
  generalize hb : List.replicate 256 (0 : Byte) = b
  have hlen : b.length = 256 := by rw [← hb, List.length_replicate]
  clear hb
  induction items generalizing b with
  | nil => trivial
  | cons i items ih =>
      have hitems : ∀ d, .directive d ∈ items → d.Plain := fun d hd => h d (List.mem_cons_of_mem i hd)
      cases i with
      | char c hc => exact ih hitems b hlen
      | directive d =>
          have hfits := (h d (List.mem_cons_self ..)).fits hlen
          exact ⟨hfits, ih hitems _ (length_left hlen hfits)⟩

theorem toInt_eq_iff (n : ℕ) : toInt n = n ↔ n < 2 ^ 31 := by
  rw [toInt, Int.bmod_def]
  omega

/-- No buffer is left, and the value returned is the number of bytes written, if and only if every
directive has its room and the output is counted by an `int`. -/
theorem dohvPrintf_iff (encode : List Byte → List Byte → List Byte) (items : List FormatItem) :
    (∃ out, dohvPrintf encode (format items) (arguments items) = some ((out.length : ℤ), out)) ↔
      AllFit (List.replicate 256 0) items ∧ (output items).length < 2 ^ 31 := by
  have hyields := dohvPrintf_yields encode items
  rw [← toInt_eq_iff]
  constructor
  · rintro ⟨out, hout⟩
    obtain ⟨hfit, heq⟩ := (hyields _).mp hout
    obtain ⟨hlen, rfl⟩ := Prod.mk.inj heq
    exact ⟨hfit, hlen.symm⟩
  · rintro ⟨hfit, hlen⟩
    refine ⟨output items, (hyields _).mpr ⟨hfit, ?_⟩⟩
    rw [hlen]

/-- `%*d` with a width of -600: the width is read as 0 when the buffer is selected. -/
theorem dohvPrintf_overrun : ∃ items : List FormatItem, format items = lit "%*d" ∧
    arguments items = [.int (-600), .int 1] ∧ ¬ ∃ out,
      dohvPrintf (fun _ s => s) (format items) (arguments items) = some ((out.length : ℤ), out) := by
  let d : Directive := ⟨[], .star (-600), .absent, chr 'd', .int 1, nofun, ⟨by decide, by decide⟩, trivial,
    by decide, ⟨by decide, by decide⟩, by decide⟩
  refine ⟨[.directive d], rfl, rfl, ?_⟩
  rintro ⟨out, hout⟩
  obtain ⟨⟨hfits, -⟩, -⟩ := (dohvPrintf_yields _ _ _).mp hout
  have hcolumns : ¬ (d.columns < 512 ∨ d.columns ≤ d.estimate (List.replicate 256 0)) := by decide
  exact hcolumns hfits.columns

end Swig.DOH
