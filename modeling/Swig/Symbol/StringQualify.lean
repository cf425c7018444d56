import Swig.DOH.Replace
import Swig.Misc.ScopeName
import Swig.SType.ArrayType

/-!
`Swig_symbol_string_qualify` (`symbol.c`): the identifiers of a text are put through
`Swig_symbol_type_qualify`, against the qualified identifiers of C++ in it.
-/

namespace Swig.Symbol

open DOH (isIdent)
open SType Misc

/-! ### The functions -/

/-- What the symbol table gives for a name: the name of the node and of what it is in, by
`Swig_symbol_clookup_check(e, st, no_constructor)`, and `Swig_symbol_template_qualify`. No symbol
has a name that begins with a colon of its own. -/
structure NameTable where
  clookup : SwigType → Option (List Byte × List Byte)
  templateQualify : SwigType → SwigType
  colon : ∀ e, e.head? = some (chr ':') → clookup e = none

/-- An element that is a name. -/
def NameTable.qualifySimple (T : NameTable) (e : SwigType) : SwigType :=
  let e :=
    match T.clookup e with
    | some (name, qname) =>
        if !scopenameCheck name ∧ qname ≠ [] then qname ++ (lit "::" ++ name) else name
    | none => if istemplate e then T.templateQualify e else e
  if (lit "::").isPrefixOf e then e.drop 2 else e

/-- `Swig_symbol_type_qualify`, `n` levels of parameters deep. -/
def NameTable.typeQualifyAux (T : NameTable) : ℕ → SwigType → SwigType
  | 0, _ => []
  | n + 1, t =>
      if (lit "::").isPrefixOf t then t
      else
        ((split t).map fun e =>
          if issimple e then T.qualifySimple e
          else if isfunction e then
            lit "f(" ++ (lit ",").intercalate (((parmlist e).getD []).map (T.typeQualifyAux n)) ++ lit ")."
          else e).flatten

/-- `Swig_symbol_type_qualify`; the parameters of a type are shorter than it. -/
def NameTable.typeQualify (T : NameTable) (t : SwigType) : SwigType := T.typeQualifyAux (t.length + 1) t

/-- The test of `Swig_symbol_string_qualify`. -/
def isIdByte (c : Byte) : Bool := isalpha c || c == chr '_' || c == chr ':'

/-- The loop of `Swig_symbol_string_qualify`; `have_id` is that `id` is not empty. -/
def stringLoop (qualify : List Byte → List Byte) : List Byte → List Byte → List Byte
  | id, [] => if id = [] then [] else qualify id
  | id, c :: s =>
      if isIdByte c then stringLoop qualify (id ++ [c]) s
      else (if id = [] then [] else qualify id) ++ c :: stringLoop qualify [] s

/-- `Swig_symbol_string_qualify`. -/
def stringQualify (T : NameTable) (s : List Byte) : List Byte := stringLoop T.typeQualify [] s

/-! ### Qualified identifiers -/

/-- The bytes of a text, with `none` for a `::`. -/
def units : List Byte → List (Option Byte)
  | [] => []
  | [c] => [some c]
  | c :: d :: s => if c = chr ':' ∧ d = chr ':' then none :: units s else some c :: units (d :: s)

def unitText : Option Byte → List Byte
  | none => lit "::"
  | some c => [c]

/-- A run of letters, digits, `_` and `::` is an identifier if it does not begin with a digit. -/
def putRun (qualify : List Byte → List Byte) (id : List Byte) : List Byte :=
  if id = [] then [] else if id.head?.any isdigit then id else qualify id

def identLoop (qualify : List Byte → List Byte) : List Byte → List (Option Byte) → List Byte
  | id, [] => putRun qualify id
  | id, none :: us => identLoop qualify (id ++ lit "::") us
  | id, some c :: us =>
      if isIdent c then identLoop qualify (id ++ [c]) us else putRun qualify id ++ c :: identLoop qualify [] us

/-- The text with its maximal qualified identifiers qualified. -/
def qualifyIdentifiers (T : NameTable) (s : List Byte) : List Byte := identLoop T.typeQualify [] (units s)

/-! ### When they agree -/

def isNameStart (c : Byte) : Bool := isalpha c || c == chr '_'

/-- Letters, digits, `_` and colons. -/
def inRun (u : Option Byte) : Bool := u.all fun c => isIdent c || c == chr ':'

/-- No digit and no colon of its own. -/
def Whole (us : List (Option Byte)) : Prop := ∀ u ∈ us, u.all isNameStart

/-- Each letter and each `_` directly follows another one or a `::`; `bound` tells if one is
in front. -/
def Settled : Bool → List (Option Byte) → Prop
  | _, [] => True
  | _, none :: us => Settled true us
  | bound, some c :: us => if isNameStart c then bound = true ∧ Settled true us else Settled false us

/-- The runs of letters, digits, `_` and colons. -/
def runs (us : List (Option Byte)) : List (List (Option Byte)) := us.splitOnP fun u => !inRun u

instance (us : List (Option Byte)) : Decidable (Whole us) := List.decidableBAll _ us

example : runs (units (lit "a::b + 10")) = [units (lit "a::b"), [], [], units (lit "10")] := rfl

variable {T : NameTable} {c : Byte} {s id w : List Byte} {us r : List (Option Byte)} {bound : Bool}

theorem flatMap_units (s : List Byte) : (units s).flatMap unitText = s := by
  induction s using units.induct with
  | case1 => rfl
  | case2 c => rfl
  | case3 c d s h ih =>
      rw [units, if_pos h, List.flatMap_cons, ih, h.1, h.2]
      rfl
  | case4 c d s h ih =>
      rw [units, if_neg h, List.flatMap_cons, ih]
      rfl

/-! ### Names without template arguments -/

theorem elementSplit_name (h : ∀ c ∈ w, c ≠ chr '.' ∧ c ≠ chr '(') : elementSplit 0 w = (w, []) := by
  induction w with
  | nil => rfl
  | cons c w ih =>
      obtain ⟨⟨hdot, hopen⟩, hw⟩ := List.forall_mem_cons.mp h
      rw [elementSplit, if_neg hdot, if_neg hopen, ih hw]

theorem split_name (h : ∀ c ∈ w, c ≠ chr '.' ∧ c ≠ chr '(') (hne : w ≠ []) : split w = [w] := by
  have hend : ([] : SwigType).head? ≠ some (chr '.') := by decide
  obtain ⟨n, hn⟩ := Nat.exists_eq_add_one_of_ne_zero (List.length_pos_of_ne_nil hne).ne'
  have hone := splitAux_cons (s := []) (by rw [List.append_nil, elementSplit_name h]) hne hend n
  rw [List.append_nil] at hone
  rw [split, hn, hone]
  cases n <;> rfl

theorem issimple_name (h : ∀ c ∈ w, c ≠ chr '.' ∧ c ≠ chr '<') : issimple w = true := by
  rw [issimple]
  induction w with
  | nil => rfl
  | cons c w ih =>
      obtain ⟨⟨hdot, hangle⟩, hw⟩ := List.forall_mem_cons.mp h
      rw [issimpleAux, if_neg hangle, ih hw, Bool.and_true]
      simpa using hdot

theorem istemplate_name (h : chr '<' ∉ w) : istemplate w = false := by
  have hnone : ByteBlock.indexOf (lit "<(") w = none := ByteBlock.indexOf_of_head_notMem h
  rw [istemplate, hnone]
  rfl

/-- The bytes of a run are none of the punctuation of encodings, and of one kind only. -/
theorem inRun_punct : ∀ c, (inRun (some c) = true → c ≠ chr '.' ∧ c ≠ chr '(' ∧ c ≠ chr '<') ∧
    (isNameStart c = true → isdigit c = false ∧ c ≠ chr ':') := by
  decide +kernel

/-- Letters, digits, `_` and colons are a name of one element. -/
theorem typeQualify_name (T : NameTable) (hne : w ≠ []) (hw : ∀ c ∈ w, inRun (some c)) :
    T.typeQualify w = if (lit "::").isPrefixOf w then w else T.qualifySimple w := by
  have hbytes c (h : inRun (some c) = true) := (inRun_punct c).1 h
  have hsplit := split_name (fun c hc => ⟨(hbytes c (hw c hc)).1, (hbytes c (hw c hc)).2.1⟩) hne
  have hsimple := issimple_name fun c hc => ⟨(hbytes c (hw c hc)).1, (hbytes c (hw c hc)).2.2⟩
  rw [NameTable.typeQualify, NameTable.typeQualifyAux, hsplit]
  simp only [List.map_cons, List.map_nil, List.flatten_cons, List.flatten_nil, List.append_nil, hsimple, if_true]

theorem typeQualify_unknown (hne : w ≠ []) (hw : ∀ c ∈ w, inRun (some c)) (hnone : T.clookup w = none) :
    T.typeQualify w = w := by
  have htemplate := istemplate_name fun h => ((inRun_punct _).1 (hw _ h)).2.2 rfl
  rw [typeQualify_name T hne hw]
  split
  · rfl
  · rename_i hscope
    rw [NameTable.qualifySimple, hnone]
    dsimp only
    rw [htemplate, if_neg Bool.false_ne_true, if_neg hscope]

/-- What begins with a colon is left as it is. -/
theorem typeQualify_colon (T : NameTable) (hhead : w.head? = some (chr ':')) (hw : ∀ c ∈ w, inRun (some c)) :
    T.typeQualify w = w := by
  have hne : w ≠ [] := by
    rintro rfl
    cases hhead
  exact typeQualify_unknown hne hw (T.colon w hhead)

/-- A table with one name, which is in another scope. -/
def oneName (w : List Byte) (c : Byte) (hw : w.head? ≠ some (chr ':')) : NameTable where
  clookup e := if e = w then some (lit "x", if c = chr 'N' then lit "M" else lit "N") else none
  templateQualify e := e
  colon := by
    intro e he
    rw [if_neg]
    rintro rfl
    exact hw he

theorem oneName_other (hw : w.head? ≠ some (chr ':')) {v : List Byte} (hv : v ≠ w) (hne : v ≠ [])
    (hrun : ∀ c ∈ v, inRun (some c)) : (oneName w c hw).typeQualify v = v :=
  typeQualify_unknown hne hrun (if_neg hv)

theorem oneName_self (hw : w.head? ≠ some (chr ':')) (hhead : w.head? = some c) (hrun : ∀ c ∈ w, inRun (some c)) :
    ∃ d v, d ≠ c ∧ (oneName w c hw).typeQualify w = d :: v := by
  have hne : w ≠ [] := by
    rintro rfl
    cases hhead
  have hscope : (lit "::").isPrefixOf w = false := by
    cases w with
    | nil => rfl
    | cons b w =>
        have hb : chr ':' ≠ b := fun h => hw (by rw [h]; rfl)
        show (chr ':' == b && _) = false
        rw [beq_false_of_ne hb, Bool.false_and]
  have hlook : (oneName w c hw).clookup w = some (lit "x", if c = chr 'N' then lit "M" else lit "N") := if_pos rfl
  rw [typeQualify_name _ hne hrun, if_neg (by simp [hscope]), NameTable.qualifySimple, hlook]
  by_cases hN : c = chr 'N'
  · rw [if_pos hN, hN]
    dsimp only
    exact ⟨chr 'M', lit "::x", by decide, rfl⟩
  · rw [if_neg hN]
    dsimp only
    exact ⟨chr 'N', lit "::x", fun h => hN h.symm, rfl⟩

/-! ### The bytes of a run -/

theorem isIdByte_inRun (c : Byte) (h : isIdByte c = true) : inRun (some c) = true := by
  simp only [isIdByte, inRun, isIdent, isalnum, Option.all_some, Bool.or_eq_true] at h ⊢
  tauto

theorem isIdent_inRun (c : Byte) (h : isIdent c = true) : inRun (some c) = true := by
  rw [inRun, Option.all_some, h, Bool.true_or]

/-- A byte of a run is the start of a name, a digit or a colon. -/
theorem inRun_cases (c : Byte) (h : inRun (some c) = true) :
    isNameStart c = true ∨ isdigit c = true ∨ c = chr ':' := by
  simp only [isNameStart, inRun, isIdent, isalnum, Option.all_some, Bool.or_eq_true, beq_iff_eq] at h ⊢
  tauto

theorem isNameStart_bytes (c : Byte) (h : isNameStart c = true) :
    isIdByte c = true ∧ isIdent c = true ∧ isdigit c = false ∧ c ≠ chr ':' := by
  obtain ⟨hdigit, hcolon⟩ := (inRun_punct c).2 h
  rw [isNameStart] at h
  refine ⟨by rw [isIdByte, h, Bool.true_or], ?_, hdigit, hcolon⟩
  rw [isIdent, isalnum, hdigit, Bool.or_false, h]

theorem isdigit_bytes (c : Byte) (h : isdigit c = true) :
    isIdByte c = false ∧ isIdent c = true ∧ isNameStart c = false := by
  have hstart : isNameStart c = false := by
    by_contra hname
    have hdigit := ((inRun_punct c).2 (Bool.of_not_eq_false hname)).1
    rw [h] at hdigit
    cases hdigit
  refine ⟨?_, ?_, hstart⟩
  · rw [isIdByte, show (isalpha c || c == chr '_') = false from hstart, Bool.false_or, beq_eq_false_iff_ne]
    rintro rfl
    cases h
  · rw [isIdent, isalnum, h, Bool.or_true, Bool.true_or]

theorem colon_bytes : isIdByte (chr ':') = true ∧ isIdent (chr ':') = false ∧ isNameStart (chr ':') = false ∧
    isdigit (chr ':') = false := ⟨rfl, rfl, rfl, rfl⟩

/-- What is left as it is wherever it ends: a text that begins with a colon. -/
def Colon (w : List Byte) : Prop := w.head? = some (chr ':') ∧ ∀ c ∈ w, inRun (some c)

/-- A run of an identifier that begins with a colon or a digit. -/
def Still (w : List Byte) : Prop :=
  (w.head? = some (chr ':') ∨ w.head?.any isdigit) ∧ ∀ c ∈ w, inRun (some c)

theorem head_append {b : Byte} {v : List Byte} (h : w.head? = some b) : (w ++ v).head? = some b := by
  rw [List.head?_append, h]
  rfl

theorem forall_inRun_append {v : List Byte} (hw : ∀ c ∈ w, inRun (some c)) (hv : ∀ c ∈ v, inRun (some c)) :
    ∀ c ∈ w ++ v, inRun (some c) := by
  intro c hc
  obtain hc | hc := List.mem_append.mp hc
  · exact hw c hc
  · exact hv c hc

theorem inRun_lit : ∀ c ∈ lit "::", inRun (some c) := by
  intro c hc
  obtain rfl | rfl | hc : c = chr ':' ∨ c = chr ':' ∨ c ∈ [] := by simpa [lit] using hc
  · rfl
  · rfl
  · cases hc

theorem Colon.append (h : Colon w) {v : List Byte} (hv : ∀ c ∈ v, inRun (some c)) : Colon (w ++ v) :=
  ⟨head_append h.1, forall_inRun_append h.2 hv⟩

theorem Still.append (h : Still w) {v : List Byte} (hv : ∀ c ∈ v, inRun (some c)) : Still (w ++ v) := by
  refine ⟨?_, forall_inRun_append h.2 hv⟩
  cases w with
  | nil => simp [Still] at h
  | cons b w => exact h.1

theorem Colon.ne_nil (h : Colon w) : w ≠ [] := by
  rintro rfl
  cases h.1

theorem Still.ne_nil (h : Still w) : w ≠ [] := by
  rintro rfl
  simp [Still] at h

theorem Colon.qualify (h : Colon w) : T.typeQualify w = w := typeQualify_colon T h.1 h.2

theorem Still.putRun (h : Still w) : putRun T.typeQualify w = w := by
  rw [Symbol.putRun, if_neg h.ne_nil]
  split
  · rfl
  · rename_i hdigit
    exact typeQualify_colon T (h.1.resolve_right hdigit) h.2

/-! ### The loops -/

variable {q : List Byte → List Byte}

theorem stringLoop_id (hs : ∀ c ∈ s, isIdByte c) : stringLoop q id s = if id ++ s = [] then [] else q (id ++ s) := by
  induction s generalizing id with
  | nil => rw [stringLoop, List.append_nil]
  | cons c s ih =>
      obtain ⟨hc, hs⟩ := List.forall_mem_cons.mp hs
      rw [stringLoop, if_pos hc, ih hs, List.append_assoc, List.singleton_append]

/-- What is read is qualified with some of what follows. -/
theorem stringLoop_run (id s : List Byte) (hne : id ≠ []) :
    ∃ w, (∀ c ∈ w, inRun (some c)) ∧ ∀ q, ∃ y, stringLoop q id s = q (id ++ w) ++ y := by
  induction s generalizing id with
  | nil => exact ⟨[], by simp, fun q => ⟨[], by rw [stringLoop, if_neg hne, List.append_nil, List.append_nil]⟩⟩
  | cons c s ih =>
      by_cases hc : isIdByte c
      · obtain ⟨w, hw, hq⟩ := ih (id ++ [c]) (List.append_ne_nil_of_left_ne_nil hne _)
        refine ⟨c :: w, List.forall_mem_cons.mpr ⟨isIdByte_inRun c hc, hw⟩, fun q => ?_⟩
        obtain ⟨y, hy⟩ := hq q
        refine ⟨y, ?_⟩
        rw [stringLoop, if_pos hc, hy, List.append_assoc, List.singleton_append]
      · refine ⟨[], by simp, fun q => ⟨c :: stringLoop q [] s, ?_⟩⟩
        rw [stringLoop, if_neg hc, if_neg hne, List.append_nil]

theorem identLoop_run (id : List Byte) (us : List (Option Byte)) :
    ∃ w, (∀ c ∈ w, inRun (some c)) ∧ ∀ q, ∃ y, identLoop q id us = putRun q (id ++ w) ++ y := by
  induction us generalizing id with
  | nil => exact ⟨[], by simp, fun q => ⟨[], by rw [identLoop, List.append_nil, List.append_nil]⟩⟩
  | cons u us ih =>
      cases u with
      | none =>
          obtain ⟨w, hw, hq⟩ := ih (id ++ lit "::")
          refine ⟨lit "::" ++ w, forall_inRun_append inRun_lit hw, fun q => ?_⟩
          obtain ⟨y, hy⟩ := hq q
          exact ⟨y, by rw [identLoop, hy, List.append_assoc]⟩
      | some c =>
          by_cases hc : isIdent c
          · obtain ⟨w, hw, hq⟩ := ih (id ++ [c])
            refine ⟨c :: w, List.forall_mem_cons.mpr ⟨isIdent_inRun c hc, hw⟩, fun q => ?_⟩
            obtain ⟨y, hy⟩ := hq q
            exact ⟨y, by rw [identLoop, if_pos hc, hy, List.append_assoc, List.singleton_append]⟩
          · refine ⟨[], by simp, fun q => ⟨c :: identLoop q [] us, ?_⟩⟩
            rw [identLoop, if_neg hc, List.append_nil]

/-- A byte outside of the runs ends them. -/
theorem stringLoop_append (hc : isIdByte c = false) (id r s : List Byte) :
    stringLoop q id (r ++ c :: s) = stringLoop q id r ++ c :: stringLoop q [] s := by
  have hno : ¬isIdByte c = true := by simp [hc]
  induction r generalizing id with
  | nil => rw [List.nil_append, stringLoop.eq_2, if_neg hno, stringLoop.eq_1]
  | cons b r ih =>
      rw [List.cons_append, stringLoop, stringLoop, ih, ih]
      split
      · rfl
      · rw [List.append_assoc, List.cons_append]

theorem identLoop_append (hc : isIdent c = false) (id : List Byte) (r us : List (Option Byte)) :
    identLoop q id (r ++ some c :: us) = identLoop q id r ++ c :: identLoop q [] us := by
  have hno : ¬isIdent c = true := by simp [hc]
  induction r generalizing id with
  | nil => rw [List.nil_append, identLoop.eq_3, if_neg hno, identLoop.eq_1]
  | cons u r ih =>
      cases u with
      | none => rw [List.cons_append, identLoop, identLoop, ih]
      | some b =>
          rw [List.cons_append, identLoop, identLoop, ih, ih]
          split
          · rfl
          · rw [List.append_assoc, List.cons_append]

theorem stringLoop_pair (id s : List Byte) : stringLoop q id (lit "::" ++ s) = stringLoop q (id ++ lit "::") s := by
  have hcolon : isIdByte (chr ':') = true := colon_bytes.1
  show stringLoop q id (chr ':' :: chr ':' :: s) = _
  rw [stringLoop, if_pos hcolon, stringLoop, if_pos hcolon, List.append_assoc]
  rfl

/-! ### Runs on which they agree -/

theorem loops_whole_append (h : Whole r) (id s : List Byte) (us : List (Option Byte)) :
    stringLoop q id (r.flatMap unitText ++ s) = stringLoop q (id ++ r.flatMap unitText) s ∧
      identLoop q id (r ++ us) = identLoop q (id ++ r.flatMap unitText) us := by
  induction r generalizing id with
  | nil => exact ⟨by rw [List.flatMap_nil, List.nil_append, List.append_nil],
      by rw [List.flatMap_nil, List.nil_append, List.append_nil]⟩
  | cons u r ih =>
      obtain ⟨hu, hr⟩ := List.forall_mem_cons.mp h
      rw [List.flatMap_cons, ← List.append_assoc, List.append_assoc (unitText u), List.cons_append]
      cases u with
      | none =>
          obtain ⟨hstring, hident⟩ := ih hr (id ++ lit "::")
          exact ⟨by rw [unitText, stringLoop_pair, hstring], by rw [identLoop, hident, unitText]⟩
      | some c =>
          obtain ⟨hid, hident, -, -⟩ := isNameStart_bytes c hu
          obtain ⟨hstring, hident'⟩ := ih hr (id ++ [c])
          refine ⟨?_, by rw [identLoop, if_pos hident, hident', unitText]⟩
          rw [unitText, List.singleton_append, stringLoop, if_pos hid, hstring]

theorem loops_settled (hsettled : Settled bound us) (hrun : ∀ u ∈ us, inRun u) {u p : List Byte}
    (hu : u = [] ∨ Colon u) (hp : p = [] ∨ Still p) (hbound : bound = true → u ≠ [] ∧ p ≠ []) :
    stringLoop T.typeQualify u (us.flatMap unitText) = u ++ us.flatMap unitText ∧
      identLoop T.typeQualify p us = p ++ us.flatMap unitText := by
  have hend {u : List Byte} (hu : u = [] ∨ Colon u) : (if u = [] then [] else T.typeQualify u) = u := by
    obtain rfl | hu := hu
    · rfl
    · rw [if_neg hu.ne_nil, hu.qualify]
  have hput {p : List Byte} (hp : p = [] ∨ Still p) : putRun T.typeQualify p = p := by
    obtain rfl | hp := hp
    · rfl
    · exact hp.putRun
  induction us generalizing bound u p with
  | nil => exact ⟨by rw [List.flatMap_nil, stringLoop, hend hu, List.append_nil],
      by rw [List.flatMap_nil, identLoop, hput hp, List.append_nil]⟩
  | cons x us ih =>
      obtain ⟨hx, hrest⟩ := List.forall_mem_cons.mp hrun
      rw [List.flatMap_cons]
      cases x with
      | none =>
          have hu' : Colon (u ++ lit "::") := by
            obtain rfl | hu := hu
            · exact ⟨rfl, inRun_lit⟩
            · exact hu.append inRun_lit
          have hp' : Still (p ++ lit "::") := by
            obtain rfl | hp := hp
            · exact ⟨.inl rfl, inRun_lit⟩
            · exact hp.append inRun_lit
          obtain ⟨hstring, hident⟩ := ih hsettled hrest (.inr hu') (.inr hp') fun _ => ⟨hu'.ne_nil, hp'.ne_nil⟩
          rw [unitText, stringLoop_pair, identLoop, hstring, hident, List.append_assoc, List.append_assoc]
          exact ⟨rfl, rfl⟩
      | some c =>
          rw [unitText, List.singleton_append]
          obtain hstart | hdigit | rfl := inRun_cases c hx
          · -- behind another letter or a `::`
            rw [Settled, if_pos hstart] at hsettled
            obtain ⟨hune, hpne⟩ := hbound hsettled.1
            obtain ⟨hid, hident, -, -⟩ := isNameStart_bytes c hstart
            have hone : ∀ b ∈ [c], inRun (some b) := by simpa using hx
            have hu' := (hu.resolve_left hune).append hone
            have hp' := (hp.resolve_left hpne).append hone
            obtain ⟨hstring, hident'⟩ := ih hsettled.2 hrest (.inr hu') (.inr hp') fun _ => ⟨hu'.ne_nil, hp'.ne_nil⟩
            rw [stringLoop, if_pos hid, identLoop, if_pos hident, hstring, hident', List.append_assoc,
              List.append_assoc]
            exact ⟨rfl, rfl⟩
          · obtain ⟨hid, hident, hstart⟩ := isdigit_bytes c hdigit
            rw [Settled, if_neg (by simp [hstart])] at hsettled
            have hone : ∀ b ∈ [c], inRun (some b) := by simpa using hx
            have hp' : Still (p ++ [c]) := by
              obtain rfl | hp := hp
              · exact ⟨.inr hdigit, hone⟩
              · exact hp.append hone
            obtain ⟨hstring, hident'⟩ := ih hsettled hrest (.inl rfl) (.inr hp') (by simp)
            rw [stringLoop, if_neg (by simp [hid]), hend hu, hstring, identLoop, if_pos hident, hident',
              List.append_assoc]
            exact ⟨rfl, rfl⟩
          · obtain ⟨hid, hident, hstart, -⟩ := colon_bytes
            rw [Settled, if_neg (by simp [hstart])] at hsettled
            have hone : ∀ b ∈ [chr ':'], inRun (some b) := by simpa using hx
            have hu' : Colon (u ++ [chr ':']) := by
              obtain rfl | hu := hu
              · exact ⟨rfl, hone⟩
              · exact hu.append hone
            obtain ⟨hstring, hident'⟩ := ih hsettled hrest (.inr hu') (.inl rfl) (by simp)
            rw [stringLoop, if_pos hid, hstring, identLoop, if_neg (by simp [hident]), hput hp, hident',
              List.append_assoc]
            exact ⟨rfl, rfl⟩

/-! ### Runs on which they differ -/

/-- The texts differ at a byte that both have. -/
def Differ (x y : List Byte) : Prop := ∃ a b c u v, b ≠ c ∧ x = a ++ b :: u ∧ y = a ++ c :: v

theorem Differ.append_left {x y : List Byte} (h : Differ x y) (a : List Byte) : Differ (a ++ x) (a ++ y) := by
  obtain ⟨a', b, c, u, v, hne, rfl, rfl⟩ := h
  exact ⟨a ++ a', b, c, u, v, hne, by rw [List.append_assoc], by rw [List.append_assoc]⟩

theorem Differ.append_ne {x y : List Byte} (h : Differ x y) (s t : List Byte) : x ++ s ≠ y ++ t := by
  obtain ⟨a, b, c, u, v, hne, rfl, rfl⟩ := h
  intro heq
  rw [List.append_assoc, List.append_assoc, List.append_cancel_left_eq] at heq
  exact hne (List.cons.inj heq).1

theorem Colon.stringLoop (h : Colon w) (T : NameTable) (s : List Byte) :
    ∃ y, stringLoop T.typeQualify w s = w ++ y := by
  obtain ⟨v, hv, hq⟩ := stringLoop_run w s h.ne_nil
  obtain ⟨y, hy⟩ := hq T.typeQualify
  exact ⟨v ++ y, by rw [hy, (h.append hv).qualify, List.append_assoc]⟩

theorem Still.identLoop (h : Still w) (T : NameTable) (us : List (Option Byte)) :
    ∃ y, identLoop T.typeQualify w us = w ++ y := by
  obtain ⟨v, hv, hq⟩ := identLoop_run w us
  obtain ⟨y, hy⟩ := hq T.typeQualify
  exact ⟨v ++ y, by rw [hy, (h.append hv).putRun, List.append_assoc]⟩

theorem putRun_start (hc : isNameStart c) (w : List Byte) : putRun q (c :: w) = q (c :: w) := by
  have hdigit : ¬((c :: w).head?.any isdigit) = true := by
    simpa using (isNameStart_bytes c hc).2.2.1
  rw [putRun, if_neg (List.cons_ne_nil _ _), if_neg hdigit]

theorem head_ne_colon (hc : isNameStart c) (w : List Byte) : (c :: w).head? ≠ some (chr ':') :=
  fun h => (isNameStart_bytes c hc).2.2.2 (Option.some.inj h)

/-- A name that begins where only one of the two begins one. -/
theorem loops_differ (hsettled : ¬Settled bound us) (hrun : ∀ u ∈ us, inRun u) {u p : List Byte}
    (hu : u = [] ∨ Colon u) (hp : p = [] ∨ Still p) (hbound : bound = true ↔ u ≠ [] ∧ p ≠ [])
    (hstart : u = [] → p = [] → ∀ c, us.head? = some (some c) → isNameStart c = false) :
    ∃ T : NameTable, ∃ x y, Differ x y ∧ stringLoop T.typeQualify u (us.flatMap unitText) = u ++ x ∧
      identLoop T.typeQualify p us = p ++ y := by
  have hend (T : NameTable) {u : List Byte} (hu : u = [] ∨ Colon u) :
      (if u = [] then [] else T.typeQualify u) = u := by
    obtain rfl | hu := hu
    · rfl
    · rw [if_neg hu.ne_nil, hu.qualify]
  have hput (T : NameTable) {p : List Byte} (hp : p = [] ∨ Still p) : putRun T.typeQualify p = p := by
    obtain rfl | hp := hp
    · rfl
    · exact hp.putRun
  induction us generalizing bound u p with
  | nil => exact absurd trivial hsettled
  | cons x us ih =>
      obtain ⟨hx, hrest⟩ := List.forall_mem_cons.mp hrun
      rw [List.flatMap_cons]
      cases x with
      | none =>
          have hu' : Colon (u ++ lit "::") := by
            obtain rfl | hu := hu
            · exact ⟨rfl, inRun_lit⟩
            · exact hu.append inRun_lit
          have hp' : Still (p ++ lit "::") := by
            obtain rfl | hp := hp
            · exact ⟨.inl rfl, inRun_lit⟩
            · exact hp.append inRun_lit
          obtain ⟨T, x, y, hdiffer, hstring, hident⟩ := ih hsettled hrest (.inr hu') (.inr hp')
            (iff_of_true rfl ⟨hu'.ne_nil, hp'.ne_nil⟩) fun h => absurd h hu'.ne_nil
          refine ⟨T, lit "::" ++ x, lit "::" ++ y, hdiffer.append_left _, ?_, ?_⟩
          · rw [unitText, stringLoop_pair, hstring, List.append_assoc]
          · rw [identLoop, hident, List.append_assoc]
      | some c =>
          have hone : ∀ b ∈ [c], inRun (some b) := by simpa using hx
          rw [unitText, List.singleton_append]
          obtain hname | hdigit | rfl := inRun_cases c hx
          · obtain ⟨hid, hident, -, -⟩ := isNameStart_bytes c hname
            rw [Settled, if_pos hname] at hsettled
            by_cases hboth : bound = true
            · obtain ⟨hune, hpne⟩ := hbound.mp hboth
              have hu' := (hu.resolve_left hune).append hone
              have hp' := (hp.resolve_left hpne).append hone
              obtain ⟨T, x, y, hdiffer, hstring, hident'⟩ := ih (fun h => hsettled ⟨hboth, h⟩) hrest (.inr hu')
                (.inr hp') (iff_of_true rfl ⟨hu'.ne_nil, hp'.ne_nil⟩) fun h => absurd h hu'.ne_nil
              refine ⟨T, [c] ++ x, [c] ++ y, hdiffer.append_left _, ?_, ?_⟩
              · rw [stringLoop, if_pos hid, hstring, List.append_assoc]
              · rw [identLoop, if_pos hident, hident', List.append_assoc]
            · obtain rfl | hu := hu
              · -- the loop of the source begins a name behind a digit
                have hp : Still p := by
                  refine hp.resolve_left fun hp => ?_
                  have hnot := hstart rfl hp c rfl
                  rw [hname] at hnot
                  cases hnot
                obtain ⟨w, hw, hq⟩ := stringLoop_run [c] (us.flatMap unitText) (List.cons_ne_nil _ _)
                have hrun' : ∀ b ∈ c :: w, inRun (some b) := List.forall_mem_cons.mpr ⟨hx, hw⟩
                obtain ⟨d, v, hd, hself⟩ := oneName_self (head_ne_colon hname w) rfl hrun'
                obtain ⟨y, hy⟩ := hq (oneName (c :: w) c (head_ne_colon hname w)).typeQualify
                obtain ⟨z, hz⟩ := (hp.append hone).identLoop (oneName (c :: w) c (head_ne_colon hname w)) us
                refine ⟨oneName (c :: w) c (head_ne_colon hname w), d :: (v ++ y), c :: z,
                  ⟨[], d, c, _, _, hd, rfl, rfl⟩, ?_, ?_⟩
                · rw [stringLoop, if_pos hid, List.nil_append, hy, List.singleton_append, hself]
                  rfl
                · rw [identLoop, if_pos hident, hz, List.append_assoc, List.singleton_append]
              · -- a name of C++ begins behind a single colon
                have hp : p = [] := by
                  by_contra hp
                  exact hboth (hbound.mpr ⟨hu.ne_nil, hp⟩)
                subst hp
                obtain ⟨w, hw, hq⟩ := identLoop_run [c] us
                have hrun' : ∀ b ∈ c :: w, inRun (some b) := List.forall_mem_cons.mpr ⟨hx, hw⟩
                obtain ⟨d, v, hd, hself⟩ := oneName_self (head_ne_colon hname w) rfl hrun'
                obtain ⟨y, hy⟩ := hq (oneName (c :: w) c (head_ne_colon hname w)).typeQualify
                obtain ⟨z, hz⟩ := (hu.append hone).stringLoop (oneName (c :: w) c (head_ne_colon hname w))
                  (us.flatMap unitText)
                refine ⟨oneName (c :: w) c (head_ne_colon hname w), c :: z, d :: (v ++ y),
                  ⟨[], c, d, _, _, hd.symm, rfl, rfl⟩, ?_, ?_⟩
                · rw [Symbol.stringLoop, if_pos hid, hz, List.append_assoc, List.singleton_append]
                · rw [Symbol.identLoop, if_pos hident, List.nil_append, hy, List.singleton_append, putRun_start hname,
                    hself]
                  rfl
          · obtain ⟨hid, hident, hnot⟩ := isdigit_bytes c hdigit
            rw [Settled, if_neg (by simp [hnot])] at hsettled
            have hp' : Still (p ++ [c]) := by
              obtain rfl | hp := hp
              · exact ⟨.inr hdigit, hone⟩
              · exact hp.append hone
            obtain ⟨T, x, y, hdiffer, hstring, hident'⟩ := ih hsettled hrest (.inl rfl) (.inr hp') (by simp)
              fun _ h => absurd h hp'.ne_nil
            refine ⟨T, [c] ++ x, [c] ++ y, hdiffer.append_left _, ?_, ?_⟩
            · rw [stringLoop, if_neg (by simp [hid]), hend T hu, hstring]
              rfl
            · rw [identLoop, if_pos hident, hident', List.append_assoc]
          · obtain ⟨hid, hident, hnot, -⟩ := colon_bytes
            rw [Settled, if_neg (by simp [hnot])] at hsettled
            have hu' : Colon (u ++ [chr ':']) := by
              obtain rfl | hu := hu
              · exact ⟨rfl, hone⟩
              · exact hu.append hone
            obtain ⟨T, x, y, hdiffer, hstring, hident'⟩ := ih hsettled hrest (.inr hu') (.inl rfl) (by simp)
              fun h => absurd h hu'.ne_nil
            refine ⟨T, [chr ':'] ++ x, [chr ':'] ++ y, hdiffer.append_left _, ?_, ?_⟩
            · rw [stringLoop, if_pos hid, hstring, List.append_assoc]
            · rw [identLoop, if_neg (by simp [hident]), hput T hp, hident']
              rfl

theorem exists_of_not_whole (h : ¬Whole us) :
    ∃ v x rest, us = v ++ some x :: rest ∧ Whole v ∧ isNameStart x = false := by
  induction us with
  | nil => exact absurd (fun u hu => absurd hu List.not_mem_nil) h
  | cons u us ih =>
      by_cases hu : u.all isNameStart
      · obtain ⟨v, x, rest, rfl, hv, hx⟩ := ih fun hus => h (List.forall_mem_cons.mpr ⟨hu, hus⟩)
        exact ⟨u :: v, x, rest, rfl, List.forall_mem_cons.mpr ⟨hu, hv⟩, hx⟩
      · cases u with
        | none => exact absurd rfl hu
        | some x => exact ⟨[], x, us, rfl, fun u hu => absurd hu List.not_mem_nil, by simpa using hu⟩

theorem inRun_flatMap (h : ∀ u ∈ us, inRun u) : ∀ c ∈ us.flatMap unitText, inRun (some c) := by
  intro c hc
  obtain ⟨u, hu, hcu⟩ := List.mem_flatMap.mp hc
  cases u with
  | none => exact inRun_lit c hcu
  | some b =>
      rw [List.mem_singleton.mp hcu]
      exact h _ hu

/-- A run that begins with a name but is not one: the two names in front differ. -/
theorem loops_differ_start (hname : isNameStart c) (hwhole : ¬Whole (some c :: us))
    (hrun : ∀ u ∈ some c :: us, inRun u) :
    ∃ T : NameTable, Differ (stringLoop T.typeQualify [] ((some c :: us).flatMap unitText))
      (identLoop T.typeQualify [] (some c :: us)) := by
  obtain ⟨v, x, rest, hus, hv, hx⟩ := exists_of_not_whole hwhole
  cases v with
  | nil =>
      obtain rfl : c = x := Option.some.inj (List.cons.inj hus).1
      rw [hname] at hx
      cases hx
  | cons u v =>
      obtain rfl : some c = u := (List.cons.inj hus).1
      rw [hus] at hrun ⊢
      have hrunV : ∀ b ∈ (some c :: v).flatMap unitText, inRun (some b) :=
        inRun_flatMap fun u hu => hrun u (List.mem_append_left _ hu)
      have hrunx : inRun (some x) := hrun _ (List.mem_append_right _ List.mem_cons_self)
      have hV : (some c :: v).flatMap unitText = c :: v.flatMap unitText := rfl
      have hloops (T : NameTable) := loops_whole_append (q := T.typeQualify) hv []
        (x :: rest.flatMap unitText) (some x :: rest)
      rw [List.flatMap_append, hV, List.flatMap_cons, unitText, List.singleton_append]
      rw [hV] at hrunV hloops
      have hV' : ∀ (V : List Byte), [] ++ (c :: V) = c :: V := fun V => rfl
      -- the table has the name that the run begins with up to `x`
      obtain ⟨d, z, hd, hself⟩ := oneName_self (head_ne_colon hname (v.flatMap unitText)) rfl hrunV
      refine ⟨oneName (c :: v.flatMap unitText) c (head_ne_colon hname _), ?_⟩
      have hlonger {w : List Byte} (hw : ∀ b ∈ w, inRun (some b)) :
          (oneName (c :: v.flatMap unitText) c (head_ne_colon hname _)).typeQualify
            ((c :: v.flatMap unitText) ++ x :: w) = (c :: v.flatMap unitText) ++ x :: w := by
        refine oneName_other _ (fun h => ?_) (by simp)
          (forall_inRun_append hrunV (List.forall_mem_cons.mpr ⟨hrunx, hw⟩))
        have hlen := congrArg List.length h
        rw [List.length_append, List.length_cons (a := x)] at hlen
        omega
      rw [(hloops _).1, (hloops _).2, hV']
      obtain hname' | hdigit | rfl := inRun_cases x hrunx
      · rw [hname'] at hx
        cases hx
      · obtain ⟨hid, hident, -⟩ := isdigit_bytes x hdigit
        obtain ⟨w, hw, hq⟩ := identLoop_run ((c :: v.flatMap unitText) ++ [x]) rest
        obtain ⟨y, hy⟩ := hq (oneName (c :: v.flatMap unitText) c (head_ne_colon hname _)).typeQualify
        have hput : putRun (oneName (c :: v.flatMap unitText) c (head_ne_colon hname _)).typeQualify
            ((c :: v.flatMap unitText) ++ x :: w) =
              (oneName (c :: v.flatMap unitText) c (head_ne_colon hname _)).typeQualify
                ((c :: v.flatMap unitText) ++ x :: w) := putRun_start hname _
        rw [stringLoop, if_neg (by simp [hid]), if_neg (List.cons_ne_nil _ _), hself, identLoop, if_pos hident, hy,
          List.append_assoc, List.singleton_append, hput, hlonger hw]
        exact ⟨[], d, c, _, _, hd, rfl, rfl⟩
      · obtain ⟨hid, hident, -, -⟩ := colon_bytes
        obtain ⟨w, hw, hq⟩ := stringLoop_run ((c :: v.flatMap unitText) ++ [chr ':']) (rest.flatMap unitText) (by simp)
        obtain ⟨y, hy⟩ := hq (oneName (c :: v.flatMap unitText) c (head_ne_colon hname _)).typeQualify
        rw [stringLoop, if_pos hid, hy, List.append_assoc, List.singleton_append, hlonger hw, identLoop,
          if_neg (by simp [hident]), putRun_start hname, hself]
        exact ⟨[], c, d, _, _, hd.symm, rfl, rfl⟩

/-! ### The whole text -/

/-- Each run is a name without digits, or nothing begins in it. -/
def Clean (r : List (Option Byte)) : Prop := Whole r ∨ Settled false r

theorem loops_clean (hrun : ∀ u ∈ r, inRun u) (h : Clean r) (T : NameTable) :
    stringLoop T.typeQualify [] (r.flatMap unitText) = identLoop T.typeQualify [] r := by
  obtain hwhole | hsettled := h
  · obtain ⟨hstring, hident⟩ := loops_whole_append (q := T.typeQualify) hwhole [] [] []
    rw [List.append_nil] at hstring hident
    rw [hstring, hident, List.nil_append, stringLoop, identLoop]
    cases r with
    | nil => rfl
    | cons u r =>
        have hhead : ¬((u :: r).flatMap unitText).head?.any isdigit = true := by
          cases u with
          | none => simp [unitText, lit]; decide
          | some c =>
              obtain ⟨-, -, hdigit, -⟩ := isNameStart_bytes c (hwhole _ List.mem_cons_self)
              simpa [unitText] using hdigit
        rw [putRun, if_neg hhead]
  · obtain ⟨hstring, hident⟩ := loops_settled (T := T) hsettled hrun (.inl rfl) (.inl rfl) (by simp)
    rw [hstring, hident]

theorem loops_not_clean (hrun : ∀ u ∈ r, inRun u) (h : ¬Clean r) :
    ∃ T : NameTable, Differ (stringLoop T.typeQualify [] (r.flatMap unitText)) (identLoop T.typeQualify [] r) := by
  obtain ⟨hwhole, hsettled⟩ := not_or.mp h
  by_cases hstart : ∀ c, r.head? = some (some c) → isNameStart c = false
  · obtain ⟨T, x, y, hdiffer, hstring, hident⟩ := loops_differ hsettled hrun (.inl rfl) (.inl rfl) (by simp)
      fun _ _ => hstart
    exact ⟨T, by rwa [hstring, hident]⟩
  · obtain ⟨c, hc⟩ := not_forall.mp hstart
    obtain ⟨hc, hname⟩ := Classical.not_imp.mp hc
    cases r with
    | nil => cases hc
    | cons u r =>
        obtain rfl : u = some c := Option.some.inj hc
        exact loops_differ_start (by simpa using hname) hwhole hrun

theorem runs_nil_or_cons (us : List (Option Byte)) :
    (runs us = [us] ∧ ∀ u ∈ us, inRun u) ∨
      ∃ r c rest, us = r ++ some c :: rest ∧ (∀ u ∈ r, inRun u) ∧ inRun (some c) = false ∧
        runs us = r :: runs rest := by
  have hnot {u : Option Byte} (hu : inRun u = true) : (!inRun u) = false := by rw [hu, Bool.not_true]
  cases hdrop : us.dropWhile inRun with
  | nil =>
      have hrun : ∀ u ∈ us, inRun u := by simpa using List.dropWhile_eq_nil_iff.mp hdrop
      exact .inl ⟨List.splitOnP_eq_singleton fun u hu => hnot (hrun u hu), hrun⟩
  | cons u rest =>
      have hu : inRun u = false := by
        have hne : us.dropWhile inRun ≠ [] := by
          rw [hdrop]
          exact List.cons_ne_nil _ _
        have hhead := List.head_dropWhile_not inRun hne
        simpa [hdrop] using hhead
      have hrun : ∀ u ∈ us.takeWhile inRun, inRun u := fun u hu => List.mem_takeWhile_imp hu
      cases u with
      | none => cases hu
      | some c =>
          have hus : us = us.takeWhile inRun ++ some c :: rest := by rw [← hdrop, List.takeWhile_append_dropWhile]
          refine .inr ⟨us.takeWhile inRun, c, rest, hus, hrun, hu, ?_⟩
          conv_lhs => rw [hus]
          exact List.splitOnP_append_cons_of_forall_mem (fun u hu => hnot (hrun u hu)) _ (by rw [hu]; rfl) rest

/-- The identifiers are qualified as in C++ for every symbol table exactly if each run is clean. -/
theorem stringQualify_iff (s : List Byte) :
    (∀ T : NameTable, stringQualify T s = qualifyIdentifiers T s) ↔ ∀ r ∈ runs (units s), Clean r := by
  have hall (us : List (Option Byte)) :
      (∀ T : NameTable, stringLoop T.typeQualify [] (us.flatMap unitText) = identLoop T.typeQualify [] us) ↔
        ∀ r ∈ runs us, Clean r := by
    induction hlen : us.length using Nat.strong_induction_on generalizing us with
    | _ n ih =>
        obtain ⟨hruns, hrun⟩ | ⟨r, c, rest, rfl, hrun, hc, hruns⟩ := runs_nil_or_cons us
        · rw [hruns, List.forall_mem_singleton]
          refine ⟨fun h => ?_, fun h => loops_clean hrun h⟩
          by_contra hclean
          obtain ⟨T, hdiffer⟩ := loops_not_clean hrun hclean
          refine hdiffer.append_ne [] [] ?_
          rw [h T]
        · have hid : isIdByte c = false := by
            by_contra hid
            rw [isIdByte_inRun c (by simpa using hid)] at hc
            cases hc
          have hident : isIdent c = false := by
            by_contra hident
            rw [isIdent_inRun c (by simpa using hident)] at hc
            cases hc
          have hrest := ih rest.length (by rw [← hlen]; simp; omega) rest rfl
          rw [hruns, List.forall_mem_cons, ← hrest]
          simp only [List.flatMap_append, List.flatMap_cons, unitText, List.singleton_append, stringLoop_append hid,
            identLoop_append hident]
          constructor
          · intro h
            have hclean : Clean r := by
              by_contra hclean
              obtain ⟨T, hdiffer⟩ := loops_not_clean hrun hclean
              exact hdiffer.append_ne _ _ (h T)
            refine ⟨hclean, fun T => ?_⟩
            have hsame := h T
            rw [loops_clean hrun hclean T] at hsame
            exact (List.cons.inj (List.append_cancel_left hsame)).2
          · rintro ⟨hclean, h⟩ T
            rw [loops_clean hrun hclean T, h T]
  have hunits := hall (units s)
  rw [flatMap_units] at hunits
  exact hunits

/-- `a1` is an identifier, and `a` is looked up. -/
theorem stringQualify_digit : ¬∀ T : NameTable, stringQualify T (lit "a1") = qualifyIdentifiers T (lit "a1") := by
  intro h
  have hsame := h (oneName (lit "a") (chr 'a') (by decide))
  exact absurd hsame (by decide +kernel)

end Swig.Symbol
