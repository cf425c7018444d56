import Swig.DOH.CType
import Swig.Lib.ByteBlock
import Mathlib.Logic.Function.Basic
import Mathlib.Algebra.BigOperators.Group.List.Basic
import Mathlib.Algebra.GroupWithZero.Nat

/-!
`Contracts::ContractSplit`: the text of a contract is split into the sections its headers
introduce.
-/

namespace Swig.Modules

open ByteBlock

/-! ### The rules -/

inductive Rule
  | require
  | ensure
  deriving DecidableEq

/-- `Rules[j].section`. -/
def Rule.text : Rule → List Byte
  | require => lit "require:"
  | ensure => lit "ensure:"

def Rules : List Rule := [.require, .ensure]

/-- The rule whose header the line is. -/
def header (item : List Byte) : Option Rule := Rules.find? fun r => (indexOf r.text item).isSome

def isBrace (c : Byte) : Bool := c == chr '{' || c == chr '}'

def hasBrace (item : List Byte) : Bool := item.any isBrace

/-! ### The loop over the lines -/

/-- The variables of the loop. A section that is taken out of the hash goes back under its own
name before another one is looked at, so its text stands for the object. -/
structure Split where
  result : Rule → Option (List Byte)
  current_section : List Byte
  current_section_name : Rule

namespace Split

def start : Split := { result := fun _ => none, current_section := [], current_section_name := .require }

/-- `Setattr(result, current_section_name, current_section)`, where there is a text. -/
def save (st : Split) : Rule → Option (List Byte) :=
  if st.current_section = [] then st.result
  else Function.update st.result st.current_section_name (some st.current_section)

/-- At a header of the rule. -/
def enter (st : Split) (rule : Rule) : Split :=
  if st.current_section = [] then { st with current_section_name := rule }
  else { result := st.save, current_section := (st.save rule).getD [], current_section_name := rule }

def line (st : Split) (item : List Byte) : Split :=
  match header item with
  | some rule => st.enter rule
  | none => { st with current_section := st.current_section ++ item }

def item (st : Split) (item : List Byte) : Split := if hasBrace item then st else st.line item

end Split

/-- `SplitLines`: what stands behind the last line end is a line, too. -/
def splitLines (txt : List Byte) : List (List Byte) := txt.splitOn (chr '\n')

/-- `Contracts::ContractSplit`, of a node with a contract. -/
def contractSplit (contract : List Byte) : Rule → Option (List Byte) :=
  ((splitLines contract).foldl Split.item Split.start).save

/-! ### What the sections are -/

/-- The text of a section: the lines behind its headers, each up to the next header. In front of
all headers stands the first section. -/
def sectionText (s : Rule) : Rule → List (List Byte) → List Byte
  | _, [] => []
  | name, item :: items =>
      match header item with
      | some rule => sectionText s rule items
      | none => (if name = s then item else []) ++ sectionText s name items

/-- A line of braces and blanks is only the delimiter of the contract. -/
def isDelimiter (item : List Byte) : Bool :=
  hasBrace item && (header item).isNone && item.all fun c => isBrace c || isspace c

/-- The sections of a contract. -/
def sections (contract : List Byte) (s : Rule) : List Byte :=
  sectionText s .require ((splitLines contract).filter (!isDelimiter ·))

/-- The sections of the lines that are read, which are those without a brace. -/
def readSections (contract : List Byte) (s : Rule) : List Byte :=
  sectionText s .require ((splitLines contract).filter (!hasBrace ·))

/-- What is known of the lines read: the section they are in, the texts of the sections, and whether
a section without text was opened since the last line with text. -/
structure Reading where
  name : Rule
  text : Rule → List Byte
  bare : Bool

namespace Reading

def start : Reading := { name := .require, text := fun _ => [], bare := true }

def line (r : Reading) (item : List Byte) : Reading :=
  match header item with
  | some rule => { r with name := rule, bare := r.bare || (r.text rule).isEmpty }
  | none => { r with text := Function.update r.text r.name (r.text r.name ++ item), bare := r.bare && item.isEmpty }

/-- Where a section without text was opened, the next text goes to a section without text. -/
def Keeps : Reading → List (List Byte) → Prop
  | _, [] => True
  | r, item :: items =>
      (header item = none → item ≠ [] → r.bare = true → r.text r.name = []) ∧ Keeps (r.line item) items

end Reading

variable {s : Rule} {st : Split} {r : Reading} {item : List Byte} {items : List (List Byte)} {name : Rule}

/-! ### Texts of the sections -/

/-- How much text a line brings. -/
def weight (item : List Byte) : ℕ := if header item = none then item.length else 0

theorem length_sectionText (name : Rule) (items : List (List Byte)) :
    (sectionText .require name items).length + (sectionText .ensure name items).length = (items.map weight).sum := by
  induction items generalizing name with
  | nil => rfl
  | cons item items ih =>
      rw [sectionText, sectionText, List.map_cons, List.sum_cons, weight]
      cases hitem : header item with
      | some rule => simpa using ih rule
      | none =>
          rw [if_pos rfl, ← ih name]
          cases name <;> simp <;> omega

theorem Reading.text_foldl (r : Reading) (items : List (List Byte)) (s : Rule) :
    (items.foldl Reading.line r).text s = r.text s ++ sectionText s r.name items := by
  induction items generalizing r with
  | nil => exact (List.append_nil _).symm
  | cons item items ih =>
      rw [List.foldl_cons, ih, Reading.line, sectionText]
      cases header item with
      | some rule => rfl
      | none =>
          by_cases h : r.name = s
          · subst h
            rw [if_pos rfl]
            simp
          · rw [if_neg h]
            simp [Function.update_of_ne (Ne.symm h)]

/-! ### The texts the loop has -/

namespace Split

/-- The text of a section, in the hash or not yet. -/
def text (st : Split) (s : Rule) : List Byte := (st.save s).getD []

theorem text_of_bare (st : Split) (h : st.current_section = []) (s : Rule) : st.text s = (st.result s).getD [] := by
  rw [text, save, if_pos h]

theorem text_current (st : Split) (h : st.current_section ≠ []) : st.text st.current_section_name = st.current_section := by
  rw [text, save, if_neg h, Function.update_self]
  rfl

theorem text_of_ne (h : s ≠ st.current_section_name) : st.text s = (st.result s).getD [] := by
  rw [text, save]
  split
  · rfl
  · rw [Function.update_of_ne h]

theorem enter_text (st : Split) (rule s : Rule) : (st.enter rule).text s = st.text s := by
  rw [enter]
  split
  case isTrue h =>
    rw [text_of_bare st h]
    exact text_of_bare { st with current_section_name := rule } h s
  case isFalse h =>
    by_cases hs : s = rule
    · subst hs
      by_cases hnew : (st.save s).getD [] = []
      · rw [text_of_bare _ hnew, text]
      · exact text_current _ hnew
    · exact text_of_ne hs

theorem enter_current (st : Split) (rule : Rule) :
    (st.enter rule).current_section = [] ↔ st.current_section = [] ∨ st.text rule = [] := by
  rw [enter]
  split
  case isTrue h => simp [h]
  case isFalse h => simp [h, text]

theorem enter_name (st : Split) (rule : Rule) : (st.enter rule).current_section_name = rule := by
  rw [enter]
  split <;> rfl

/-- A text line at which an earlier text of the section is left behind. -/
def Drops (st : Split) (item : List Byte) : Prop :=
  header item = none ∧ item ≠ [] ∧ st.current_section = [] ∧ st.text st.current_section_name ≠ []

theorem line_text_of_ne (hitem : header item = none) (hs : s ≠ st.current_section_name) :
    (st.line item).text s = st.text s := by
  rw [line, hitem, text_of_ne hs]
  exact text_of_ne hs

theorem line_text (hitem : header item = none) (hkeeps : ¬st.Drops item) :
    (st.line item).text st.current_section_name = st.text st.current_section_name ++ item := by
  rw [line, hitem]
  by_cases hnil : item = []
  · subst hnil
    simp
  · have hnew : st.current_section ++ item ≠ [] := by simp [hnil]
    have htext := text_current { st with current_section := st.current_section ++ item } hnew
    refine htext.trans ?_
    by_cases hcur : st.current_section = []
    · have hold : st.text st.current_section_name = [] := by
        by_contra hold
        exact hkeeps ⟨hitem, hnil, hcur, hold⟩
      rw [hold, hcur]
    · rw [text_current st hcur]

theorem line_text_drops (hdrops : st.Drops item) : (st.line item).text st.current_section_name = item := by
  obtain ⟨hitem, hnil, hcur, -⟩ := hdrops
  rw [line, hitem, hcur, List.nil_append]
  exact text_current { st with current_section := item } hnil

/-- How much text the sections have. -/
def total (st : Split) : ℕ := (st.text .require).length + (st.text .ensure).length

theorem total_enter (st : Split) (rule : Rule) : (st.enter rule).total = st.total := by
  rw [total, enter_text, enter_text, total]

theorem total_line (st : Split) (item : List Byte) :
    (st.line item).total ≤ st.total + weight item ∧
      (st.Drops item → (st.line item).total < st.total + weight item) := by
  cases hitem : header item with
  | some rule =>
      have hline : st.line item = st.enter rule := by rw [line, hitem]
      have hdrops : ¬st.Drops item := fun h => by simp [h.1] at hitem
      rw [hline, total_enter]
      exact ⟨Nat.le_add_right _ _, fun h => absurd h hdrops⟩
  | none =>
      have hrest {s : Rule} (hs : s ≠ st.current_section_name) := line_text_of_ne hitem hs
      rw [weight, if_pos hitem]
      by_cases hdrops : st.Drops item
      · have htext := line_text_drops hdrops
        have hold := List.length_pos_of_ne_nil hdrops.2.2.2
        cases hname : st.current_section_name with
        | require =>
            rw [hname] at htext hold
            rw [total, total, htext, hrest (by rw [hname]; nofun)]
            exact ⟨by omega, fun _ => by omega⟩
        | ensure =>
            rw [hname] at htext hold
            rw [total, total, htext, hrest (by rw [hname]; nofun)]
            exact ⟨by omega, fun _ => by omega⟩
      · have htext := line_text hitem hdrops
        refine ⟨?_, fun h => absurd h hdrops⟩
        cases hname : st.current_section_name with
        | require =>
            rw [hname] at htext
            rw [total, total, htext, hrest (by rw [hname]; nofun), List.length_append]
            omega
        | ensure =>
            rw [hname] at htext
            rw [total, total, htext, hrest (by rw [hname]; nofun), List.length_append]
            omega

theorem total_foldl (st : Split) (items : List (List Byte)) :
    (items.foldl line st).total ≤ st.total + (items.map weight).sum := by
  induction items generalizing st with
  | nil => exact le_rfl
  | cons item items ih =>
      rw [List.foldl_cons, List.map_cons, List.sum_cons]
      have hone := (total_line st item).1
      have hrest := ih (st.line item)
      omega

/-! ### The loop and the reading -/

/-- The loop has the texts that were read. -/
structure Follows (st : Split) (r : Reading) : Prop where
  name : st.current_section_name = r.name
  text : st.text = r.text
  bare : st.current_section = [] ↔ r.bare = true

theorem Follows.start : Follows start Reading.start where
  name := rfl
  text := rfl
  bare := ⟨fun _ => rfl, fun _ => rfl⟩

theorem Follows.drops_iff (h : Follows st r) :
    ¬st.Drops item ↔ (header item = none → item ≠ [] → r.bare = true → r.text r.name = []) := by
  rw [Drops, h.bare, h.text, h.name]
  constructor
  · intro hdrops hitem hnil hbare
    by_contra hold
    exact hdrops ⟨hitem, hnil, hbare, hold⟩
  · rintro hkeeps ⟨hitem, hnil, hbare, hold⟩
    exact hold (hkeeps hitem hnil hbare)

theorem Follows.line (h : Follows st r) (hdrops : ¬st.Drops item) : Follows (st.line item) (r.line item) := by
  cases hitem : header item with
  | some rule =>
      rw [Split.line, hitem, Reading.line, hitem]
      exact {
        name := enter_name st rule
        text := (funext (enter_text st rule)).trans h.text
        bare := by rw [enter_current, h.bare, h.text, Bool.or_eq_true, List.isEmpty_iff] }
  | none =>
      have hcur : (st.line item).current_section = st.current_section ++ item := by rw [Split.line, hitem]
      have hname : (st.line item).current_section_name = st.current_section_name := by rw [Split.line, hitem]
      have htext : (r.line item).text = Function.update r.text r.name (r.text r.name ++ item) := by
        rw [Reading.line, hitem]
      have hbare : (r.line item).bare = (r.bare && item.isEmpty) := by rw [Reading.line, hitem]
      have hread : (r.line item).name = r.name := by rw [Reading.line, hitem]
      refine ⟨(hname.trans h.name).trans hread.symm, funext fun s => ?_, ?_⟩
      · rw [htext]
        by_cases hs : s = st.current_section_name
        · subst hs
          rw [line_text hitem hdrops, h.text, h.name, Function.update_self]
        · rw [line_text_of_ne hitem hs, h.text, Function.update_of_ne (h.name ▸ hs)]
      · rw [hcur, List.append_eq_nil_iff, hbare, h.bare, Bool.and_eq_true, List.isEmpty_iff]

theorem Follows.foldl (h : Follows st r) (hkeeps : r.Keeps items) :
    Follows (items.foldl Split.line st) (items.foldl Reading.line r) := by
  induction items generalizing st r with
  | nil => exact h
  | cons item items ih => exact ih (h.line (h.drops_iff.mpr hkeeps.1)) hkeeps.2

/-- A text left behind is missing to the end. -/
theorem Follows.total_lt (h : Follows st r) (hkeeps : ¬r.Keeps items) :
    (items.foldl Split.line st).total < st.total + (items.map weight).sum := by
  induction items generalizing st r with
  | nil => exact absurd trivial hkeeps
  | cons item items ih =>
      rw [List.foldl_cons, List.map_cons, List.sum_cons]
      by_cases hdrops : st.Drops item
      · have hone := (total_line st item).2 hdrops
        have hrest := total_foldl (st.line item) items
        omega
      · have hone := (total_line st item).1
        have hrest := ih (h.line hdrops) fun hrest => hkeeps ⟨h.drops_iff.mp hdrops, hrest⟩
        omega

end Split

/-! ### The sections in the hash -/

theorem contractSplit_eq (contract : List Byte) (s : Rule) :
    (contractSplit contract s).getD [] =
      (((splitLines contract).filter (!hasBrace ·)).foldl Split.line Split.start).text s := by
  have hitem : Split.item = fun st item => if !hasBrace item then st.line item else st := by
    funext st item
    rw [Split.item]
    cases hasBrace item <;> rfl
  rw [contractSplit, hitem, ← List.foldl_filter]
  rfl

theorem weight_filter (contract : List (List Byte)) :
    ((contract.filter (!hasBrace ·)).map weight).sum ≤ ((contract.filter (!isDelimiter ·)).map weight).sum := by
  induction contract with
  | nil => exact le_rfl
  | cons item items ih =>
      cases hbrace : hasBrace item with
      | true =>
          rw [List.filter_cons_of_neg (by simp [hbrace])]
          cases hdel : isDelimiter item with
          | true => rwa [List.filter_cons_of_neg (by simp [hdel])]
          | false =>
              rw [List.filter_cons_of_pos (by simp [hdel]), List.map_cons, List.sum_cons]
              omega
      | false =>
          have hdel : isDelimiter item = false := by rw [isDelimiter, hbrace]; rfl
          rw [List.filter_cons_of_pos (by simp [hbrace]), List.filter_cons_of_pos (by simp [hdel]), List.map_cons,
            List.map_cons, List.sum_cons, List.sum_cons]
          omega

/-- The hash holds the sections if those of the lines without a brace are the same, and none of
them has its text left behind. -/
theorem contractSplit_sections_iff (contract : List Byte) :
    (∀ s, (contractSplit contract s).getD [] = sections contract s) ↔
      (∀ s, readSections contract s = sections contract s) ∧
        Reading.start.Keeps ((splitLines contract).filter (!hasBrace ·)) := by
  have hread (hkeeps : Reading.start.Keeps ((splitLines contract).filter (!hasBrace ·))) (s : Rule) :
      (contractSplit contract s).getD [] = readSections contract s := by
    rw [contractSplit_eq, (Split.Follows.start.foldl hkeeps).text, Reading.text_foldl]
    rfl
  constructor
  · intro h
    have hkeeps : Reading.start.Keeps ((splitLines contract).filter (!hasBrace ·)) := by
      by_contra hkeeps
      have hlt := Split.Follows.start.total_lt hkeeps
      have hle := weight_filter (splitLines contract)
      have htotal := length_sectionText .require ((splitLines contract).filter (!isDelimiter ·))
      have hrequire := h .require
      have hensure := h .ensure
      rw [contractSplit_eq] at hrequire hensure
      rw [Split.total, hrequire, hensure] at hlt
      have hstart : Split.start.total = 0 := rfl
      rw [sections, sections, htotal, hstart] at hlt
      omega
    exact ⟨fun s => (hread hkeeps s).symm.trans (h s), hkeeps⟩
  · rintro ⟨hsame, hkeeps⟩ s
    exact (hread hkeeps s).trans (hsame s)

end Swig.Modules
