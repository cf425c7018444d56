import Swig.DOH.ReplaceText

/-!
`Replaceid`: in a text split into identifiers and other bytes, it replaces identifiers as a
whole.
-/

namespace Swig.DOH

open ByteBlock

/-! ### The pieces of a text -/

/-- An identifier as a whole, or a byte of none. -/
inductive Piece
  | word (w : List Byte)
  | other (c : Byte)
  deriving DecidableEq

namespace Piece

def text : Piece → List Byte
  | word w => w
  | other c => [c]

/-- The identifiers are exchanged. -/
def map (f : List Byte → List Byte) : Piece → Piece
  | word w => word (f w)
  | other c => other c

end Piece

/-- The text of some pieces. -/
def render (ps : List Piece) : List Byte := ps.flatMap Piece.text

/-- The pieces of a text. -/
def pieces : List Byte → List Piece
  | [] => []
  | c :: cs =>
      if isIdent c then
        match pieces cs with
        | .word w :: ps => .word (c :: w) :: ps
        | ps => .word [c] :: ps
      else .other c :: pieces cs

/-- A word, as it stands in a text. -/
def IsWord (w : List Byte) : Prop := w ≠ [] ∧ ∀ c ∈ w, isIdent c = true

/-- The words are whole. -/
inductive Separated : List Piece → Prop
  | nil : Separated []
  | other {c : Byte} {ps : List Piece} (hc : isIdent c = false) (h : Separated ps) : Separated (.other c :: ps)
  | word {w : List Byte} {ps : List Piece} (hw : IsWord w) (hps : ∀ w', ps.head? ≠ some (.word w')) (h : Separated ps) :
      Separated (.word w :: ps)

variable {ps : List Piece} {w name rep rest u : List Byte} {c : Byte} {left once : Bool}

@[simp] theorem render_nil : render [] = [] := rfl

@[simp] theorem render_cons (p : Piece) (ps : List Piece) : render (p :: ps) = p.text ++ render ps := rfl

theorem render_pieces (txt : List Byte) : render (pieces txt) = txt := by
  induction txt with
  | nil => rfl
  | cons c cs ih =>
      rw [pieces]
      split
      · split
        · rename_i w ps h
          rw [h] at ih
          rw [render_cons] at ih ⊢
          exact congrArg (c :: ·) ih
        · rw [render_cons, ih]
          rfl
      · rw [render_cons, ih]
        rfl

theorem separated_pieces (txt : List Byte) : Separated (pieces txt) := by
  induction txt with
  | nil => exact .nil
  | cons c cs ih =>
      rw [pieces]
      split
      · rename_i hc
        split
        · rename_i w ps h
          rw [h] at ih
          cases ih with
          | word hw hps h => exact .word ⟨nofun, List.forall_mem_cons.mpr ⟨hc, hw.2⟩⟩ hps h
        · rename_i hne
          refine .word ⟨nofun, by simpa using hc⟩ (fun w' hw' => ?_) ih
          obtain ⟨ps, hps⟩ := List.head?_eq_some_iff.mp hw'
          exact hne w' ps hps
      · rename_i hc
        exact .other (Bool.eq_false_iff.mpr hc) ih

/-- Behind a word stands no byte of an identifier. -/
theorem Separated.head_render (h : Separated ps) (hps : ∀ w', ps.head? ≠ some (.word w')) :
    (render ps).head?.any isIdent = false := by
  cases h with
  | nil => rfl
  | other hc _ => exact hc
  | word _ _ _ => exact absurd rfl (hps _)

theorem pieces_word (hw : IsWord w) (h : rest.head?.any isIdent = false) :
    pieces (w ++ rest) = .word w :: pieces rest := by
  obtain ⟨hne, hw⟩ := hw
  have hrest (w' : List Byte) (ps : List Piece) : pieces rest ≠ .word w' :: ps := by
    cases rest with
    | nil => exact nofun
    | cons d rest =>
        have hd : isIdent d = false := h
        rw [pieces, hd]
        exact nofun
  induction w with
  | nil => exact absurd rfl hne
  | cons c w ih =>
      obtain ⟨hc, hw⟩ := List.forall_mem_cons.mp hw
      rw [List.cons_append, pieces, if_pos hc]
      cases w with
      | nil =>
          rw [List.nil_append]
          split
          · rename_i w' ps hps
            exact absurd hps (hrest w' ps)
          · rfl
      | cons d w => rw [ih nofun hw]

/-- The pieces of a text are the only ones with whole words. -/
theorem pieces_render (h : Separated ps) : pieces (render ps) = ps := by
  induction h with
  | nil => rfl
  | other hc _ ih =>
      rw [render_cons, Piece.text, List.singleton_append, pieces, if_neg (by rw [hc]; exact Bool.false_ne_true), ih]
  | word hw hps h ih => rw [render_cons, Piece.text, pieces_word hw (h.head_render hps), ih]

theorem render_inj {ps' : List Piece} (h : Separated ps) (h' : Separated ps') (heq : render ps = render ps') :
    ps = ps' := by
  rw [← pieces_render h, heq, pieces_render h']

theorem Separated.map {f : List Byte → List Byte} (hf : ∀ w, IsWord w → IsWord (f w)) (h : Separated ps) :
    Separated (ps.map (Piece.map f)) := by
  induction h with
  | nil => exact .nil
  | other hc _ ih => exact .other hc ih
  | @word w ps hw hps _ ih =>
      refine .word (hf _ hw) (fun w' hw' => ?_) ih
      rw [List.head?_map, Option.map_eq_some_iff] at hw'
      obtain ⟨q, hq, hmap⟩ := hw'
      cases q with
      | word w => exact hps w hq
      | other c => cases hmap

theorem isIdent_ne_zero (h : isIdent c = true) : c ≠ 0 := by
  rintro rfl
  cases h

/-- An identifier has no NUL. -/
theorem Separated.nulFree_iff (h : Separated ps) : (∀ c ∈ render ps, c ≠ 0) ↔ .other 0 ∉ ps := by
  induction h with
  | nil => exact ⟨fun _ => nofun, fun _ => nofun⟩
  | @other c ps hc _ ih =>
      rw [render_cons, Piece.text, List.singleton_append, List.forall_mem_cons, ih, List.mem_cons, not_or]
      exact and_congr_left' ⟨fun hne heq => hne (Piece.other.inj heq).symm, fun hne heq => hne (heq ▸ rfl)⟩
  | @word w ps hw _ _ ih =>
      rw [render_cons, Piece.text, List.forall_mem_append, ih, List.mem_cons, not_or]
      exact ⟨fun h => ⟨nofun, h.2⟩, fun h => ⟨fun c hc => isIdent_ne_zero (hw.2 c hc), h.2⟩⟩

theorem other_mem_map {f : List Byte → List Byte} : .other c ∈ ps.map (Piece.map f) ↔ .other c ∈ ps := by
  rw [List.mem_map]
  constructor
  · rintro ⟨q, hq, hmap⟩
    cases q with
    | word w => cases hmap
    | other d =>
        cases hmap
        exact hq
  · exact fun hq => ⟨_, hq, rfl⟩

/-! ### Replacing a word -/

theorem identAfter_word (hw : IsWord w) (left : Bool) : identAfter left w = true := by
  rw [identAfter, List.getLast?_eq_some_getLast hw.1]
  exact hw.2 _ (List.getLast_mem hw.1)

/-- A token that ends in front of a byte of no identifier is in the word in front of it. -/
theorem prefix_of_word (hname : ∀ c ∈ name, isIdent c = true) (h : rest.head?.any isIdent = false)
    (hpre : name <+: w ++ rest) : ∃ w', w = name ++ w' := by
  induction name generalizing w with
  | nil => exact ⟨w, rfl⟩
  | cons c name ih =>
      obtain ⟨hc, hname⟩ := List.forall_mem_cons.mp hname
      cases w with
      | nil =>
          obtain ⟨v, hv⟩ := hpre
          rw [List.nil_append] at hv
          rw [← hv] at h
          have hd : isIdent c = false := h
          rw [hc] at hd
          cases hd
      | cons d w =>
          obtain ⟨rfl, htail⟩ := List.cons_prefix_cons.mp hpre
          obtain ⟨w', rfl⟩ := ih hname htail
          exact ⟨w', rfl⟩

/-- What stands in front of a byte of no identifier does not matter. -/
theorem replaced_head (hname : IsWord name) (h : rest.head?.any isIdent = false) (left left' : Bool) :
    replaced match_identifier name rep once left rest = replaced match_identifier name rep once left' rest := by
  cases rest with
  | nil => rfl
  | cons c rest =>
      have hpre : ¬name <+: c :: rest := by
        rintro hpre
        obtain ⟨d, name, rfl⟩ := List.exists_cons_of_ne_nil hname.1
        obtain ⟨rfl, -⟩ := List.cons_prefix_cons.mp hpre
        have hd : isIdent d = false := h
        rw [hname.2 d List.mem_cons_self] at hd
        cases hd
      rw [replaced_cons hpre, replaced_cons hpre]

/-- Within a word nothing is replaced. -/
theorem replaced_inside (hname : IsWord name) (hw : ∀ c ∈ w, isIdent c = true) (h : rest.head?.any isIdent = false) :
    (replaced match_identifier name rep false true (w ++ rest)).2 =
      w ++ (replaced match_identifier name rep false false rest).2 := by
  obtain ⟨n, hn⟩ : ∃ n, w.length = n := ⟨_, rfl⟩
  have hpos := List.length_pos_of_ne_nil hname.1
  induction n using Nat.strong_induction_on generalizing w with
  | _ n ih =>
      by_cases hpre : name <+: w ++ rest
      · obtain ⟨w', rfl⟩ := prefix_of_word hname.2 h hpre
        have hrefuse : match_identifier.refuses true (w' ++ rest) = true := rfl
        rw [List.length_append] at hn
        rw [List.append_assoc, replaced_refused rep false hname.1 hrefuse, identAfter_word hname,
          ih w'.length (by omega) (fun c hc => hw c (List.mem_append_right _ hc)) rfl, List.append_assoc]
      · cases w with
        | nil => rw [List.nil_append, List.nil_append, replaced_head hname h true false]
        | cons c w =>
            obtain ⟨hc, hw⟩ := List.forall_mem_cons.mp hw
            rw [List.length_cons] at hn
            rw [List.cons_append] at hpre ⊢
            rw [replaced_cons hpre, hc, ih w.length (by omega) hw rfl]
            rfl

/-- A whole word is replaced if it is the one looked for. -/
theorem replaced_word (hname : IsWord name) (hw : IsWord w) (h : rest.head?.any isIdent = false) :
    (replaced match_identifier name rep false false (w ++ rest)).2 =
      (if w = name then rep else w) ++ (replaced match_identifier name rep false false rest).2 := by
  by_cases hpre : name <+: w ++ rest
  · obtain ⟨w', rfl⟩ := prefix_of_word hname.2 h hpre
    rw [List.append_assoc]
    cases w' with
    | nil =>
        have hrefuse : match_identifier.refuses false ([] ++ rest) = false := h
        rw [replaced_token hname.1 hrefuse, List.append_nil, if_pos rfl, List.nil_append, replaced_head hname h _ false]
    | cons c w' =>
        have hc : isIdent c = true := hw.2 c (by simp)
        have hrefuse : match_identifier.refuses false (c :: w' ++ rest) = true := hc
        have hne : name ++ c :: w' ≠ name := fun heq => by simpa using congrArg List.length heq
        rw [replaced_refused rep false hname.1 hrefuse, identAfter_word hname,
          replaced_inside hname (fun d hd => hw.2 d (List.mem_append_right _ hd)) h, if_neg hne, List.append_assoc]
  · have hne : w ≠ name := by
      rintro rfl
      exact hpre (List.prefix_append _ _)
    obtain ⟨c, w, rfl⟩ := List.exists_cons_of_ne_nil hw.1
    obtain ⟨hc, hw⟩ := List.forall_mem_cons.mp hw.2
    rw [List.cons_append] at hpre ⊢
    rw [replaced_cons hpre, hc, replaced_inside hname hw h, if_neg hne]
    rfl

/-- The word is replaced in every place. -/
def replaceWord (name rep : List Byte) : Piece → Piece := Piece.map fun w => if w = name then rep else w

theorem replaced_render (hname : IsWord name) (h : Separated ps) :
    (replaced match_identifier name rep false false (render ps)).2 = render (ps.map (replaceWord name rep)) := by
  induction h with
  | nil => rfl
  | @other c ps hc h ih =>
      have hpre : ¬name <+: c :: render ps := by
        intro hpre
        have hhead : (c :: render ps).head?.any isIdent = false := hc
        obtain ⟨w', hw'⟩ := prefix_of_word (w := []) hname.2 hhead hpre
        exact hname.1 (List.append_eq_nil_iff.mp hw'.symm).1
      rw [render_cons, Piece.text, List.singleton_append, replaced_cons hpre, hc, ih]
      rfl
  | word hw hps h ih =>
      rw [render_cons, Piece.text, replaced_word hname hw (h.head_render hps), ih]
      rfl

/-- `Replaceid` of an identifier. -/
theorem replaceText_render (hname : IsWord name) (hrep : ∀ c ∈ rep, c ≠ 0) (h : Separated ps) (hnul : .other 0 ∉ ps) :
    replaceText (render ps) name rep DOH_REPLACE_ID = some (render (ps.map (replaceWord name rep))) := by
  rw [replaceText_eq hname.1 hrep (h.nulFree_iff.mpr hnul) rfl]
  exact congrArg some (replaced_render hname h)

end Swig.DOH
