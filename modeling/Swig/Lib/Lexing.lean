import Mathlib.Data.List.Basic
import Mathlib.Data.List.Count
import Mathlib.Order.Nat
import Mathlib.Tactic.Common

/-!
Texts cut into pieces from left to right, each piece as the scanner finds it at
the front of what is left. A text written from pieces is read back as the same
tokens exactly when every piece stands: the scanner takes it and no more of what
follows it.
-/

namespace Lexing

variable {α : Type*}

/-- A token, or a stretch of text between tokens. -/
inductive Piece (α : Type*)
  | token (t : List α)
  | skip (t : List α)
  deriving DecidableEq

def Piece.text : Piece α → List α
  | .token t => t
  | .skip t => t

/-- The text written by pieces. -/
def text (ps : List (Piece α)) : List α := ps.flatMap Piece.text

def tokens (ps : List (Piece α)) : List (List α) := ps.filterMap fun
  | .token t => some t
  | .skip _ => none

/-- A scanner for the first piece of a text. -/
structure Scanner (α : Type*) where
  next : List α → Option (Piece α × List α)
  blank : α → Bool
  split : ∀ s p rest, next s = some (p, rest) → s = p.text ++ rest
  ne_nil : ∀ s p rest, next s = some (p, rest) → p.text ≠ []
  next_blank : ∀ c s, blank c = true → next (c :: s) = some (.skip [c], s)

variable (L : Scanner α)

/-- At most `n` pieces. -/
def Scanner.lexAux : ℕ → List α → Option (List (Piece α))
  | _, [] => some []
  | 0, _ :: _ => none
  | n + 1, c :: cs => (L.next (c :: cs)).bind fun r => (lexAux n r.2).map (r.1 :: ·)

/-- All pieces of a text. -/
def Scanner.lex (s : List α) : Option (List (Piece α)) := L.lexAux s.length s

def Scanner.tokenise (s : List α) : Option (List (List α)) := (L.lex s).map tokens

/-- A token starts with something else than a blank, and between tokens there are
only blanks. -/
def Scanner.Plain : Piece α → Prop
  | .token t => ∃ c cs, t = c :: cs ∧ L.blank c = false
  | .skip t => ∃ c, t = [c] ∧ L.blank c = true

/-- Each piece is what the scanner takes from it and the text behind it. -/
def Scanner.Stands : List (Piece α) → Prop
  | [] => True
  | p :: ps => L.next (p.text ++ text ps) = some (p, text ps) ∧ Stands ps

@[simp]
theorem text_nil : text ([] : List (Piece α)) = [] := rfl

@[simp]
theorem text_cons (p : Piece α) (ps : List (Piece α)) : text (p :: ps) = p.text ++ text ps := rfl

@[simp]
theorem text_append (ps qs : List (Piece α)) : text (ps ++ qs) = text ps ++ text qs := by simp [text]

@[simp]
theorem tokens_nil : tokens ([] : List (Piece α)) = [] := rfl

@[simp]
theorem tokens_append (ps qs : List (Piece α)) : tokens (ps ++ qs) = tokens ps ++ tokens qs := by simp [tokens]

@[simp]
theorem tokens_token (t : List α) (ps : List (Piece α)) : tokens (.token t :: ps) = t :: tokens ps := rfl

@[simp]
theorem tokens_skip (t : List α) (ps : List (Piece α)) : tokens (.skip t :: ps) = tokens ps := rfl

variable {L} {s rest : List α} {p : Piece α} {ps ps' : List (Piece α)}

/-! ### Running the scanner -/

theorem Scanner.length_lt (h : L.next s = some (p, rest)) : rest.length < s.length := by
  have hpos := List.length_pos_of_ne_nil (L.ne_nil s p rest h)
  have hlen := congrArg List.length (L.split s p rest h)
  rw [List.length_append] at hlen
  omega

theorem Scanner.lexAux_eq {n m : ℕ} (hn : s.length ≤ n) (hm : s.length ≤ m) : L.lexAux n s = L.lexAux m s := by
  induction n generalizing m s with
  | zero =>
      rw [List.eq_nil_of_length_eq_zero (Nat.le_zero.mp hn), lexAux, lexAux]
  | succ n ih =>
      cases s with
      | nil => rw [lexAux, lexAux]
      | cons c cs =>
          cases m with
          | zero => exact absurd hm (Nat.not_succ_le_zero _)
          | succ m =>
              rw [lexAux, lexAux]
              cases hnext : L.next (c :: cs) with
              | none => rfl
              | some r =>
                  have hlt := Nat.le_of_lt_succ (Scanner.length_lt hnext)
                  rw [Option.bind_some, Option.bind_some,
                    ih (hlt.trans (Nat.le_of_succ_le_succ hn)) (hlt.trans (Nat.le_of_succ_le_succ hm))]

theorem Scanner.lex_cons (hs : s ≠ []) : L.lex s = (L.next s).bind fun r => (L.lex r.2).map (r.1 :: ·) := by
  obtain ⟨c, cs, rfl⟩ := List.exists_cons_of_ne_nil hs
  rw [lex, List.length_cons, lexAux]
  cases hnext : L.next (c :: cs) with
  | none => rfl
  | some r => rw [Option.bind_some, Option.bind_some, lex,
      lexAux_eq (Nat.le_of_lt_succ (Scanner.length_lt hnext)) le_rfl]

/-- The pieces found in a text write it, and stand. -/
theorem Scanner.stands_of_lex (h : L.lex s = some ps) : text ps = s ∧ L.Stands ps := by
  induction ps generalizing s with
  | nil =>
      by_cases hs : s = []
      · exact ⟨hs.symm, trivial⟩
      · rw [lex_cons hs] at h
        obtain ⟨r, -, hr⟩ := Option.bind_eq_some_iff.mp h
        obtain ⟨_, -, hcons⟩ := Option.map_eq_some_iff.mp hr
        cases hcons
  | cons p ps ih =>
      have hs : s ≠ [] := by
        rintro rfl
        cases h
      rw [lex_cons hs] at h
      obtain ⟨⟨q, rest⟩, hnext, hr⟩ := Option.bind_eq_some_iff.mp h
      obtain ⟨qs, hqs, hcons⟩ := Option.map_eq_some_iff.mp hr
      obtain ⟨rfl, rfl⟩ := List.cons.inj hcons
      obtain ⟨htext, hstands⟩ := ih hqs
      have hsplit := L.split s q rest hnext
      rw [text_cons, htext]
      refine ⟨hsplit.symm, ?_, hstands⟩
      rw [htext, ← hsplit, hnext]

theorem Scanner.Stands.lex (h : L.Stands ps) : L.lex (text ps) = some ps := by
  induction ps with
  | nil => rfl
  | cons p ps ih =>
      have hne : text (p :: ps) ≠ [] := by
        rw [text_cons]
        exact List.append_ne_nil_of_left_ne_nil (L.ne_nil _ p _ h.1) _
      rw [lex_cons hne, text_cons, h.1, Option.bind_some, ih h.2, Option.map_some]

/-! ### Reading tokens back -/

/-- The places that are not blank. -/
def Scanner.weight (L : Scanner α) (s : List α) : ℕ := s.countP fun c => !L.blank c

theorem Scanner.weight_append (s t : List α) : L.weight (s ++ t) = L.weight s + L.weight t := List.countP_append

theorem Scanner.weight_tokens_le (ps : List (Piece α)) : L.weight (tokens ps).flatten ≤ L.weight (text ps) := by
  induction ps with
  | nil => exact Nat.le_refl _
  | cons p ps ih =>
      rw [text_cons, weight_append]
      cases p with
      | token t =>
          rw [tokens_token, List.flatten_cons, weight_append]
          exact Nat.add_le_add_left ih _
      | skip t =>
          rw [tokens_skip]
          exact ih.trans (Nat.le_add_left _ _)

theorem Scanner.weight_tokens (h : ∀ p ∈ ps, L.Plain p) : L.weight (tokens ps).flatten = L.weight (text ps) := by
  induction ps with
  | nil => rfl
  | cons p ps ih =>
      have hps := ih fun q hq => h q (List.mem_cons_of_mem _ hq)
      rw [text_cons, weight_append, ← hps]
      cases p with
      | token t => rw [tokens_token, List.flatten_cons, weight_append, Piece.text]
      | skip t =>
          obtain ⟨c, rfl, hc⟩ := h _ List.mem_cons_self
          rw [tokens_skip, Piece.text]
          simp [weight, hc]

/-- Nothing but the pieces themselves reads as their tokens: a token that took more
or less is another token, and one lost in a comment is missing at the end. -/
theorem Scanner.tokenise_text_iff (h : ∀ p ∈ ps, L.Plain p) :
    L.tokenise (text ps) = some (tokens ps) ↔ L.Stands ps := by
  constructor
  · intro htok
    induction ps with
    | nil => trivial
    | cons p ps ih =>
        have hps : ∀ q ∈ ps, L.Plain q := fun q hq => h q (List.mem_cons_of_mem _ hq)
        cases p with
        | skip t =>
            obtain ⟨c, rfl, hc⟩ := h _ List.mem_cons_self
            have hnext := L.next_blank c (text ps) hc
            refine ⟨hnext, ih hps ?_⟩
            rw [text_cons, Piece.text, List.singleton_append, tokenise, lex_cons (List.cons_ne_nil _ _), hnext,
              Option.bind_some, Option.map_map, tokens_skip] at htok
            exact htok
        | token t =>
            obtain ⟨c, cs, rfl, hc⟩ := h _ List.mem_cons_self
            rw [text_cons, Piece.text, List.cons_append, tokenise, lex_cons (List.cons_ne_nil _ _), tokens_token] at htok
            obtain ⟨qs, hqs, hq⟩ := Option.map_eq_some_iff.mp htok
            obtain ⟨⟨q, rest⟩, hnext, hr⟩ := Option.bind_eq_some_iff.mp hqs
            obtain ⟨rs, hrs, rfl⟩ := Option.map_eq_some_iff.mp hr
            have hsplit := L.split _ _ _ hnext
            cases q with
            | token u =>
                rw [tokens_token] at hq
                obtain ⟨rfl, hrest⟩ := List.cons.inj hq
                have happend : (c :: cs) ++ text ps = (c :: cs) ++ rest := hsplit
                obtain rfl := List.append_cancel_left happend
                exact ⟨hnext, ih hps (by rw [tokenise, hrs, Option.map_some, hrest])⟩
            | skip u =>
                -- what was skipped starts with the first place of the token
                exfalso
                have htext : text rs = rest := (stands_of_lex hrs).1
                have hle := weight_tokens_le (L := L) rs
                rw [tokens_skip] at hq
                rw [hq, htext] at hle
                have heq := weight_tokens h
                rw [tokens_token] at heq
                rw [heq, text_cons, Piece.text, List.cons_append, hsplit, weight_append] at hle
                have hpos : 0 < L.weight u := by
                  have hne := L.ne_nil _ _ _ hnext
                  rw [Piece.text] at hne hsplit
                  cases u with
                  | nil => exact absurd rfl hne
                  | cons d ds =>
                      obtain ⟨rfl, -⟩ := List.cons.inj hsplit
                      exact List.countP_pos_iff.mpr ⟨_, List.mem_cons_self, by rw [hc]; rfl⟩
                rw [Piece.text] at hle
                omega
  · intro hstands
    rw [tokenise, hstands.lex, Option.map_some]

end Lexing
