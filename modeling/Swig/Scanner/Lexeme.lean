import Swig.Scanner.Position
import Swig.Scanner.StringEscape

/-!
How the text of a token is spelled in the input, and what a round of `look`
consumes of it.
-/

namespace Swig.Scanner

open LookResult LookState

/-! ### Spelling -/

/-- One digit read by state 20 of `get_escape`. -/
def hexStep (result : ℕ) (c : Byte) : ℕ := (result * 16 + xdigitVal c) % 2 ^ 32

/-- What follows a backslash, and what it stands for. -/
inductive Escape : List Byte → List Byte → Prop
  | simple {c b : Byte} (h : simpleEscape c = some b) : Escape [c] [b]
  | newline : Escape [chr '\n'] []
  | octal {d : Byte} {ds : List Byte} (hds : ∀ c ∈ d :: ds, isdigit c) :
      Escape (d :: ds) [UInt8.ofNat (ds.foldl octalStep (digitVal d))]
  | hex {ds : List Byte} (hds : ∀ c ∈ ds, isxdigit c) :
      Escape (chr 'x' :: ds) [UInt8.ofNat (ds.foldl hexStep 0)]
  | other {c : Byte} : Escape [c] [chr '\\', c]

/-- What is written between two quotes `q`, and the text it stands for. -/
inductive Unescaped (q : Byte) : List Byte → List Byte → Prop
  | nil : Unescaped q [] []
  | char {body text : List Byte} {c : Byte} (h : Unescaped q body text) (hq : c ≠ q)
      (hb : c ≠ chr '\\') : Unescaped q (body ++ [c]) (text ++ [c])
  | escape {body text e out : List Byte} (h : Unescaped q body text) (he : Escape e out) :
      Unescaped q (body ++ chr '\\' :: e) (text ++ out)

/-- The lexeme of a token with its text. A suffix of a floating point number is
not part of the text, and neither are quotes and block marks. -/
def Spelled : Token → List Byte → List Byte → Prop
  | .eof, _, _ | .error, _, _ => True
  | .endline, u, text => u = [chr '\n'] ∧ ∃ ws, text = ws ++ u
  | .string, u, text => ∃ body, u = 34 :: body ++ [34] ∧ Unescaped 34 body text
  | .char, u, text => ∃ body, u = 39 :: body ++ [39] ∧ Unescaped 39 body text
  | .rstring, u, text => u = 96 :: text ++ [96]
  | .codeblock, u, text => u = lit "%\x7b" ++ text ++ lit "%\x7d"
  | .float, u, text => ∃ c, isF c ∧ u = text ++ [c]
  | .double, u, text => u = text ∨ ∃ c, isL c ∧ u = text ++ [c]
  | _, u, text => u = text

/-! ### Escapes -/

variable {s₀ s s' : Scanner} {cs u : List Byte} {c : Byte} {n : ℕ}

theorem Consumes.dropLastText (h : Consumes s₀ cs s) : Consumes s₀ cs s.dropLastText := h.congr rfl rfl rfl

theorem Consumes.putText (h : Consumes s₀ cs s) (bs : List Byte) : Consumes s₀ cs (s.putText bs) :=
  h.congr rfl rfl rfl

theorem left_dropLastText (s : Scanner) : s.dropLastText.left = s.left := rfl

/-- The digits of an escape. They end before the first character that is none,
which is given back, or with the input. -/
theorem getEscapeLoop_digits (st : ℕ → EscState) (digit : Byte → Bool) (step : ℕ → Byte → ℕ)
    (hloop : ∀ n r s, getEscapeLoop (n + 1) (st r) s =
      if (nextchar s).1 = 0 then some (nextchar s).2
      else if !digit (nextchar s).1 then
        ((nextchar s).2.retract 1).map fun s => s.putText [UInt8.ofNat r]
      else getEscapeLoop n (st (step r (nextchar s).1)) (nextchar s).2.dropLastText)
    (hnul : ∀ x ∈ s₀.left, x.1 ≠ 0) (h : Consumes s₀ cs s) (hn : s.left.length < n) (r : ℕ) :
    ∃ s' ds, getEscapeLoop n (st r) s = some s' ∧ Consumes s₀ (cs ++ ds) s' ∧
      (s'.left = [] ∨ (∀ d ∈ ds, digit d) ∧ s'.text = s.text ++ [UInt8.ofNat (ds.foldl step r)]) := by
  induction n generalizing s cs r with
  | zero => omega
  | succ n ih =>
      rw [hloop]
      cases hleft : s.left with
      | nil =>
          obtain ⟨hnext, -⟩ := nextchar_of_left_nil hleft
          refine ⟨s.settle, [], by rw [hnext]; rfl, by rw [List.append_nil]; exact h.settle, .inl ?_⟩
          rw [left_settle, hleft]
      | cons x r' =>
          obtain ⟨c, l⟩ := x
          obtain ⟨s₁, hs₁⟩ := exists_nextchar h.freezeLine hleft
          rw [hs₁.eq, if_neg (h.ne_zero hnul hleft)]
          by_cases hdigit : digit c
          · have h₁ : Consumes s₀ (cs ++ [c]) s₁.dropLastText := (h.read hs₁ hleft).dropLastText
            have hlen : s₁.dropLastText.left.length < n := by
              rw [left_dropLastText, hs₁.left]
              rw [hleft, List.length_cons] at hn
              omega
            obtain ⟨s', ds, hs', h', htext⟩ := ih h₁ hlen (step r c)
            refine ⟨s', c :: ds, by simp [hdigit, hs'], by simpa using h', htext.imp_right fun ht => ?_⟩
            refine ⟨List.forall_mem_cons.mpr ⟨hdigit, ht.1⟩, ?_⟩
            rw [ht.2, Scanner.dropLastText, hs₁.text, List.dropLast_concat]
            rfl
          · refine ⟨s.settle.putText [UInt8.ofNat r], [], by simp [hdigit, hs₁.back],
              by rw [List.append_nil]; exact h.settle.putText _, .inr ⟨by simp, ?_⟩⟩
            rw [Scanner.putText, settle_text]
            rfl

theorem getEscape_consumes (hnul : ∀ x ∈ s₀.left, x.1 ≠ 0) (h : Consumes s₀ cs s) :
    ∃ s' e, getEscape s = some s' ∧ Consumes s₀ (cs ++ e) s' ∧
      (s'.left = [] ∨ ∃ out, Escape e out ∧ s'.text = s.text ++ out) := by
  rw [getEscape, getEscapeLoop]
  cases hleft : s.left with
  | nil =>
      obtain ⟨hnext, -⟩ := nextchar_of_left_nil hleft
      refine ⟨s.settle, [], by rw [hnext]; rfl, by rw [List.append_nil]; exact h.settle, .inl ?_⟩
      rw [left_settle, hleft]
  | cons x r =>
      obtain ⟨c, l⟩ := x
      obtain ⟨s₁, hs₁⟩ := exists_nextchar h.freezeLine hleft
      have h₁ := h.read hs₁ hleft
      have hdrop : s₁.dropLastText.text = s.text := by
        rw [Scanner.dropLastText, hs₁.text, List.dropLast_concat]
      have hlen : s₁.dropLastText.left.length < s.remaining := by
        rw [left_dropLastText, hs₁.left, ← length_left, hleft, List.length_cons]
        omega
      rw [hs₁.eq]
      dsimp only
      rw [if_neg (h.ne_zero hnul hleft)]
      cases hsimple : simpleEscape c with
      | some b =>
          exact ⟨_, [c], rfl, h₁.dropLastText.putText _, .inr ⟨[b], .simple hsimple, by
            rw [Scanner.putText, hdrop]⟩⟩
      | none =>
          dsimp only
          split
          · rename_i hc
            exact ⟨_, [c], rfl, h₁.dropLastText, .inr ⟨[], hc ▸ .newline, by simp [hdrop]⟩⟩
          · split
            · rename_i hdigit
              obtain ⟨s', ds, hs', h', htext⟩ := getEscapeLoop_digits .s10 isdigit octalStep
                (fun _ _ _ => by rw [getEscapeLoop]; rfl) hnul h₁.dropLastText hlen (digitVal c)
              refine ⟨s', c :: ds, hs', by simpa using h', htext.imp_right fun ht => ?_⟩
              exact ⟨_, .octal (List.forall_mem_cons.mpr ⟨hdigit, ht.1⟩), by rw [ht.2, hdrop]⟩
            · split
              · rename_i hx
                obtain ⟨s', ds, hs', h', htext⟩ := getEscapeLoop_digits .s20 isxdigit hexStep
                  (fun _ _ _ => by rw [getEscapeLoop]; rfl) hnul h₁.dropLastText hlen 0
                refine ⟨s', c :: ds, hs', by simpa using h', htext.imp_right fun ht => ?_⟩
                exact ⟨_, by rw [hx]; exact .hex ht.1, by rw [ht.2, hdrop]⟩
              · exact ⟨_, [c], rfl, h₁.dropLastText.putText _, .inr ⟨_, .other, by
                  rw [Scanner.putText, hdrop]⟩⟩

end Swig.Scanner
