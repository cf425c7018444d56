import Swig.DOH.ReplaceWords
import Swig.DOH.Sprintf
import Swig.Modules.ContractSplit
import Mathlib.Data.Bool.AllAny

/-!
`Contracts::substitute_parms`: the names of parameters in an assertion are replaced by the
variables of the wrapper.
-/

namespace Swig.Modules

open DOH
open Errors (decimal digitsVal)

/-- A text as a C string has it. -/
structure CText where
  txt : List Byte
  nulFree : ∀ c ∈ txt, c ≠ 0

/-- A parameter of the function; its name is an identifier. -/
structure ContractParm where
  name : Option (List Byte)
  isWord : ∀ w ∈ name, IsWord w

/-- `sprintf(argname, "arg%d", argnum)`. -/
def argname (argnum : ℕ) : List Byte := lit "arg" ++ decimal argnum

/-- The loop over the parameters; `none` is an access outside of a buffer. -/
def substituteLoop : ℕ → List ContractParm → List Byte → Option (List Byte)
  | _, [], s => some s
  | argnum, p :: ps, s =>
      match p.name with
      | none => substituteLoop (argnum + 1) ps s
      | some name => (replaceText s name (argname argnum) DOH_REPLACE_ID).bind (substituteLoop (argnum + 1) ps)

/-- `Contracts::substitute_parms`. -/
def substituteParms (s : List Byte) (p : List ContractParm) (method : Bool) : Option (List Byte) :=
  if method then (replaceText s (lit "$self") (lit "arg1") DOH_REPLACE_ID).bind (substituteLoop 2 p)
  else substituteLoop 1 p s

/-! ### All at once -/

/-- What is replaced at once: the object, an identifier, or nothing. -/
inductive Token
  | self
  | word (w : List Byte)
  | other (c : Byte)
  deriving DecidableEq

/-- The tokens of a method's assertion; `left` says whether an identifier stands in front of them. -/
def methodTokens : Bool → List Piece → List Token
  | _, [] => []
  | _, .word w :: ps => .word w :: methodTokens true ps
  | left, .other c :: ps =>
      match ps with
      | .word w :: ps' =>
          if left = false ∧ c = chr '$' ∧ w = lit "self" then .self :: methodTokens true ps'
          else .other c :: .word w :: methodTokens true ps'
      | ps => .other c :: methodTokens false ps

def Token.ofPiece : Piece → Token
  | .word w => .word w
  | .other c => .other c

def tokens (method : Bool) (s : List Byte) : List Token :=
  if method then methodTokens false (pieces s) else (pieces s).map Token.ofPiece

/-- The number of the first parameter's variable. -/
def firstArg (method : Bool) : ℕ := if method then 2 else 1

def named (w : List Byte) (p : ContractParm) : Bool := p.name == some w

/-- The variable of the first parameter that has the name. -/
def argOf (argnum : ℕ) (p : List ContractParm) (w : List Byte) : List Byte :=
  match p.findIdx? (named w) with
  | some i => argname (argnum + i)
  | none => w

/-- A token as a piece, with a text for the object and one for each identifier. -/
def Token.piece (object : List Byte) (f : List Byte → List Byte) : Token → Piece
  | self => .word object
  | word w => .word (f w)
  | other c => .other c

/-- The names are replaced at once. -/
def simultaneous (s : List Byte) (p : List ContractParm) (method : Bool) : List Byte :=
  render ((tokens method s).map (Token.piece (argname 1) (argOf (firstArg method) p)))

/-! ### One after the other -/

/-- What the rounds make of a word. -/
def wordLoop : ℕ → List ContractParm → List Byte → List Byte
  | _, [], w => w
  | argnum, p :: ps, w => wordLoop (argnum + 1) ps (if named w p then argname argnum else w)

variable {ps : List Piece} {w rest : List Byte} {p : List ContractParm} {argnum n m : ℕ} {left : Bool}

/-! ### Names of variables -/

theorem isIdent_of_isdigit {c : Byte} (h : isdigit c = true) : isIdent c = true := by
  rw [isIdent, isalnum, h, Bool.or_true, Bool.true_or]

theorem argname_isWord (n : ℕ) : IsWord (argname n) := by
  refine ⟨nofun, fun c hc => ?_⟩
  rcases List.mem_append.mp hc with hc | hc
  · exact List.all_eq_true.mp (show (lit "arg").all isIdent = true from rfl) c hc
  · exact isIdent_of_isdigit (Errors.isdigit_of_mem_decimal hc)

theorem argname_injective : Function.Injective argname := by
  intro n m h
  have hdec : decimal n = decimal m := List.append_cancel_left h
  rw [← digitsVal_decimal n, hdec, digitsVal_decimal]

/-! ### The rounds for a word -/

theorem named_iff {q : ContractParm} : named w q = true ↔ q.name = some w := by
  rw [named, beq_iff_eq]

/-- A variable is mistaken for a parameter if one that comes later has its name. -/
def Clash (argnum : ℕ) (p : List ContractParm) (w : List Byte) : Prop :=
  ∃ i, p.findIdx? (named w) = some i ∧ ∃ q ∈ p.drop (i + 1), q.name = some (argname (argnum + i))

/-- What the rounds make of a variable is one of theirs, or the variable. -/
theorem wordLoop_argname (n m : ℕ) (p : List ContractParm) (hm : m < n) :
    (∀ q ∈ p, q.name ≠ some (argname m)) ∧ wordLoop n p (argname m) = argname m ∨
      (∃ q ∈ p, q.name = some (argname m)) ∧ ∃ k, n ≤ k ∧ wordLoop n p (argname m) = argname k := by
  induction p generalizing n m with
  | nil => exact .inl ⟨nofun, rfl⟩
  | cons q p ih =>
      rw [wordLoop]
      by_cases hq : q.name = some (argname m)
      · rw [if_pos (named_iff.mpr hq)]
        refine .inr ⟨⟨q, List.mem_cons_self, hq⟩, ?_⟩
        obtain ⟨-, hword⟩ | ⟨-, k, hk, hword⟩ := ih (n + 1) n (Nat.lt_succ_self n)
        · exact ⟨n, Nat.le_refl n, hword⟩
        · exact ⟨k, by omega, hword⟩
      · rw [if_neg (mt named_iff.mp hq)]
        obtain ⟨hnone, hword⟩ | ⟨⟨q', hq', hname⟩, k, hk, hword⟩ := ih (n + 1) m (by omega)
        · exact .inl ⟨List.forall_mem_cons.mpr ⟨hq, hnone⟩, hword⟩
        · exact .inr ⟨⟨q', List.mem_cons_of_mem _ hq', hname⟩, k, by omega, hword⟩

theorem wordLoop_argname_iff (n m : ℕ) (p : List ContractParm) (hm : m < n) :
    wordLoop n p (argname m) = argname m ↔ ∀ q ∈ p, q.name ≠ some (argname m) := by
  obtain ⟨hnone, hword⟩ | ⟨⟨q, hq, hname⟩, k, hk, hword⟩ := wordLoop_argname n m p hm
  · exact ⟨fun _ => hnone, fun _ => hword⟩
  · refine ⟨fun h => ?_, fun h => absurd hname (h q hq)⟩
    have heq := argname_injective (hword.symm.trans h)
    omega

theorem argOf_cons {q : ContractParm} :
    argOf n (q :: p) w = if named w q then argname n else argOf (n + 1) p w := by
  rw [argOf, List.findIdx?_cons]
  cases named w q with
  | true => rfl
  | false =>
      rw [argOf]
      cases p.findIdx? (named w) with
      | none => rfl
      | some i => exact congrArg argname (by omega : n + (i + 1) = n + 1 + i)

theorem clash_cons {q : ContractParm} :
    Clash n (q :: p) w ↔ if named w q then ∃ q' ∈ p, q'.name = some (argname n) else Clash (n + 1) p w := by
  rw [Clash, List.findIdx?_cons]
  cases named w q with
  | true =>
      constructor
      · rintro ⟨i, hi, hclash⟩
        obtain rfl := Option.some.inj hi
        exact hclash
      · exact fun hclash => ⟨0, rfl, hclash⟩
  | false =>
      constructor
      · rintro ⟨i, hi, q', hq', hname⟩
        obtain ⟨j, hj, rfl⟩ := Option.map_eq_some_iff.mp hi
        exact ⟨j, hj, q', hq', hname.trans (congrArg (some ∘ argname) (by omega))⟩
      · rintro ⟨j, hj, q', hq', hname⟩
        exact ⟨j + 1, by rw [if_neg Bool.false_ne_true, hj]; rfl, q', hq',
          hname.trans (congrArg (some ∘ argname) (by omega))⟩

theorem wordLoop_eq_iff (n : ℕ) (p : List ContractParm) (w : List Byte) :
    wordLoop n p w = argOf n p w ↔ ¬Clash n p w := by
  induction p generalizing n with
  | nil =>
      refine ⟨fun _ => ?_, fun _ => rfl⟩
      rintro ⟨i, hi, -⟩
      cases hi
  | cons q p ih =>
      rw [wordLoop, argOf_cons, clash_cons]
      cases named w q with
      | true =>
          rw [if_pos rfl, if_pos rfl, if_pos rfl, wordLoop_argname_iff (n + 1) n p (Nat.lt_succ_self n)]
          push Not
          rfl
      | false => exact ih (n + 1)

theorem wordLoop_isWord (hw : IsWord w) (n : ℕ) (p : List ContractParm) : IsWord (wordLoop n p w) := by
  induction p generalizing n w with
  | nil => exact hw
  | cons q p ih =>
      refine ih ?_ (n + 1)
      split
      · exact argname_isWord n
      · exact hw

theorem argOf_isWord (hw : IsWord w) (n : ℕ) (p : List ContractParm) : IsWord (argOf n p w) := by
  rw [argOf]
  split
  · exact argname_isWord _
  · exact hw

/-! ### The rounds for a text -/

theorem substituteLoop_render (n : ℕ) (p : List ContractParm) (h : Separated ps) (hnul : .other 0 ∉ ps) :
    substituteLoop n p (render ps) = some (render (ps.map (Piece.map (wordLoop n p)))) := by
  induction p generalizing n ps with
  | nil =>
      have hid : Piece.map (wordLoop n []) = id := by
        funext q
        cases q <;> rfl
      rw [substituteLoop, hid, List.map_id]
  | cons q p ih =>
      rw [substituteLoop]
      cases hq : q.name with
      | none =>
          have hname (w : List Byte) : named w q = false := by rw [named, hq]; rfl
          have hloop : wordLoop n (q :: p) = wordLoop (n + 1) p := by
            funext w
            rw [wordLoop, hname, if_neg Bool.false_ne_true]
          rw [hloop]
          exact ih (n + 1) h hnul
      | some name =>
          have hname : IsWord name := q.isWord name hq
          have harg (c : Byte) (hc : c ∈ argname n) : c ≠ 0 := isIdent_ne_zero ((argname_isWord n).2 c hc)
          have hreplaced (w : List Byte) (hw : IsWord w) : IsWord (if w = name then argname n else w) := by
            split
            · exact argname_isWord n
            · exact hw
          have hloop (q' : Piece) :
              Piece.map (wordLoop (n + 1) p) (replaceWord name (argname n) q') =
                Piece.map (wordLoop n (q :: p)) q' := by
            cases q' with
            | other c => rfl
            | word w =>
                have hword : named w q = true ↔ w = name := by
                  rw [named_iff, hq, Option.some.injEq]
                  exact eq_comm
                simp only [replaceWord, Piece.map, wordLoop, hword]
          have hrest := @ih (ps.map (replaceWord name (argname n))) (n + 1) (h.map hreplaced)
            (mt other_mem_map.mp hnul)
          dsimp only
          rw [replaceText_render hname harg h hnul, Option.bind_some, hrest, List.map_map]
          exact congrArg (fun qs => some (render qs)) (List.map_congr_left fun q' _ => hloop q')

/-! ### The object -/

/-- No identifier begins with a dollar sign. -/
theorem replaced_behind (name rep : List Byte) (left : Bool) (hw : ∀ c ∈ w, isIdent c = true) (rest : List Byte) :
    (replaced match_identifier (chr '$' :: name) rep false left (w ++ rest)).2 =
      w ++ (replaced match_identifier (chr '$' :: name) rep false (identAfter left w) rest).2 := by
  induction w generalizing left with
  | nil => rfl
  | cons c w ih =>
      obtain ⟨hc, hw⟩ := List.forall_mem_cons.mp hw
      have hpre : ¬chr '$' :: name <+: c :: (w ++ rest) := by
        intro hpre
        obtain ⟨rfl, -⟩ := List.cons_prefix_cons.mp hpre
        cases hc
      have hafter : identAfter (isIdent c) w = identAfter left (c :: w) := (identAfter_append left [c] w).symm
      rw [List.cons_append, replaced_cons hpre, ih _ hw, hafter]
      rfl

/-- A dollar sign that stays. -/
theorem replaced_dollar {name : List Byte} (rep : List Byte) (hname : ∀ c ∈ name, isIdent c = true)
    (h : ∀ v, rest = name ++ v → match_identifier.refuses left v = true) :
    (replaced match_identifier (chr '$' :: name) rep false left (chr '$' :: rest)).2 =
      chr '$' :: (replaced match_identifier (chr '$' :: name) rep false false rest).2 := by
  by_cases hpre : name <+: rest
  · obtain ⟨v, rfl⟩ := hpre
    have hafter : identAfter left (chr '$' :: name) = identAfter false name := identAfter_append left [chr '$'] name
    rw [← List.cons_append, replaced_refused rep false (List.cons_ne_nil _ _) (h v rfl), hafter,
      replaced_behind name rep false hname]
    rfl
  · rw [replaced_cons fun h => hpre (List.cons_prefix_cons.mp h).2]
    rfl

theorem self_isWord : IsWord (lit "self") := ⟨nofun, List.all_eq_true.mp rfl⟩

/-- A word stands in front of the text or not, a `$self` behind it stays. -/
theorem replaced_self (h : Separated ps) (left : Bool) :
    (replaced match_identifier (lit "$self") (lit "arg1") false left (render ps)).2 =
      render ((methodTokens left ps).map (Token.piece (argname 1) id)) := by
  have hself : lit "$self" = chr '$' :: lit "self" := rfl
  rw [hself]
  have hword {w : List Byte} (hw : IsWord w) (left : Bool) (rest : List Byte) :
      (replaced match_identifier (chr '$' :: lit "self") (lit "arg1") false left (w ++ rest)).2 =
        w ++ (replaced match_identifier (chr '$' :: lit "self") (lit "arg1") false true rest).2 := by
    rw [replaced_behind _ _ _ hw.2, identAfter_word hw]
  have hother {c : Byte} (hc : c ≠ chr '$') (left : Bool) (rest : List Byte) :
      (replaced match_identifier (chr '$' :: lit "self") (lit "arg1") false left (c :: rest)).2 =
        c :: (replaced match_identifier (chr '$' :: lit "self") (lit "arg1") false (isIdent c) rest).2 := by
    rw [replaced_cons fun hpre => hc (List.cons_prefix_cons.mp hpre).1.symm]
  fun_induction methodTokens left ps with
  | case1 => rfl
  | case2 left w ps ih =>
      cases h with
      | word hw hps h =>
          rw [render_cons, Piece.text, hword hw, ih h]
          rfl
  | case3 left c w ps' hcond ih =>
      obtain ⟨rfl, rfl, rfl⟩ := hcond
      obtain _ | @⟨_, _, hc, h⟩ := h
      obtain _ | _ | @⟨_, _, hw, hps, h⟩ := h
      have hrefuse : match_identifier.refuses false (render ps') = false := h.head_render hps
      have hrender : render (.other (chr '$') :: .word (lit "self") :: ps') = chr '$' :: lit "self" ++ render ps' := rfl
      rw [hrender, replaced_token (List.cons_ne_nil _ _) hrefuse]
      exact congrArg (lit "arg1" ++ ·) (ih h)
  | case4 left c w ps' hcond ih =>
      obtain _ | @⟨_, _, hc, h⟩ := h
      obtain _ | _ | @⟨_, _, hw, hps, h⟩ := h
      have hrender : render (.other c :: .word w :: ps') = c :: (w ++ render ps') := rfl
      have hrest := congrArg (w ++ ·) (ih h)
      have hstays :
          (replaced match_identifier (chr '$' :: lit "self") (lit "arg1") false left (c :: (w ++ render ps'))).2 =
            c :: (replaced match_identifier (chr '$' :: lit "self") (lit "arg1") false false (w ++ render ps')).2 := by
        by_cases hdollar : c = chr '$'
        · subst hdollar
          refine replaced_dollar _ self_isWord.2 fun v hv => ?_
          cases left with
          | true => rfl
          | false =>
              obtain ⟨w', rfl⟩ := prefix_of_word self_isWord.2 (h.head_render hps) ⟨v, hv.symm⟩
              cases w' with
              | nil => exact absurd ⟨rfl, rfl, List.append_nil _⟩ hcond
              | cons d w' =>
                  rw [List.append_assoc] at hv
                  obtain rfl := List.append_cancel_left hv
                  exact hw.2 d (by simp)
        · rw [hother hdollar, hc]
      rw [hrender, hstays, hword hw]
      exact congrArg (c :: ·) hrest
  | case5 left c ps hps ih =>
      obtain _ | @⟨_, _, hc, h⟩ := h
      have hrender : render (.other c :: ps) = c :: render ps := rfl
      rw [hrender]
      refine Eq.trans ?_ (congrArg (c :: ·) (ih h))
      by_cases hdollar : c = chr '$'
      · subst hdollar
        refine replaced_dollar _ self_isWord.2 fun v hv => ?_
        have hhead := h.head_render fun w hw => by
          obtain ⟨ps', rfl⟩ := List.head?_eq_some_iff.mp hw
          exact hps w ps' rfl
        rw [hv] at hhead
        cases hhead
      · rw [hother hdollar, hc]

theorem replaceText_self (h : Separated ps) (hnul : .other 0 ∉ ps) :
    replaceText (render ps) (lit "$self") (lit "arg1") DOH_REPLACE_ID =
      some (render ((methodTokens false ps).map (Token.piece (argname 1) id))) := by
  have hrep (c : Byte) (hc : c ∈ lit "arg1") : c ≠ 0 := isIdent_ne_zero ((argname_isWord 1).2 c hc)
  have htoken : lit "$self" ≠ [] := List.cons_ne_nil _ _
  rw [replaceText_eq htoken hrep (h.nulFree_iff.mpr hnul) rfl]
  exact congrArg some (replaced_self h false)

/-! ### The tokens -/

section Tokens

variable {object : List Byte} {f : List Byte → List Byte}

theorem head_methodTokens (hps : ∀ w, ps.head? ≠ some (.word w)) (w : List Byte) :
    ((methodTokens true ps).map (Token.piece object f)).head? ≠ some (.word w) := by
  cases ps with
  | nil => exact nofun
  | cons q ps =>
      cases q with
      | word w => exact absurd rfl (hps w)
      | other c =>
          cases ps with
          | nil => exact nofun
          | cons q' ps =>
              cases q' with
              | other c' => exact nofun
              | word w' =>
                  rw [methodTokens, if_neg fun h => Bool.false_ne_true h.1.symm]
                  exact nofun

theorem separated_methodTokens (hobject : IsWord object) (hf : ∀ w, IsWord w → IsWord (f w)) (h : Separated ps)
    (left : Bool) : Separated ((methodTokens left ps).map (Token.piece object f)) := by
  fun_induction methodTokens left ps with
  | case1 => exact .nil
  | case2 left w ps ih =>
      obtain _ | _ | @⟨_, _, hw, hps, h⟩ := h
      exact .word (hf _ hw) (head_methodTokens hps) (ih h)
  | case3 left c w ps' hcond ih =>
      obtain _ | @⟨_, _, hc, h⟩ := h
      obtain _ | _ | @⟨_, _, hw, hps, h⟩ := h
      exact .word hobject (head_methodTokens hps) (ih h)
  | case4 left c w ps' hcond ih =>
      obtain _ | @⟨_, _, hc, h⟩ := h
      obtain _ | _ | @⟨_, _, hw, hps, h⟩ := h
      exact .other hc (.word (hf _ hw) (head_methodTokens hps) (ih h))
  | case5 left c ps hps ih =>
      obtain _ | @⟨_, _, hc, h⟩ := h
      exact .other hc (ih h)

theorem other_mem_methodTokens {c : Byte} (h : .other c ∈ (methodTokens left ps).map (Token.piece object f)) :
    .other c ∈ ps := by
  fun_induction methodTokens left ps with
  | case1 => exact h
  | case2 left w ps ih =>
      rw [List.map_cons, List.mem_cons] at h
      exact List.mem_cons_of_mem _ (ih (h.resolve_left nofun))
  | case3 left c w ps' hcond ih =>
      rw [List.map_cons, List.mem_cons] at h
      exact List.mem_cons_of_mem _ (List.mem_cons_of_mem _ (ih (h.resolve_left nofun)))
  | case4 left c w ps' hcond ih =>
      rw [List.map_cons, List.map_cons, List.mem_cons, List.mem_cons] at h
      obtain h | h | h := h
      · exact List.mem_cons.mpr (.inl h)
      · cases h
      · exact List.mem_cons_of_mem _ (List.mem_cons_of_mem _ (ih h))
  | case5 left c ps hps ih =>
      rw [List.map_cons, List.mem_cons] at h
      obtain h | h := h
      · exact List.mem_cons.mpr (.inl h)
      · exact List.mem_cons_of_mem _ (ih h)

theorem separated_tokens (hobject : IsWord object) (hf : ∀ w, IsWord w → IsWord (f w)) (method : Bool) (s : List Byte) :
    Separated ((tokens method s).map (Token.piece object f)) := by
  cases method with
  | true => exact separated_methodTokens hobject hf (separated_pieces s) false
  | false =>
      have hpiece : Token.piece object f ∘ Token.ofPiece = Piece.map f := by
        funext q
        cases q <;> rfl
      rw [tokens, if_neg Bool.false_ne_true, List.map_map, hpiece]
      exact (separated_pieces s).map hf

end Tokens

/-! ### The assertion -/

theorem substituteParms_eq (s : CText) (p : List ContractParm) (method : Bool) :
    substituteParms s.txt p method =
      some (render ((tokens method s.txt).map
        (Token.piece (wordLoop (firstArg method) p (argname 1)) (wordLoop (firstArg method) p)))) := by
  have hsep := separated_pieces s.txt
  have hnul : .other 0 ∉ pieces s.txt := by
    rw [← hsep.nulFree_iff, render_pieces]
    exact s.nulFree
  cases method with
  | false =>
      have hloop := substituteLoop_render 1 p hsep hnul
      rw [render_pieces] at hloop
      rw [substituteParms, if_neg Bool.false_ne_true, hloop, tokens, if_neg Bool.false_ne_true, List.map_map]
      exact congrArg (fun qs => some (render qs)) (List.map_congr_left fun q _ => by cases q <;> rfl)
  | true =>
      have hself := replaceText_self hsep hnul
      rw [render_pieces] at hself
      have hloop := substituteLoop_render 2 p
        (separated_methodTokens (f := id) (argname_isWord 1) (fun _ hw => hw) hsep false)
        (mt other_mem_methodTokens hnul)
      rw [substituteParms, if_pos rfl, hself, Option.bind_some, hloop, List.map_map]
      exact congrArg (fun qs => some (render qs)) (List.map_congr_left fun t _ => by cases t <;> rfl)

/-- The names are replaced at once unless a variable has the name of a parameter that comes
later. -/
theorem substituteParms_iff (s : CText) (p : List ContractParm) (method : Bool) :
    substituteParms s.txt p method = some (simultaneous s.txt p method) ↔
      (.self ∈ tokens method s.txt → ∀ q ∈ p, q.name ≠ some (argname 1)) ∧
        ∀ w, .word w ∈ tokens method s.txt → ¬Clash (firstArg method) p w := by
  have hloop := separated_tokens (wordLoop_isWord (argname_isWord 1) (firstArg method) p)
    (fun _ hw => wordLoop_isWord hw (firstArg method) p) method s.txt
  have harg := separated_tokens (argname_isWord 1) (fun _ hw => argOf_isWord hw (firstArg method) p) method s.txt
  have hself (h : .self ∈ tokens method s.txt) : 1 < firstArg method := by
    cases method with
    | true => exact Nat.lt_succ_self 1
    | false =>
        obtain ⟨q, -, hq⟩ := List.mem_map.mp h
        cases q <;> cases hq
  have hone (t : Token) (ht : t ∈ tokens method s.txt) :
      t.piece (wordLoop (firstArg method) p (argname 1)) (wordLoop (firstArg method) p) =
          t.piece (argname 1) (argOf (firstArg method) p) ↔
        (t = .self → ∀ q ∈ p, q.name ≠ some (argname 1)) ∧ ∀ w, t = .word w → ¬Clash (firstArg method) p w := by
    cases t with
    | self =>
        rw [Token.piece, Token.piece, Piece.word.injEq, wordLoop_argname_iff _ _ _ (hself ht)]
        exact ⟨fun h => ⟨fun _ => h, nofun⟩, fun h => h.1 rfl⟩
    | word w =>
        rw [Token.piece, Token.piece, Piece.word.injEq, wordLoop_eq_iff]
        exact ⟨fun h => ⟨nofun, fun _ hw => Token.word.inj hw ▸ h⟩, fun h => h.2 w rfl⟩
    | other c => exact ⟨fun _ => ⟨nofun, nofun⟩, fun _ => rfl⟩
  rw [substituteParms_eq, simultaneous, Option.some.injEq]
  constructor
  · intro h
    have hall := List.map_inj_left.mp (render_inj hloop harg h)
    exact ⟨fun ht => ((hone _ ht).mp (hall _ ht)).1 rfl, fun w ht => ((hone _ ht).mp (hall _ ht)).2 w rfl⟩
  · rintro ⟨hobject, hclash⟩
    exact congrArg render (List.map_inj_left.mpr fun t ht =>
      (hone t ht).mpr ⟨fun heq => hobject (heq ▸ ht), fun w heq => hclash w (heq ▸ ht)⟩)

/-! ### Contracts -/

/-- When the sections of a contract are complete, and when the names in an assertion are replaced
at once. -/
theorem contracts_iff (contract assertion : CText) (p : List ContractParm) (method : Bool) :
    ((∀ s, (contractSplit contract.txt s).getD [] = sections contract.txt s) ↔
      (∀ s, readSections contract.txt s = sections contract.txt s) ∧
        Reading.start.Keeps ((splitLines contract.txt).filter (!hasBrace ·))) ∧
      (substituteParms assertion.txt p method = some (simultaneous assertion.txt p method) ↔
        (.self ∈ tokens method assertion.txt → ∀ q ∈ p, q.name ≠ some (argname 1)) ∧
          ∀ w, .word w ∈ tokens method assertion.txt → ¬Clash (firstArg method) p w) :=
  ⟨contractSplit_sections_iff contract.txt, substituteParms_iff assertion p method⟩

def reopened : CText := { txt := lit "require:\na;\nensure:\nrequire:\nb;", nulFree := List.all_iff_forall_prop.mp rfl }

def compared : CText := { txt := lit "x>arg1", nulFree := List.all_iff_forall_prop.mp rfl }

def intParm (name : List Byte) (h : IsWord name) : ContractParm :=
  { name := name, isWord := fun _ hw => Option.some.inj hw ▸ h }

/-- Of a section that is opened again behind an empty one only the new lines are kept, and
`f(int x, int arg1)` with `x>arg1` gives `arg2>arg2`. -/
theorem not_contracts :
    ¬((∀ (contract : CText) (s : Rule), (contractSplit contract.txt s).getD [] = sections contract.txt s) ∧
      ∀ (s : CText) (p : List ContractParm) (method : Bool),
        substituteParms s.txt p method = some (simultaneous s.txt p method)) ∧
      contractSplit reopened.txt .require = some (lit "b;") ∧ sections reopened.txt .require = lit "a;b;" ∧
      substituteParms compared.txt [intParm (lit "x") ⟨nofun, List.all_eq_true.mp rfl⟩,
        intParm (argname 1) (argname_isWord 1)] false = some (lit "arg2>arg2") := by
  have hsplit : contractSplit reopened.txt .require = some (lit "b;") := by decide +kernel
  have hsections : sections reopened.txt .require = lit "a;b;" := by decide +kernel
  refine ⟨fun h => ?_, hsplit, hsections, ?_⟩
  · have heq := h.1 reopened .require
    rw [hsplit, hsections] at heq
    cases heq
  · rw [substituteParms_eq]
    rfl

end Swig.Modules
