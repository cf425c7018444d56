import Swig.Lib.Brackets
import Swig.SType.FunctionType
import Mathlib.Data.Bool.AllAny

/-!
The elements of a type: `SwigType_split`, `SwigType_pop`, `SwigType_base` and
`SwigType_prefix` (`typeobj.c`) on the encodings of types.
-/

namespace Swig.SType

open Brackets

/-! ### The functions -/

/-- The elements that `SwigType_pop` takes off one by one, `n` at most. -/
def popAll : ℕ → SwigType → List SwigType
  | n + 1, c :: t => (pop (c :: t)).1 :: popAll n (pop (c :: t)).2
  | _, _ => []

/-- The loop of `SwigType_base`; `ntemp` angle brackets or `nparen` parentheses are open. -/
def baseLoop : ℕ → ℕ → SwigType → SwigType → SwigType
  | _, _, lastop, [] => lastop
  | ntemp + 1, nparen, lastop, c :: s =>
      baseLoop (if c = chr '>' then ntemp else if c = chr '<' then ntemp + 2 else ntemp + 1) nparen lastop s
  | 0, nparen + 1, lastop, c :: s =>
      baseLoop 0 (if c = chr '(' then nparen + 2 else if c = chr ')' then nparen else nparen + 1) lastop s
  | 0, 0, lastop, c :: s =>
      if c = chr '.' then baseLoop 0 0 (if s ≠ [] then s else lastop) s
      else if c = chr '<' then baseLoop 1 0 lastop s
      else if c = chr '(' then baseLoop 0 1 lastop s
      else baseLoop 0 0 lastop s

/-- `SwigType_base`. -/
def base (t : SwigType) : SwigType := baseLoop 0 0 t t

/-- A loop inside `SwigType_prefix`, from the end to the beginning of the type; the byte
at `d` is the first one here. `nest` brackets are open, and `inner` opens one more. -/
def skipBack (inner outer : Byte) : ℕ → List Byte → List Byte
  | 0, s => s
  | _ + 1, [] => []
  | _ + 1, [b] => [b]
  | nest + 1, b :: d :: s =>
      skipBack inner outer (if b = inner then nest + 2 else if b = outer then nest else nest + 1) (d :: s)

/-- Back over a bracket, with the byte at `d` first. A bracket at the beginning of the type
leads outside of it. -/
def skipGroup (inner outer : Byte) : List Byte → Option (List Byte)
  | [] => some []
  | b :: s => if b = inner then (if s = [] then none else some (skipBack inner outer 1 s)) else some (b :: s)

/-- The loop of `SwigType_prefix` over what is before `d`, from its end on. -/
def prefixLoop : ℕ → List Byte → Option SwigType
  | 0, _ => none
  | _ + 1, [] => some []
  | n + 1, b :: s => do
      let s ← skipGroup (chr '>') (chr '<') (b :: s)
      let s ← skipGroup (chr ')') (chr '(') s
      if s.head? = some (chr '.') then some s.reverse else prefixLoop n s.tail

/-- `SwigType_prefix`. -/
def typePrefix (t : SwigType) : Option SwigType :=
  let s := t.reverse
  prefixLoop (t.length + 1) (if s.head? = some (chr '.') then s.tail else s)

/-! ### Encodings -/

/-- `p.`, `r.`, `a(..).`, `q(..).`, `m(..).` and `f(..).`. -/
inductive Constructor : SwigType → Prop
  | plain {c : Byte} (hc : c ∈ lit "pr") : Constructor [c, chr '.']
  | call {c : Byte} {u : SwigType} (hc : c ∈ lit "aqmf") (hu : Balanced (chr '(') (chr ')') u) :
      Constructor (c :: chr '(' :: (u ++ [chr ')', chr '.']))

/-- A part of the name of a base: a letter, or template arguments. -/
inductive NamePart : SwigType → Prop
  | letter {c : Byte} (hc : c ∉ lit ".()<>") : NamePart [c]
  | template {u : SwigType} (hparen : Balanced (chr '(') (chr ')') u) (hangle : Balanced (chr '<') (chr '>') u) :
      NamePart (chr '<' :: chr '(' :: (u ++ [chr ')', chr '>']))

/-- The encoding of a type: its constructors, and the parts of its base. -/
structure Encoding where
  constructors : List SwigType
  parts : List SwigType
  constructor : ∀ e ∈ constructors, Constructor e
  part : ∀ p ∈ parts, NamePart p
  named : parts ≠ []

namespace Encoding

variable (k : Encoding)

def base : SwigType := k.parts.flatten

def elements : List SwigType := k.constructors ++ [k.base]

def text : SwigType := k.elements.flatten

end Encoding

example : typePrefix (lit "f(p.int).p.vector<(p.int)>") = some (lit "f(p.int).p.") := rfl
example : base (lit "f(p.int).p.vector<(p.int)>") = lit "vector<(p.int)>" := rfl

/-! ### Over brackets -/

variable {u s e : SwigType} {n : ℕ}

theorem elementSplit_balanced (h : Balanced (chr '(') (chr ')') u) (n : ℕ) (s : SwigType) :
    elementSplit (n + 1) (u ++ s) = (u ++ (elementSplit (n + 1) s).1, (elementSplit (n + 1) s).2) := by
  induction h generalizing n s with
  | nil => rfl
  | letter hb _ ih => rw [List.cons_append, elementSplit, if_neg hb.1, if_neg hb.2, ih, List.cons_append]
  | group _ _ ihu ih =>
      rw [List.cons_append, List.append_assoc, List.cons_append, elementSplit, if_pos rfl, ihu, elementSplit,
        if_neg (by decide), if_pos rfl, ih]
      simp only [List.append_assoc, List.cons_append]

theorem baseLoop_parens (h : Balanced (chr '(') (chr ')') u) (n : ℕ) (lastop s : SwigType) :
    baseLoop 0 (n + 1) lastop (u ++ s) = baseLoop 0 (n + 1) lastop s := by
  induction h generalizing n s with
  | nil => rfl
  | letter hb _ ih => rw [List.cons_append, baseLoop, if_neg hb.1, if_neg hb.2, ih]
  | group _ _ ihu ih =>
      rw [List.cons_append, List.append_assoc, List.cons_append, baseLoop, if_pos rfl, ihu, baseLoop,
        if_neg (by decide), if_pos rfl, ih]

theorem baseLoop_angles (h : Balanced (chr '<') (chr '>') u) (n : ℕ) (lastop s : SwigType) :
    baseLoop (n + 1) 0 lastop (u ++ s) = baseLoop (n + 1) 0 lastop s := by
  induction h generalizing n s with
  | nil => rfl
  | letter hb _ ih => rw [List.cons_append, baseLoop, if_neg hb.2, if_neg hb.1, ih]
  | group _ _ ihu ih =>
      rw [List.cons_append, List.append_assoc, List.cons_append, baseLoop, if_neg (by decide), if_pos rfl, ihu,
        baseLoop, if_pos rfl, ih]

/-- Back over what is balanced, if it does not end at the beginning of the type. -/
theorem skipBack_balanced {inner outer : Byte} (h : Balanced inner outer u) (hne : outer ≠ inner) (n : ℕ)
    (hs : s ≠ []) :
    skipBack inner outer (n + 1) (u ++ s) = skipBack inner outer (n + 1) s := by
  have hcons {t : SwigType} (b : Byte) (n : ℕ) (ht : t ≠ []) : skipBack inner outer (n + 1) (b :: t) =
      skipBack inner outer (if b = inner then n + 2 else if b = outer then n else n + 1) t := by
    cases t with
    | nil => exact absurd rfl ht
    | cons d t => rfl
  induction h generalizing n s with
  | nil => rfl
  | letter hb _ ih =>
      rw [List.cons_append, hcons _ _ (List.append_ne_nil_of_right_ne_nil _ hs), if_neg hb.1, if_neg hb.2, ih n hs]
  | group _ _ ihu ih =>
      rw [List.cons_append, List.append_assoc, List.cons_append, hcons _ _ (List.append_ne_nil_of_right_ne_nil _
        (List.cons_ne_nil _ _)), if_pos rfl, ihu _ (List.cons_ne_nil _ _), hcons _ _
        (List.append_ne_nil_of_right_ne_nil _ hs), if_neg hne, if_pos rfl, ih n hs]

/-! ### Elements -/

theorem elementSplit_constructor (h : Constructor e) (s : SwigType) : elementSplit 0 (e ++ s) = (e, s) := by
  cases h with
  | @plain c hc =>
      have hall : ∀ c ∈ lit "pr", c ≠ chr '.' ∧ c ≠ chr '(' := List.all_iff_forall_prop.mp rfl
      rw [List.cons_append, elementSplit, if_neg (hall c hc).1, if_neg (hall c hc).2]
      rfl
  | @call c u hc hu =>
      have hall : ∀ c ∈ lit "aqmf", c ≠ chr '.' ∧ c ≠ chr '(' := List.all_iff_forall_prop.mp rfl
      rw [List.cons_append, List.cons_append, List.append_assoc, elementSplit, if_neg (hall c hc).1,
        if_neg (hall c hc).2, elementSplit, if_neg (by decide), if_pos rfl, elementSplit_balanced hu]
      rfl

theorem elementSplit_parts {parts : List SwigType} (h : ∀ p ∈ parts, NamePart p) :
    elementSplit 0 parts.flatten = (parts.flatten, []) := by
  induction parts with
  | nil => rfl
  | cons p parts ih =>
      obtain ⟨hp, hparts⟩ := List.forall_mem_cons.mp h
      rw [List.flatten_cons]
      cases hp with
      | @letter c hc =>
          have hdot : c ≠ chr '.' := fun h => hc (by rw [h]; decide)
          have hopen : c ≠ chr '(' := fun h => hc (by rw [h]; decide)
          rw [List.cons_append, elementSplit, if_neg hdot, if_neg hopen, List.nil_append, ih hparts]
      | template hparen _ =>
          rw [List.cons_append, List.cons_append, List.append_assoc, elementSplit, if_neg (by decide),
            if_neg (by decide), elementSplit, if_neg (by decide), if_pos rfl, elementSplit_balanced hparen,
            List.cons_append, elementSplit, if_neg (by decide), if_pos rfl, List.cons_append, elementSplit,
            if_neg (by decide), if_neg (by decide), List.nil_append, ih hparts]

theorem constructor_ne_nil (h : Constructor e) : e ≠ [] := by
  cases h <;> exact List.cons_ne_nil _ _

theorem namePart_ne_nil (h : NamePart e) : e ≠ [] := by
  cases h <;> exact List.cons_ne_nil _ _

/-- A constructor ends in its only period outside of parentheses. -/
theorem getLast_constructor (h : Constructor e) : e.getLast? = some (chr '.') := by
  cases h with
  | plain => rfl
  | @call c u =>
      have hsplit : c :: chr '(' :: (u ++ [chr ')', chr '.']) = (c :: chr '(' :: (u ++ [chr ')'])) ++ [chr '.'] := by
        simp only [List.cons_append, List.append_assoc, List.nil_append]
      rw [hsplit, List.getLast?_concat]

/-- No element begins with a period. -/
theorem head_constructor (h : Constructor e) (s : SwigType) : (e ++ s).head? ≠ some (chr '.') := by
  cases h with
  | @plain c hc =>
      have hall : ∀ c ∈ lit "pr", c ≠ chr '.' := List.all_iff_forall_prop.mp rfl
      exact fun h => hall c hc (Option.some.inj h)
  | @call c u hc =>
      have hall : ∀ c ∈ lit "aqmf", c ≠ chr '.' := List.all_iff_forall_prop.mp rfl
      exact fun h => hall c hc (Option.some.inj h)

theorem head_part (h : NamePart e) (s : SwigType) : (e ++ s).head? ≠ some (chr '.') := by
  cases h with
  | @letter c hc => exact fun h => hc (by rw [Option.some.inj h]; decide)
  | template => exact fun h => absurd (Option.some.inj h) (by decide)

theorem getLast_part (h : NamePart e) : e.getLast? ≠ some (chr '.') := by
  cases h with
  | @letter c hc =>
      intro h
      obtain rfl : c = chr '.' := Option.some.inj h
      exact hc (by decide)
  | @template u =>
      have hsplit : chr '<' :: chr '(' :: (u ++ [chr ')', chr '>']) =
          (chr '<' :: chr '(' :: (u ++ [chr ')'])) ++ [chr '>'] := by
        simp only [List.cons_append, List.append_assoc, List.nil_append]
      rw [hsplit, List.getLast?_concat]
      exact fun h => absurd (Option.some.inj h) (by decide)

/-! ### The functions on an encoding -/

theorem splitAux_cons (hsplit : elementSplit 0 (e ++ s) = (e, s)) (he : e ≠ []) (hs : s.head? ≠ some (chr '.'))
    (n : ℕ) : splitAux (n + 1) (e ++ s) = e :: splitAux n s := by
  obtain ⟨c, e, rfl⟩ := List.exists_cons_of_ne_nil he
  rw [List.cons_append, splitAux, ← List.cons_append, hsplit]
  dsimp only
  rw [if_neg hs]

theorem pop_append (hsplit : elementSplit 0 (e ++ s) = (e, s)) (hs : s.head? ≠ some (chr '.')) :
    pop (e ++ s) = (e, s) := by
  rw [pop, hsplit]
  dsimp only
  rw [if_neg hs]

theorem popAll_cons (hsplit : elementSplit 0 (e ++ s) = (e, s)) (he : e ≠ []) (hs : s.head? ≠ some (chr '.'))
    (n : ℕ) : popAll (n + 1) (e ++ s) = e :: popAll n s := by
  have hpop := pop_append hsplit hs
  obtain ⟨c, e, rfl⟩ := List.exists_cons_of_ne_nil he
  rw [List.cons_append] at hpop ⊢
  rw [popAll, hpop]

theorem baseLoop_constructor (h : Constructor e) (hs : s ≠ []) (lastop : SwigType) :
    baseLoop 0 0 lastop (e ++ s) = baseLoop 0 0 s s := by
  cases h with
  | @plain c hc =>
      have hall : ∀ c ∈ lit "pr", c ≠ chr '.' ∧ c ≠ chr '<' ∧ c ≠ chr '(' := List.all_iff_forall_prop.mp rfl
      obtain ⟨hdot, hangle, hparen⟩ := hall c hc
      rw [List.cons_append, baseLoop, if_neg hdot, if_neg hangle, if_neg hparen, List.cons_append, baseLoop, if_pos rfl,
        List.nil_append, if_pos hs]
  | @call c u hc hu =>
      have hall : ∀ c ∈ lit "aqmf", c ≠ chr '.' ∧ c ≠ chr '<' ∧ c ≠ chr '(' := List.all_iff_forall_prop.mp rfl
      obtain ⟨hdot, hangle, hparen⟩ := hall c hc
      rw [List.cons_append, List.cons_append, List.append_assoc, baseLoop, if_neg hdot, if_neg hangle, if_neg hparen,
        baseLoop, if_neg (by decide), if_neg (by decide), if_pos rfl, baseLoop_parens hu, List.cons_append, baseLoop,
        if_neg (by decide), if_pos rfl, List.cons_append, baseLoop, if_pos rfl, List.nil_append, if_pos hs]

theorem baseLoop_parts {parts : List SwigType} (h : ∀ p ∈ parts, NamePart p) (lastop : SwigType) :
    baseLoop 0 0 lastop parts.flatten = lastop := by
  induction parts with
  | nil => rfl
  | cons p parts ih =>
      obtain ⟨hp, hparts⟩ := List.forall_mem_cons.mp h
      rw [List.flatten_cons]
      cases hp with
      | @letter c hc =>
          have hne (b : Byte) (hb : b ∈ lit ".()<>") : c ≠ b := fun h => hc (h ▸ hb)
          rw [List.cons_append, baseLoop, if_neg (hne _ (by decide)), if_neg (hne _ (by decide)),
            if_neg (hne _ (by decide)), List.nil_append, ih hparts]
      | @template u hparen hangle =>
          have hgroup : chr '(' :: (u ++ [chr ')', chr '>']) ++ parts.flatten =
              (chr '(' :: (u ++ [chr ')'])) ++ chr '>' :: parts.flatten := by
            simp only [List.cons_append, List.append_assoc, List.nil_append]
          have hangles : Balanced (chr '<') (chr '>') (chr '(' :: (u ++ [chr ')'])) :=
            .letter (by decide) (hangle.append (.letter (by decide) .nil))
          rw [List.cons_append, baseLoop, if_neg (by decide), if_pos rfl, hgroup, baseLoop_angles hangles, baseLoop,
            if_pos rfl, ih hparts]

/-- Before the base there is nothing, or a period. -/
def Bounded (s : List Byte) : Prop := ∀ c ∈ s.head?, c = chr '.'

theorem prefixLoop_bounded {r : List Byte} (hr : Bounded r) (n : ℕ) : prefixLoop (n + 1) r = some r.reverse := by
  cases r with
  | nil => rfl
  | cons c r =>
      obtain rfl := hr c rfl
      rfl

/-- What is done in a round behind template arguments. -/
def afterTemplate (n : ℕ) (s : List Byte) : Option SwigType :=
  (skipGroup (chr ')') (chr '(') s).bind fun s =>
    if s.head? = some (chr '.') then some s.reverse else prefixLoop n s.tail

theorem prefixLoop_cons (n : ℕ) (b : Byte) (s : List Byte) :
    prefixLoop (n + 1) (b :: s) = (skipGroup (chr '>') (chr '<') (b :: s)).bind (afterTemplate n) := rfl

theorem skipGroup_of_ne {inner : Byte} (outer : Byte) {b : Byte} (hb : b ≠ inner) (s : List Byte) :
    skipGroup inner outer (b :: s) = some (b :: s) := if_neg hb

theorem afterTemplate_letter {b : Byte} (hparen : b ≠ chr ')') (hdot : b ≠ chr '.') (n : ℕ) (s : List Byte) :
    afterTemplate n (b :: s) = prefixLoop n s := by
  rw [afterTemplate, skipGroup_of_ne _ hparen]
  exact if_neg fun h => hdot (Option.some.inj h)

/-- The parts of a name from its end on. The loop comes to them at any byte, and behind
template arguments, where it does not look for an angle bracket. -/
theorem prefixLoop_parts {parts : List SwigType} (h : ∀ p ∈ parts, NamePart p) {r : List Byte} (hr : Bounded r)
    (hn : (parts.map List.reverse).flatten.length < n) :
    prefixLoop n ((parts.map List.reverse).flatten ++ r) = some r.reverse ∧
      ((parts.map List.reverse).flatten ++ r ≠ [] →
        afterTemplate n ((parts.map List.reverse).flatten ++ r) = some r.reverse) := by
  induction parts generalizing n with
  | nil =>
      obtain ⟨n, rfl⟩ := Nat.exists_eq_succ_of_ne_zero (Nat.ne_of_gt (Nat.zero_lt_of_lt hn))
      refine ⟨prefixLoop_bounded hr n, fun hne => ?_⟩
      obtain ⟨c, r, rfl⟩ := List.exists_cons_of_ne_nil hne
      obtain rfl := hr c rfl
      rfl
  | cons p parts ih =>
      obtain ⟨hp, hparts⟩ := List.forall_mem_cons.mp h
      rw [List.map_cons, List.flatten_cons, List.length_append] at hn
      rw [List.map_cons, List.flatten_cons, List.append_assoc]
      have hrest {n : ℕ} (hn : (parts.map List.reverse).flatten.length < n) := ih hparts hn
      generalize hz : (parts.map List.reverse).flatten ++ r = z at hrest ⊢
      cases hp with
      | @letter c hc =>
          have hne (b : Byte) (hb : b ∈ lit ".()<>") : c ≠ b := fun h => hc (h ▸ hb)
          obtain ⟨n, rfl⟩ := Nat.exists_eq_succ_of_ne_zero (Nat.ne_of_gt (Nat.zero_lt_of_lt hn))
          have hletter (m : ℕ) : afterTemplate m (c :: z) = prefixLoop m z :=
            afterTemplate_letter (hne _ (by decide)) (hne _ (by decide)) m z
          rw [List.reverse_singleton, List.length_singleton] at hn
          refine ⟨?_, fun _ => ?_⟩
          · rw [List.reverse_singleton, List.singleton_append, prefixLoop_cons, skipGroup_of_ne _ (hne _ (by decide)),
              Option.bind_some, hletter]
            exact (hrest (by omega)).1
          · rw [List.reverse_singleton, List.singleton_append, hletter]
            exact (hrest (by omega)).1
      | @template u hparen hangle =>
          have hrev : (chr '<' :: chr '(' :: (u ++ [chr ')', chr '>'])).reverse ++ z =
              chr '>' :: chr ')' :: (u.reverse ++ chr '(' :: chr '<' :: z) := by
            simp only [List.reverse_cons, List.reverse_append, List.append_assoc, List.cons_append, List.nil_append,
              List.reverse_nil]
          have hlen : (chr '<' :: chr '(' :: (u ++ [chr ')', chr '>'])).reverse.length = u.length + 4 := by
            simp only [List.length_reverse, List.length_cons, List.length_append, List.length_nil]
          rw [hlen] at hn
          obtain ⟨n, rfl⟩ := Nat.exists_eq_succ_of_ne_zero (Nat.ne_of_gt (Nat.zero_lt_of_lt hn))
          obtain ⟨n, rfl⟩ := Nat.exists_eq_succ_of_ne_zero (show n ≠ 0 by omega)
          rw [hrev]
          refine ⟨?_, fun _ => ?_⟩
          · -- back over the angle brackets
            have hback : Balanced (chr '>') (chr '<') (chr ')' :: (u.reverse ++ [chr '('])) :=
              .letter (by decide) (hangle.reverse.append (.letter (by decide) .nil))
            have hgroup : chr ')' :: (u.reverse ++ chr '(' :: chr '<' :: z) =
                chr ')' :: (u.reverse ++ [chr '(']) ++ chr '<' :: z := by
              simp only [List.cons_append, List.append_assoc, List.nil_append]
            have hskip : skipGroup (chr '>') (chr '<') (chr '>' :: chr ')' :: (u.reverse ++ chr '(' :: chr '<' :: z)) =
                some (skipBack (chr '>') (chr '<') 1 (chr '<' :: z)) := by
              rw [skipGroup, if_pos rfl, if_neg (List.cons_ne_nil _ _), hgroup,
                skipBack_balanced hback (by decide) 0 (List.cons_ne_nil _ _)]
            rw [prefixLoop_cons, hskip, Option.bind_some]
            cases z with
            | nil =>
                obtain rfl := (List.append_eq_nil_iff.mp hz).2
                rfl
            | cons d z =>
                rw [skipBack, if_neg (by decide), if_pos rfl, skipBack]
                exact (hrest (by omega)).2 (List.cons_ne_nil d z)
          · -- back over the parentheses inside
            have hskip : skipGroup (chr ')') (chr '(') (chr ')' :: (u.reverse ++ chr '(' :: chr '<' :: z)) =
                some (chr '<' :: z) := by
              rw [skipGroup, if_pos rfl, if_neg (List.append_ne_nil_of_right_ne_nil _ (List.cons_ne_nil _ _)),
                skipBack_balanced hparen.reverse (by decide) 0 (List.cons_ne_nil _ _), skipBack, if_neg (by decide),
                if_pos rfl, skipBack]
            have hdot : (chr '<' :: z).head? ≠ some (chr '.') := fun h => absurd (Option.some.inj h) (by decide)
            rw [afterTemplate_letter (by decide) (by decide), prefixLoop_cons, skipGroup_of_ne _ (by decide),
              Option.bind_some, afterTemplate, hskip, Option.bind_some, if_neg hdot]
            exact (hrest (by omega)).1

namespace Encoding

variable (k : Encoding)

theorem base_ne_nil : k.base ≠ [] := by
  obtain ⟨p, parts, hparts⟩ := List.exists_cons_of_ne_nil k.named
  have hp : NamePart p := k.part p (by rw [hparts]; exact List.mem_cons_self)
  rw [base, hparts, List.flatten_cons]
  exact List.append_ne_nil_of_left_ne_nil (namePart_ne_nil hp) _

theorem head_base (s : SwigType) : (k.base ++ s).head? ≠ some (chr '.') := by
  obtain ⟨p, parts, hparts⟩ := List.exists_cons_of_ne_nil k.named
  have hp : NamePart p := k.part p (by rw [hparts]; exact List.mem_cons_self)
  rw [base, hparts, List.flatten_cons, List.append_assoc]
  exact head_part hp _

theorem text_eq : k.text = k.constructors.flatten ++ k.base := by
  rw [text, elements, List.flatten_append, List.flatten_singleton]

/-- What is behind some of the constructors. -/
theorem head_rest {es : List SwigType} (h : ∀ e ∈ es, Constructor e) :
    (es.flatten ++ k.base).head? ≠ some (chr '.') := by
  cases es with
  | nil => simpa only [List.flatten_nil, List.nil_append, List.append_nil] using k.head_base []
  | cons e es =>
      rw [List.flatten_cons, List.append_assoc]
      exact head_constructor (h e List.mem_cons_self) _

theorem elementSplit_base : elementSplit 0 k.base = (k.base, []) := elementSplit_parts k.part

/-- The forward scans from an element on, with a round for every byte. -/
theorem forward_rest {es : List SwigType} (h : ∀ e ∈ es, Constructor e) {n : ℕ}
    (hn : (es.flatten ++ k.base).length ≤ n) :
    splitAux n (es.flatten ++ k.base) = es ++ [k.base] ∧ popAll n (es.flatten ++ k.base) = es ++ [k.base] := by
  induction es generalizing n with
  | nil =>
      have hpos : 0 < k.base.length := List.length_pos_of_ne_nil k.base_ne_nil
      rw [List.flatten_nil, List.nil_append] at hn ⊢
      obtain ⟨n, rfl⟩ := Nat.exists_eq_add_one_of_ne_zero (Nat.ne_of_gt (lt_of_lt_of_le hpos hn))
      have hsplit : elementSplit 0 (k.base ++ []) = (k.base, []) := by rw [List.append_nil, k.elementSplit_base]
      have hend : ([] : SwigType).head? ≠ some (chr '.') := by decide
      have hone := splitAux_cons hsplit k.base_ne_nil hend n
      have hpop := popAll_cons hsplit k.base_ne_nil hend n
      rw [List.append_nil] at hone hpop
      rw [hone, hpop]
      cases n <;> exact ⟨rfl, rfl⟩
  | cons e es ih =>
      obtain ⟨he, hes⟩ := List.forall_mem_cons.mp h
      have hpos : 0 < e.length := List.length_pos_of_ne_nil (constructor_ne_nil he)
      rw [List.flatten_cons, List.append_assoc] at hn ⊢
      rw [List.length_append] at hn
      obtain ⟨n, rfl⟩ := Nat.exists_eq_add_one_of_ne_zero (show n ≠ 0 by omega)
      obtain ⟨hone, hpop⟩ := ih hes (show (es.flatten ++ k.base).length ≤ n by omega)
      have hsplit := elementSplit_constructor he (es.flatten ++ k.base)
      rw [splitAux_cons hsplit (constructor_ne_nil he) (k.head_rest hes),
        popAll_cons hsplit (constructor_ne_nil he) (k.head_rest hes), hone, hpop, List.cons_append]
      exact ⟨rfl, rfl⟩

/-- Pushed one before the other, the constructors are what they were: each ends in its period. -/
theorem push_rest {es : List SwigType} (h : ∀ e ∈ es, Constructor e) :
    es.foldr (fun e t => push t e) k.base = es.flatten ++ k.base := by
  induction es with
  | nil => rfl
  | cons e es ih =>
      obtain ⟨he, hes⟩ := List.forall_mem_cons.mp h
      rw [List.foldr_cons, ih hes, push, if_neg (constructor_ne_nil he),
        if_neg fun hdot => hdot.2 (getLast_constructor he), List.flatten_cons, List.append_assoc]

/-- The last period outside of brackets is the one before the base. -/
theorem baseLoop_rest {es : List SwigType} (h : ∀ e ∈ es, Constructor e) (lastop : SwigType) :
    baseLoop 0 0 (if es = [] then k.base else lastop) (es.flatten ++ k.base) = k.base := by
  induction es generalizing lastop with
  | nil => exact baseLoop_parts k.part k.base
  | cons e es ih =>
      obtain ⟨he, hes⟩ := List.forall_mem_cons.mp h
      have hne : es.flatten ++ k.base ≠ [] := List.append_ne_nil_of_right_ne_nil _ k.base_ne_nil
      rw [List.flatten_cons, List.append_assoc, baseLoop_constructor he hne]
      have hrest := ih hes (es.flatten ++ k.base)
      by_cases hes : es = []
      · rw [hes] at hrest ⊢
        exact hrest
      · rwa [if_neg hes] at hrest

theorem base_text : SType.base k.text = k.base := by
  have hrest := k.baseLoop_rest k.constructor k.text
  rw [← k.text_eq] at hrest
  by_cases hes : k.constructors = []
  · rw [if_pos hes] at hrest
    have htext : k.text = k.base := by rw [k.text_eq, hes, List.flatten_nil, List.nil_append]
    rw [htext] at hrest ⊢
    exact hrest
  · rwa [if_neg hes] at hrest

/-- What is before the base is empty or ends in the period of the last constructor. -/
theorem bounded_constructors : Bounded k.constructors.flatten.reverse := by
  rcases List.eq_nil_or_concat k.constructors with hes | ⟨es, e, hes⟩
  · rw [hes]
    exact fun c hc => absurd hc (by simp)
  · rw [List.concat_eq_append] at hes
    have he : Constructor e := k.constructor e (by rw [hes]; exact List.mem_append_right _ List.mem_cons_self)
    rw [hes, List.flatten_append, List.flatten_singleton, Bounded, List.head?_reverse,
      List.getLast?_append_of_ne_nil _ (constructor_ne_nil he), getLast_constructor he]
    exact fun c hc => (Option.some.inj hc).symm

theorem getLast_base : k.base.getLast? ≠ some (chr '.') := by
  rcases List.eq_nil_or_concat k.parts with hps | ⟨ps, p, hps⟩
  · exact absurd hps k.named
  · rw [List.concat_eq_append] at hps
    have hp : NamePart p := k.part p (by rw [hps]; exact List.mem_append_right _ List.mem_cons_self)
    rw [base, hps, List.flatten_append, List.flatten_singleton, List.getLast?_append_of_ne_nil _ (namePart_ne_nil hp)]
    exact getLast_part hp

theorem typePrefix_text : typePrefix k.text = some k.constructors.flatten := by
  have hlast : k.text.reverse.head? ≠ some (chr '.') := by
    rw [List.head?_reverse, k.text_eq, List.getLast?_append_of_ne_nil _ k.base_ne_nil]
    exact k.getLast_base
  have hrev : k.text.reverse = (k.parts.reverse.map List.reverse).flatten ++ k.constructors.flatten.reverse := by
    rw [k.text_eq, List.reverse_append, base, List.reverse_flatten, List.map_reverse]
  have hparts : ∀ p ∈ k.parts.reverse, NamePart p := fun p hp => k.part p (List.mem_reverse.mp hp)
  have hlen : (k.parts.reverse.map List.reverse).flatten.length < k.text.length + 1 := by
    have hsame : k.text.length = k.text.reverse.length := List.length_reverse.symm
    rw [hsame, hrev, List.length_append]
    omega
  rw [typePrefix, if_neg hlast, hrev, (prefixLoop_parts hparts k.bounded_constructors hlen).1, List.reverse_reverse]

/-- The elements that the scans from the front find. -/
theorem split_text (k : Encoding) : split k.text = k.elements ∧ popAll k.text.length k.text = k.elements := by
  have hscan := k.forward_rest k.constructor (n := k.text.length) (le_of_eq (by rw [k.text_eq]))
  rwa [← k.text_eq] at hscan

end Encoding

/-- The scans of a type agree on its elements. -/
theorem elements_agree (k : Encoding) :
    split k.text = k.elements ∧ (split k.text).flatten = k.text ∧ popAll k.text.length k.text = split k.text ∧
      (split k.text).reverse.foldl push [] = k.text ∧ (split k.text).getLast? = some (base k.text) ∧
      typePrefix k.text = some (split k.text).dropLast.flatten := by
  obtain ⟨hsplit, hpop⟩ := k.split_text
  have hsplit : split k.text = k.constructors ++ [k.base] := hsplit
  have hpush : (split k.text).reverse.foldl push [] = k.text := by
    have hone : push [] k.base = k.base := by
      rw [push, if_neg k.base_ne_nil, if_neg fun h => h.1 rfl, List.append_nil]
    rw [hsplit, List.reverse_append, List.reverse_singleton, List.singleton_append, List.foldl_cons, hone,
      List.foldl_reverse, k.push_rest k.constructor, k.text_eq]
  refine ⟨hsplit, ?_, hpop.trans hsplit.symm, hpush, ?_, ?_⟩
  · rw [hsplit]
    rfl
  · rw [hsplit, List.getLast?_concat, k.base_text]
  · rw [hsplit, List.dropLast_concat, k.typePrefix_text]

end Swig.SType
