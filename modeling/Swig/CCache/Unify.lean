import Swig.CCache.MdFour
import Swig.DOH.CType
import Swig.Lib.Lexing
import Mathlib.Data.List.TakeWhile
import Mathlib.Logic.Relation

/-!
The unifier of the compiler cache (`unify.c`): the tokens of preprocessor output,
one to a line, go into the checksum, so that layout and line markers do not.

A file is read at `p + ofs` only; what is left of it from there stands for the
two. A byte read behind its end is `none`.
-/

namespace Swig.CCache

open Lexing

/-- The operators and separators, longer ones before their beginnings. -/
def sTokens : List (List Byte) :=
  ["...", ">>=", "<<=", "+=", "-=", "*=", "/=", "%=", "&=", "^=",
    "|=", ">>", "<<", "++", "--", "->", "&&", "||", "<=", ">=",
    "==", "!=", ";", "\x7b", "<%", "\x7d", "%>", ",", ":", "=",
    "(", ")", "[", "<:", "]", ":>", ".", "&", "!", "~",
    "-", "+", "*", "/", "%", "<", ">", "^", "|", "?"].map lit

/-! The bits of `tokens[c].type`. -/

def isC_ALPHA (c : Byte) : Bool := isalpha c || c == chr '_'

def isC_QUOTE (c : Byte) : Bool := c == chr '\'' || c == chr '"'

def isC_FLOAT (c : Byte) : Bool := c ∈ lit "lLfFUu"

def isC_SIGN (c : Byte) : Bool := c == chr '-' || c == chr '+'

/-- `tokens[c].toks`, the tokens that start with `c`. -/
def toks (c : Byte) : List (List Byte) := sTokens.filter fun t => t.head? == some c

/-- The token that stands at the front of `s`, which starts with `c`. -/
def operatorAt (c : Byte) (s : List Byte) : Option (List Byte) := (toks c).find? (·.isPrefixOf s)

/-- What has been pushed, and what is left. -/
abbrev Rd := List Byte × List Byte

/-- `while (ofs < size && p(p[ofs])) { pushchar(p[ofs]); ofs++; }` -/
def whileIn (p : Byte → Bool) (r : Rd) : Rd := (r.1 ++ r.2.takeWhile p, r.2.dropWhile p)

/-- A byte that satisfies `p` is pushed, and then the rest as `f` says. -/
def onNext (p : Byte → Bool) (f : Rd → Rd) (r : Rd) : Rd :=
  match r.2 with
  | [] => r
  | c :: s => if p c then f (r.1 ++ [c], s) else r

/-- A number, after its first digit. -/
def number : Rd → Rd :=
  whileIn isC_FLOAT ∘ onNext (fun c => c == chr 'E' || c == chr 'e') (whileIn fun c => isdigit c || isC_SIGN c) ∘
    onNext (fun c => c == chr 'x' || c == chr 'X') (whileIn isxdigit) ∘ whileIn fun c => isdigit c || c == chr '.'

/-- A literal after its opening `q`: every byte is pushed up to the next `q` that
no backslash stands in front of. -/
def literal (q : Byte) : List Byte → Option Rd
  | [] => none
  | [c] => if c = q then some ([c], []) else none
  | c :: d :: s =>
      if c = chr '\\' then (literal q s).map fun r => (c :: d :: r.1, r.2)
      else if c = q then some ([c], d :: s)
      else (literal q (d :: s)).map fun r => (c :: r.1, r.2)

/-- `# 12 "file"`, as the preprocessor writes it. -/
def isMarker : List Byte → Bool
  | b :: d :: _ => b == chr ' ' && isdigit d
  | _ => false

def notNewline (c : Byte) : Bool := c != chr '\n'

/-- One turn of the loop of `unify` at `c :: s`: what is pushed, and what is left. -/
def unifyRound (c : Byte) (s : List Byte) : Option Rd :=
  if c = chr '#' then
    if isMarker s then some ([], (s.dropWhile notNewline).drop 1)
    else some (c :: s.takeWhile notNewline ++ [chr '\n'], (s.dropWhile notNewline).drop 1)
  else if isC_ALPHA c then
    let r := whileIn (fun c => isC_ALPHA c || isdigit c) ([c], s)
    some (r.1 ++ [chr '\n'], r.2)
  else if isdigit c then
    let r := number ([c], s)
    some (r.1 ++ [chr '\n'], r.2)
  else if isspace c then some ([], s.dropWhile isspace)
  else if isC_QUOTE c then (literal c s).map fun r => (c :: r.1 ++ [chr '\n'], r.2)
  else
    match operatorAt c (c :: s) with
    | some t => some (t ++ [chr '\n'], (c :: s).drop t.length)
    | none => some ([c, chr '\n'], s)

/-- At most `fuel` turns of the loop. -/
def unifyLoop : ℕ → List Byte → Option (List Byte)
  | _, [] => some []
  | 0, _ :: _ => none
  | fuel + 1, c :: s => (unifyRound c s).bind fun r => (unifyLoop fuel r.2).map (r.1 ++ ·)

/-- What is pushed for a file. -/
def unify (p : List Byte) : Option (List Byte) := unifyLoop p.length p

/-! ### The tokens of a file -/

/-- The token that starts with `c`, which is neither a blank nor a `#`. -/
def tokenAt (c : Byte) (s : List Byte) : Option Rd :=
  if isC_ALPHA c then some (whileIn (fun c => isC_ALPHA c || isdigit c) ([c], s))
  else if isdigit c then some (number ([c], s))
  else if isC_QUOTE c then (literal c s).map fun r => (c :: r.1, r.2)
  else
    match operatorAt c (c :: s) with
    | some t => some (t, (c :: s).drop t.length)
    | none => some ([c], s)

/-- A blank, a line that starts with `#`, or a token. -/
def nextPiece : List Byte → Option (Piece Byte × List Byte)
  | [] => none
  | c :: s =>
      if isspace c then some (.skip [c], s)
      else if c = chr '#' then
        some (if isMarker s then .skip (c :: s.takeWhile notNewline) else .token (c :: s.takeWhile notNewline),
          s.dropWhile notNewline)
      else (tokenAt c s).map fun r => (.token r.1, r.2)

/-- What is pushed for tokens. -/
def lines (ts : List (List Byte)) : List Byte := ts.flatMap (· ++ [chr '\n'])

/-- `f` reads on, and sees only what it reads and one byte more: in front of a
newline it stops where it stops in front of that byte. -/
def Reads (f : Rd → Rd) : Prop :=
  ∀ t s, ∃ u s', s = u ++ s' ∧ f (t, s) = (t ++ u, s') ∧
    ∀ t₂ s₂, s₂.head? = s'.head? ∨ s₂.head? = some (chr '\n') → f (t₂, u ++ s₂) = (t₂ ++ u, s₂)

theorem reads_whileIn {p : Byte → Bool} (hp : p (chr '\n') = false) : Reads (whileIn p) := by
  intro t s
  refine ⟨s.takeWhile p, s.dropWhile p, List.takeWhile_append_dropWhile.symm, rfl, fun t₂ s₂ hs₂ => ?_⟩
  have hall : ∀ c ∈ s.takeWhile p, p c = true := fun c hc => List.mem_takeWhile_imp hc
  have hstop : s₂.takeWhile p = [] ∧ s₂.dropWhile p = s₂ := by
    cases s₂ with
    | nil => exact ⟨rfl, rfl⟩
    | cons c s₂ =>
        have hc : p c = false := by
          rcases hs₂ with h | h
          · have := List.head?_dropWhile_not p s
            rw [← h] at this
            simpa using this
          · rw [Option.some.inj h, hp]
        exact ⟨List.takeWhile_cons_of_neg (by simp [hc]), List.dropWhile_cons_of_neg (by simp [hc])⟩
  rw [whileIn]
  dsimp only
  rw [List.takeWhile_append_of_pos hall, List.dropWhile_append_of_pos hall, hstop.1, hstop.2, List.append_nil]

theorem onNext_stop {p : Byte → Bool} {f : Rd → Rd} {t s : List Byte} (h : ∀ c ∈ s.head?, p c = false) :
    onNext p f (t, s) = (t, s) := by
  cases s with
  | nil => rfl
  | cons c s => exact if_neg (by rw [h c rfl]; exact Bool.false_ne_true)

theorem onNext_read {p : Byte → Bool} {f : Rd → Rd} {c : Byte} {t s : List Byte} (h : p c = true) :
    onNext p f (t, c :: s) = f (t ++ [c], s) := if_pos h

theorem reads_onNext {p : Byte → Bool} {f : Rd → Rd} (hp : p (chr '\n') = false) (hf : Reads f) :
    Reads (onNext p f) := by
  intro t s
  by_cases hs : ∀ c ∈ s.head?, p c = false
  · refine ⟨[], s, rfl, by rw [onNext_stop hs, List.append_nil], fun t₂ s₂ hs₂ => ?_⟩
    rw [List.nil_append, List.append_nil, onNext_stop]
    rcases hs₂ with h | h
    · rwa [h]
    · rintro c hc
      rwa [← Option.some.inj (h.symm.trans hc)]
  · push Not at hs
    obtain ⟨c, hc, hpc⟩ := hs
    have hpc := (Bool.not_eq_false _).mp hpc
    obtain ⟨s, rfl⟩ := List.head?_eq_some_iff.mp hc
    obtain ⟨u, s', rfl, h, h'⟩ := hf (t ++ [c]) s
    refine ⟨c :: u, s', rfl, ?_, fun t₂ s₂ hs₂ => ?_⟩
    · rw [onNext_read hpc, h, List.append_assoc, List.singleton_append]
    · rw [List.cons_append, onNext_read hpc, h' _ _ hs₂, List.append_assoc, List.singleton_append]

theorem Reads.comp {f g : Rd → Rd} (hg : Reads g) (hf : Reads f) : Reads (g ∘ f) := by
  intro t s
  obtain ⟨u, s', hs, hfs, hf'⟩ := hf t s
  obtain ⟨v, s'', hs', hgs, hg'⟩ := hg (t ++ u) s'
  refine ⟨u ++ v, s'', by rw [hs, hs', List.append_assoc], ?_, fun t₂ s₂ hs₂ => ?_⟩
  · rw [Function.comp, hfs, hgs, List.append_assoc]
  · have hhead : (v ++ s₂).head? = s'.head? ∨ (v ++ s₂).head? = some (chr '\n') := by
      rw [hs', List.head?_append, List.head?_append]
      cases v with
      | nil => exact hs₂
      | cons c v => exact Or.inl rfl
    rw [List.append_assoc, Function.comp, hf' _ _ hhead, hg' _ _ hs₂, List.append_assoc]

theorem reads_number : Reads number :=
  (reads_whileIn rfl).comp <| (reads_onNext rfl (reads_whileIn rfl)).comp <|
    (reads_onNext rfl (reads_whileIn rfl)).comp (reads_whileIn rfl)

theorem literal_close {q : Byte} (hq : q ≠ chr '\\') (s : List Byte) : literal q (q :: s) = some ([q], s) := by
  cases s with
  | nil => exact if_pos rfl
  | cons d s => rw [literal, if_neg hq, if_pos rfl]

theorem literal_cons {q c : Byte} (hc : c ≠ chr '\\') (hq : c ≠ q) (s : List Byte) :
    literal q (c :: s) = (literal q s).map fun r => (c :: r.1, r.2) := by
  cases s with
  | nil => exact if_neg hq
  | cons d s => rw [literal, if_neg hc, if_neg hq]

/-- A literal is found again whatever is behind it. -/
theorem literal_spec {q : Byte} (hq : q ≠ chr '\\') {s : List Byte} {r : Rd} (h : literal q s = some r) :
    s = r.1 ++ r.2 ∧ ∀ s₂, literal q (r.1 ++ s₂) = some (r.1, s₂) := by
  induction s using literal.induct q generalizing r with
  | case1 => cases h
  | case2 =>
      rw [literal_close hq] at h
      obtain rfl := Option.some.inj h
      exact ⟨rfl, literal_close hq⟩
  | case3 c hc =>
      rw [literal, if_neg hc] at h
      cases h
  | case4 d s ih =>
      rw [literal, if_pos rfl] at h
      obtain ⟨r, hr, rfl⟩ := Option.map_eq_some_iff.mp h
      obtain ⟨hs, hs'⟩ := ih hr
      refine ⟨by rw [hs]; rfl, fun s₂ => ?_⟩
      show literal q (chr '\\' :: d :: (r.1 ++ s₂)) = _
      rw [literal, if_pos rfl, hs', Option.map_some]
  | case5 d s hc =>
      rw [literal_close hq] at h
      obtain rfl := Option.some.inj h
      exact ⟨rfl, literal_close hq⟩
  | case6 c d s hc hcq ih =>
      rw [literal_cons hc hcq] at h
      obtain ⟨r, hr, rfl⟩ := Option.map_eq_some_iff.mp h
      obtain ⟨hs, hs'⟩ := ih hr
      refine ⟨by rw [hs]; rfl, fun s₂ => ?_⟩
      show literal q (c :: (r.1 ++ s₂)) = _
      rw [literal_cons hc hcq, hs', Option.map_some]

theorem newline_notMem_sTokens : ∀ t ∈ sTokens, chr '\n' ∉ t := by decide +kernel

theorem prefix_of_newline {a t s : List Byte} (ha : chr '\n' ∉ a) (h : a <+: t ++ chr '\n' :: s) : a <+: t := by
  rcases List.prefix_or_prefix_of_prefix h (List.prefix_append t _) with hat | ⟨b, rfl⟩
  · exact hat
  · have hb := (List.prefix_append_right_inj t).mp h
    cases b with
    | nil => exact ⟨[], by rw [List.append_nil, List.append_nil]⟩
    | cons d b =>
        obtain ⟨b', hb'⟩ := hb
        have hd : d = chr '\n' := (List.cons.inj hb').1
        exact absurd (List.mem_append_right t (hd ▸ List.mem_cons_self)) ha

theorem single_mem_sTokens : ∀ t ∈ sTokens, ∀ c ∈ t.head?, [c] ∈ sTokens := by decide +kernel

/-- Where no operator stands, none starts with that byte. -/
theorem operatorAt_none {c : Byte} {s : List Byte} (h : operatorAt c (c :: s) = none) (s₂ : List Byte) :
    operatorAt c s₂ = none := by
  have hnil : toks c = [] := by
    refine List.eq_nil_iff_forall_not_mem.mpr fun t ht => ?_
    obtain ⟨hmem, hhead⟩ := List.mem_filter.mp ht
    have hc := single_mem_sTokens t hmem c (beq_iff_eq.mp hhead)
    have hsingle : [c] ∈ toks c := List.mem_filter.mpr ⟨hc, beq_self_eq_true _⟩
    exact List.find?_eq_none.mp h [c] hsingle (List.isPrefixOf_iff_prefix.mpr ⟨s, rfl⟩)
  rw [operatorAt, hnil, List.find?_nil]

/-- An operator is found again in front of a newline: nothing that is tried before
it has a newline in it. -/
theorem operatorAt_spec {c : Byte} {s t : List Byte} (h : operatorAt c (c :: s) = some t) :
    t <+: c :: s ∧ ∀ s₂, operatorAt c (t ++ chr '\n' :: s₂) = some t := by
  obtain ⟨hpre, as, bs, heq, has⟩ := List.find?_eq_some_iff_append.mp h
  have hpre := List.isPrefixOf_iff_prefix.mp hpre
  refine ⟨hpre, fun s₂ => ?_⟩
  refine List.find?_eq_some_iff_append.mpr ⟨List.isPrefixOf_iff_prefix.mpr (List.prefix_append _ _), as, bs, heq, ?_⟩
  intro a ha
  have hmem : a ∈ toks c := heq ▸ List.mem_append_left _ ha
  have hnot : ¬ a <+: c :: s := by
    have := has a ha
    rwa [Bool.not_eq_true', Bool.eq_false_iff, ne_eq, List.isPrefixOf_iff_prefix] at this
  rw [Bool.not_eq_true', Bool.eq_false_iff, ne_eq, List.isPrefixOf_iff_prefix]
  intro hat
  exact hnot ((prefix_of_newline (newline_notMem_sTokens a (List.mem_of_mem_filter hmem)) hat).trans hpre)

/-- A token is a piece of the text, and is found again in front of a newline. -/
theorem tokenAt_spec {c : Byte} {s : List Byte} {r : Rd} (h : tokenAt c s = some r) :
    ∃ t, r.1 = c :: t ∧ s = t ++ r.2 ∧ ∀ s₂, tokenAt c (t ++ chr '\n' :: s₂) = some (c :: t, chr '\n' :: s₂) := by
  have hread {f : Rd → Rd} (hf : Reads f) : ∃ t, (f ([c], s)).1 = c :: t ∧ s = t ++ (f ([c], s)).2 ∧
      ∀ s₂, f ([c], t ++ chr '\n' :: s₂) = (c :: t, chr '\n' :: s₂) := by
    obtain ⟨u, s', hs, h, h'⟩ := hf [c] s
    exact ⟨u, by rw [h]; rfl, by rw [h]; exact hs, fun s₂ => h' [c] _ (Or.inr rfl)⟩
  unfold tokenAt at h ⊢
  split_ifs at h ⊢ with halpha hdigit hquote
  · obtain rfl := Option.some.inj h
    obtain ⟨t, ht, hs, h'⟩ := hread (reads_whileIn (p := fun c => isC_ALPHA c || isdigit c) rfl)
    exact ⟨t, ht, hs, fun s₂ => congrArg some (h' s₂)⟩
  · obtain rfl := Option.some.inj h
    obtain ⟨t, ht, hs, h'⟩ := hread reads_number
    exact ⟨t, ht, hs, fun s₂ => congrArg some (h' s₂)⟩
  · obtain ⟨r, hr, rfl⟩ := Option.map_eq_some_iff.mp h
    have hq : c ≠ chr '\\' := by
      rintro rfl
      exact absurd hquote (by decide)
    obtain ⟨hs, hs'⟩ := literal_spec hq hr
    exact ⟨r.1, rfl, hs, fun s₂ => by rw [hs', Option.map_some]⟩
  · cases hop : operatorAt c (c :: s) with
    | none =>
        rw [hop] at h
        obtain rfl := Option.some.inj h
        exact ⟨[], rfl, rfl, fun s₂ => by rw [operatorAt_none hop]; rfl⟩
    | some t =>
        rw [hop] at h
        obtain rfl := Option.some.inj h
        obtain ⟨hpre, hnext⟩ := operatorAt_spec hop
        have hhead : t.head? = some c :=
          beq_iff_eq.mp (List.mem_filter.mp (List.mem_of_find?_eq_some hop)).2
        obtain ⟨t, rfl⟩ := List.head?_eq_some_iff.mp hhead
        obtain ⟨rest, hrest⟩ := hpre
        refine ⟨t, rfl, ?_, fun s₂ => ?_⟩
        · rw [← hrest, List.drop_left]
          exact (List.cons.inj hrest).2.symm
        · have := hnext s₂
          rw [List.cons_append] at this
          rw [this]
          refine congrArg some (Prod.ext rfl ?_)
          show ((c :: t) ++ chr '\n' :: s₂).drop (c :: t).length = _
          rw [List.drop_left]

/-! ### Cutting a file into pieces -/

theorem nextPiece_split (s : List Byte) (p : Piece Byte) (rest : List Byte) (h : nextPiece s = some (p, rest)) :
    s = p.text ++ rest ∧ p.text ≠ [] := by
  cases s with
  | nil => cases h
  | cons c s =>
      rw [nextPiece] at h
      split_ifs at h with hspace hhash hmarker
      · obtain ⟨rfl, rfl⟩ := Prod.mk.inj (Option.some.inj h)
        exact ⟨rfl, List.cons_ne_nil _ _⟩
      · obtain ⟨rfl, rfl⟩ := Prod.mk.inj (Option.some.inj h)
        exact ⟨congrArg (c :: ·) List.takeWhile_append_dropWhile.symm, List.cons_ne_nil _ _⟩
      · obtain ⟨rfl, rfl⟩ := Prod.mk.inj (Option.some.inj h)
        exact ⟨congrArg (c :: ·) List.takeWhile_append_dropWhile.symm, List.cons_ne_nil _ _⟩
      · obtain ⟨r, hr, hpr⟩ := Option.map_eq_some_iff.mp h
        obtain ⟨rfl, rfl⟩ := Prod.mk.inj hpr
        obtain ⟨t, ht, hs, -⟩ := tokenAt_spec hr
        rw [Piece.text, ht]
        exact ⟨congrArg (c :: ·) hs, List.cons_ne_nil _ _⟩

/-- The unifier's view of a file. -/
def unifier : Scanner Byte where
  next := nextPiece
  blank := isspace
  split s p rest h := (nextPiece_split s p rest h).1
  ne_nil s p rest h := (nextPiece_split s p rest h).2
  next_blank _ _ h := if_pos h

variable {c : Byte} {s : List Byte}

/-- The lines that are pushed for the tokens of `s`. -/
def unified (s : List Byte) : Option (List Byte) := (unifier.tokenise s).map lines

@[simp]
theorem lines_token (t : List Byte) : lines (tokens [.token t]) = t ++ [chr '\n'] := List.append_nil _

theorem unified_cons (c : Byte) (s : List Byte) : unified (c :: s) =
    (nextPiece (c :: s)).bind fun r => (unified r.2).map (lines (tokens [r.1]) ++ ·) := by
  rw [unified, Scanner.tokenise, Scanner.lex_cons (List.cons_ne_nil c s)]
  show (((nextPiece (c :: s)).bind _).map _).map _ = _
  cases nextPiece (c :: s) with
  | none => rfl
  | some r =>
      rw [Option.bind_some, Option.bind_some, unified, Scanner.tokenise]
      cases unifier.lex r.2 with
      | none => rfl
      | some ps =>
          simp only [Option.map_some]
          rw [show tokens (r.1 :: ps) = tokens [r.1] ++ tokens ps from tokens_append [r.1] ps, lines, List.flatMap_append]
          rfl

theorem map_nil_append (o : Option (List Byte)) : (o.map fun out => ([] : List Byte) ++ out) = o := by
  cases o with
  | none => rfl
  | some out => rfl

theorem unified_blank (h : isspace c = true) : unified (c :: s) = unified s := by
  rw [unified_cons, nextPiece, if_pos h, Option.bind_some]
  exact map_nil_append _

theorem unified_dropWhile (s : List Byte) : unified (s.dropWhile isspace) = unified s := by
  induction s with
  | nil => rfl
  | cons c s ih =>
      rw [List.dropWhile_cons]
      split_ifs with h
      · rw [ih, unified_blank h]
      · rfl

/-- The newline that ends a line is a blank. -/
theorem unified_drop_newline (s : List Byte) :
    unified ((s.dropWhile notNewline).drop 1) = unified (s.dropWhile notNewline) := by
  cases h : s.dropWhile notNewline with
  | nil => rfl
  | cons c rest =>
      have hhead := List.head?_dropWhile_not notNewline s
      rw [h] at hhead
      have hc : c = chr '\n' := by simpa [notNewline] using hhead
      rw [List.drop_one, List.tail_cons, hc, unified_blank (by decide)]

theorem unifyRound_token (hhash : c ≠ chr '#') (hspace : isspace c = false) :
    unifyRound c s = (tokenAt c s).map fun r => (r.1 ++ [chr '\n'], r.2) := by
  rw [unifyRound, tokenAt, if_neg hhash, hspace, if_neg Bool.false_ne_true]
  split_ifs with halpha hdigit hquote
  · rfl
  · rfl
  · rw [Option.map_map]
    rfl
  · cases operatorAt c (c :: s) with
    | none => rfl
    | some t => rfl

theorem not_token_of_isspace : ∀ c : Byte, isspace c = true → c ≠ chr '#' ∧ isC_ALPHA c = false ∧ isdigit c = false := by
  decide +kernel

theorem unifyRound_blank (h : isspace c = true) : unifyRound c s = some ([], s.dropWhile isspace) := by
  obtain ⟨hhash, halpha, hdigit⟩ := not_token_of_isspace c h
  rw [unifyRound, if_neg hhash, halpha, hdigit, if_neg Bool.false_ne_true, if_neg Bool.false_ne_true, if_pos h]

/-- A turn of the loop pushes the lines of what it takes. -/
theorem unified_round (c : Byte) (s : List Byte) :
    unified (c :: s) = (unifyRound c s).bind fun r => (unified r.2).map (r.1 ++ ·) := by
  by_cases hhash : c = chr '#'
  · have hspace : ¬ isspace c = true := fun h => (not_token_of_isspace c h).1 hhash
    rw [unified_cons, nextPiece, if_neg hspace, if_pos hhash, unifyRound, if_pos hhash]
    split_ifs with hmarker
    · simp only [Option.bind_some, unified_drop_newline]
      rfl
    · simp only [Option.bind_some, unified_drop_newline, lines_token]
  · cases hspace : isspace c with
    | true =>
        rw [unified_blank hspace, unifyRound_blank hspace, Option.bind_some, map_nil_append, unified_dropWhile]
    | false =>
        rw [unified_cons, nextPiece, hspace, if_neg Bool.false_ne_true, if_neg hhash, unifyRound_token hhash hspace]
        cases tokenAt c s with
        | none => rfl
        | some r =>
            simp only [Option.map_some, Option.bind_some, lines_token]

theorem unifyRound_length {r : Rd} (h : unifyRound c s = some r) : r.2.length ≤ s.length := by
  have hdrop (p : Byte → Bool) : (s.dropWhile p).length ≤ s.length := List.length_dropWhile_le p s
  by_cases hhash : c = chr '#'
  · have hline : ((s.dropWhile notNewline).drop 1).length ≤ s.length :=
      (List.drop_sublist 1 _).length_le.trans (hdrop notNewline)
    rw [unifyRound, if_pos hhash] at h
    split_ifs at h
    · obtain rfl := Option.some.inj h
      exact hline
    · obtain rfl := Option.some.inj h
      exact hline
  · cases hspace : isspace c with
    | true =>
        rw [unifyRound_blank hspace] at h
        obtain rfl := Option.some.inj h
        exact hdrop isspace
    | false =>
        rw [unifyRound_token hhash hspace] at h
        obtain ⟨r, hr, rfl⟩ := Option.map_eq_some_iff.mp h
        obtain ⟨t, -, hs, -⟩ := tokenAt_spec hr
        rw [hs, List.length_append]
        exact Nat.le_add_left _ _

theorem unify_eq (s : List Byte) : unify s = unified s := by
  have hloop (fuel : ℕ) (s : List Byte) (hs : s.length ≤ fuel) : unifyLoop fuel s = unified s := by
    induction fuel generalizing s with
    | zero =>
        obtain rfl := List.eq_nil_of_length_eq_zero (Nat.le_zero.mp hs)
        rfl
    | succ fuel ih =>
        cases s with
        | nil => rfl
        | cons c s =>
            rw [unifyLoop, unified_round]
            refine Option.bind_congr fun r hr => ?_
            rw [ih r.2 ((unifyRound_length hr).trans (Nat.le_of_succ_le_succ hs))]
  exact hloop s.length s le_rfl

/-! ### The unified text -/

theorem isMarker_line (h : isMarker s = false) (s₂ : List Byte) :
    isMarker (s.takeWhile notNewline ++ chr '\n' :: s₂) = false := by
  have hnewline (s₂ : List Byte) : isMarker (chr '\n' :: s₂) = false := by
    cases s₂ with
    | nil => rfl
    | cons d s₂ => rfl
  cases s with
  | nil => exact hnewline s₂
  | cons b s =>
      by_cases hb : notNewline b = true
      · rw [List.takeWhile_cons_of_pos hb]
        cases s with
        | nil => exact Bool.and_eq_false_imp.mpr fun _ => rfl
        | cons d s =>
            by_cases hd : notNewline d = true
            · rw [List.takeWhile_cons_of_pos hd]
              exact h
            · rw [List.takeWhile_cons_of_neg hd]
              exact Bool.and_eq_false_imp.mpr fun _ => rfl
      · rw [List.takeWhile_cons_of_neg hb]
        exact hnewline s₂

/-- A token is read again from the line that is pushed for it. -/
theorem nextPiece_line {t rest : List Byte} (h : nextPiece s = some (.token t, rest)) (s₂ : List Byte) :
    nextPiece (t ++ chr '\n' :: s₂) = some (.token t, chr '\n' :: s₂) := by
  cases s with
  | nil => cases h
  | cons c s =>
      rw [nextPiece] at h
      split_ifs at h with hspace hhash hmarker
      · obtain ⟨hp, -⟩ := Prod.mk.inj (Option.some.inj h)
        cases hp
      · obtain ⟨hp, -⟩ := Prod.mk.inj (Option.some.inj h)
        cases hp
      · -- a line with a `#`
        obtain ⟨hp, -⟩ := Prod.mk.inj (Option.some.inj h)
        obtain rfl := Piece.token.inj hp
        have hall : ∀ d ∈ s.takeWhile notNewline, notNewline d = true := fun d hd => List.mem_takeWhile_imp hd
        have hline : (s.takeWhile notNewline ++ chr '\n' :: s₂).takeWhile notNewline = s.takeWhile notNewline := by
          rw [List.takeWhile_append_of_pos hall, List.takeWhile_cons_of_neg (by decide), List.append_nil]
        have hrest : (s.takeWhile notNewline ++ chr '\n' :: s₂).dropWhile notNewline = chr '\n' :: s₂ := by
          rw [List.dropWhile_append_of_pos hall, List.dropWhile_cons_of_neg (by decide)]
        rw [List.cons_append, nextPiece, if_neg hspace, if_pos hhash,
          isMarker_line ((Bool.not_eq_true _).mp hmarker), if_neg Bool.false_ne_true, hline, hrest]
      · obtain ⟨r, hr, hpr⟩ := Option.map_eq_some_iff.mp h
        obtain ⟨hp, -⟩ := Prod.mk.inj hpr
        obtain rfl := Piece.token.inj hp
        obtain ⟨t, ht, -, hagain⟩ := tokenAt_spec hr
        rw [ht, List.cons_append, nextPiece, if_neg hspace, if_neg hhash, hagain, Option.map_some]

/-- The pieces of the lines that are pushed. -/
def linePieces (ts : List (List Byte)) : List (Piece Byte) := ts.flatMap fun t => [.token t, .skip [chr '\n']]

theorem linePieces_spec (ts : List (List Byte)) : text (linePieces ts) = lines ts ∧ tokens (linePieces ts) = ts := by
  induction ts with
  | nil => exact ⟨rfl, rfl⟩
  | cons t ts ih =>
      rw [linePieces, List.flatMap_cons, text_append, tokens_append, lines, List.flatMap_cons]
      exact ⟨congrArg₂ (· ++ ·) rfl ih.1, congrArg (t :: ·) ih.2⟩

theorem stands_linePieces {ps : List (Piece Byte)} (h : unifier.Stands ps) : unifier.Stands (linePieces (tokens ps)) := by
  induction ps with
  | nil => trivial
  | cons p ps ih =>
      cases p with
      | skip t => exact ih h.2
      | token t =>
          exact ⟨nextPiece_line h.1 _, unifier.next_blank (chr '\n') _ (by decide), ih h.2⟩

/-- The unified text has the tokens of the file, each on its line. -/
theorem tokenise_lines {ts : List (List Byte)} {p : List Byte} (h : unifier.tokenise p = some ts) :
    unifier.tokenise (lines ts) = some ts := by
  obtain ⟨ps, hps, rfl⟩ := Option.map_eq_some_iff.mp h
  have hlex := (stands_linePieces (Scanner.stands_of_lex hps).2).lex
  rw [(linePieces_spec _).1] at hlex
  rw [Scanner.tokenise, hlex, Option.map_some, (linePieces_spec _).2]

/-- Unifying again changes nothing. -/
theorem unify_unify (p : List Byte) : (unify p).bind unify = unify p := by
  rw [unify_eq, unified]
  cases h : unifier.tokenise p with
  | none => rfl
  | some ts => rw [Option.map_some, Option.bind_some, unify_eq, unified, tokenise_lines h, Option.map_some]

/-- Two files are unified to the same text exactly when they have the same tokens:
blanks and line markers do not count, and everything else does. -/
theorem unify_eq_iff (p q : List Byte) : unify p = unify q ↔ unifier.tokenise p = unifier.tokenise q := by
  rw [unify_eq, unify_eq, unified, unified]
  refine ⟨fun h => ?_, congrArg _⟩
  cases hp : unifier.tokenise p with
  | none =>
      rw [hp] at h
      exact (Option.map_eq_none_iff.mp h.symm).symm
  | some ts =>
      rw [hp, Option.map_some] at h
      obtain ⟨us, hus, hlines⟩ := Option.map_eq_some_iff.mp h.symm
      have hts := tokenise_lines hp
      rw [← hlines, tokenise_lines hus] at hts
      rw [hus, hts]

/-! ### Where the loop reads behind the file -/

/-- The inside of a literal: every `q` has a backslash in front of it. -/
inductive Inside (q : Byte) : List Byte → Prop
  | nil : Inside q []
  | plain (c : Byte) (s : List Byte) : c ≠ chr '\\' → c ≠ q → Inside q s → Inside q (c :: s)
  | escaped (d : Byte) (s : List Byte) : Inside q s → Inside q (chr '\\' :: d :: s)

theorem literal_of_inside {q : Byte} (hq : q ≠ chr '\\') {body : List Byte} (h : Inside q body) (rest : List Byte) :
    literal q (body ++ q :: rest) = some (body ++ [q], rest) := by
  induction h with
  | nil => exact literal_close hq rest
  | plain c s hc hcq _ ih => rw [List.cons_append, literal_cons hc hcq, ih, Option.map_some, List.cons_append]
  | escaped d s _ ih =>
      show literal q (chr '\\' :: d :: (s ++ q :: rest)) = _
      rw [literal, if_pos rfl, ih, Option.map_some]
      rfl

theorem inside_of_literal {q : Byte} (hq : q ≠ chr '\\') {s : List Byte} {r : Rd} (h : literal q s = some r) :
    ∃ body, Inside q body ∧ s = body ++ q :: r.2 := by
  induction s using literal.induct q generalizing r with
  | case1 => cases h
  | case2 =>
      rw [literal_close hq] at h
      obtain rfl := Option.some.inj h
      exact ⟨[], .nil, rfl⟩
  | case3 c hc =>
      rw [literal, if_neg hc] at h
      cases h
  | case4 d s ih =>
      rw [literal, if_pos rfl] at h
      obtain ⟨r, hr, rfl⟩ := Option.map_eq_some_iff.mp h
      obtain ⟨body, hbody, hs⟩ := ih hr
      exact ⟨_, .escaped d body hbody, by rw [hs]; rfl⟩
  | case5 d s hc =>
      rw [literal_close hq] at h
      obtain rfl := Option.some.inj h
      exact ⟨[], .nil, rfl⟩
  | case6 c d s hc hcq ih =>
      rw [literal_cons hc hcq] at h
      obtain ⟨r, hr, rfl⟩ := Option.map_eq_some_iff.mp h
      obtain ⟨body, hbody, hs⟩ := ih hr
      exact ⟨_, .plain c body hc hcq hbody, by rw [hs]; rfl⟩

/-- From one turn of the loop to the next. -/
def Turn (s s' : List Byte) : Prop := ∃ c t out, s = c :: t ∧ unifyRound c t = some (out, s')

/-- At a quote whose literal has no end. -/
def Unclosed (s : List Byte) : Prop :=
  ∃ q b, s = q :: b ∧ isC_QUOTE q = true ∧ ∀ body rest, Inside q body → b ≠ body ++ q :: rest

theorem quote_ne {q : Byte} (h : isC_QUOTE q = true) : q ≠ chr '\\' ∧ q ≠ chr '#' ∧ isspace q = false ∧
    isC_ALPHA q = false ∧ isdigit q = false := by
  rcases Bool.or_eq_true_iff.mp h with h | h
  · obtain rfl := beq_iff_eq.mp h
    decide
  · obtain rfl := beq_iff_eq.mp h
    decide

theorem unifyRound_eq_none_iff (c : Byte) (s : List Byte) : unifyRound c s = none ↔ Unclosed (c :: s) := by
  constructor
  · intro h
    rw [unifyRound] at h
    split_ifs at h with _ _ _ _ _ hquote
    · refine ⟨c, s, rfl, hquote, fun body rest hbody hs => ?_⟩
      rw [hs, literal_of_inside (quote_ne hquote).1 hbody] at h
      cases h
    · cases hop : operatorAt c (c :: s) with
      | none =>
          rw [hop] at h
          cases h
      | some t =>
          rw [hop] at h
          cases h
  · rintro ⟨q, b, heq, hquote, hunclosed⟩
    obtain ⟨rfl, rfl⟩ := List.cons.inj heq
    obtain ⟨hbackslash, hhash, hspace, halpha, hdigit⟩ := quote_ne hquote
    cases hlit : literal c s with
    | none =>
        rw [unifyRound, if_neg hhash, halpha, hdigit, hspace, if_neg Bool.false_ne_true, if_neg Bool.false_ne_true,
          if_neg Bool.false_ne_true, if_pos hquote, hlit, Option.map_none]
    | some r =>
        obtain ⟨body, hbody, hs⟩ := inside_of_literal hbackslash hlit
        exact absurd hs (hunclosed body r.2 hbody)

theorem unify_cons (c : Byte) (s : List Byte) :
    unify (c :: s) = (unifyRound c s).bind fun r => (unify r.2).map (r.1 ++ ·) := by
  rw [unify_eq, unified_round]
  exact Option.bind_congr fun r _ => by rw [unify_eq]

/-- The loop reads behind the file exactly when it comes to a literal that is not
closed in the file. -/
theorem unify_eq_none_iff (p : List Byte) :
    unify p = none ↔ ∃ s, Relation.ReflTransGen Turn p s ∧ Unclosed s := by
  constructor
  · intro h
    induction hn : p.length using Nat.strongRecOn generalizing p with
    | ind n ih =>
        cases p with
        | nil => cases h
        | cons c s =>
            rw [unify_cons] at h
            cases hround : unifyRound c s with
            | none => exact ⟨c :: s, .refl, (unifyRound_eq_none_iff c s).mp hround⟩
            | some r =>
                rw [hround, Option.bind_some] at h
                have hlt : r.2.length < n := by
                  rw [← hn, List.length_cons]
                  exact Nat.lt_succ_of_le (unifyRound_length hround)
                obtain ⟨s', hturns, hs'⟩ := ih r.2.length hlt r.2 (Option.map_eq_none_iff.mp h) rfl
                exact ⟨s', .head ⟨c, s, r.1, rfl, hround⟩ hturns, hs'⟩
  · rintro ⟨s, hturns, hs⟩
    induction hturns using Relation.ReflTransGen.head_induction_on with
    | refl =>
        obtain ⟨q, b, rfl, hq⟩ := hs
        rw [unify_cons, (unifyRound_eq_none_iff q b).mpr ⟨q, b, rfl, hq⟩, Option.bind_none]
    | head hturn _ ih =>
        obtain ⟨c, t, out, rfl, hround⟩ := hturn
        rw [unify_cons, hround, Option.bind_some, ih, Option.map_none]

end Swig.CCache
