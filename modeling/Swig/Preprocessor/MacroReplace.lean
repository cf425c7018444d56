import Mathlib.Data.List.DropRight
import Swig.Preprocessor.Conditional

/-!
`Preprocessor_replace` (`cpp.c`): the walk over a text that finds the macro
calls in it, with `find_args` and the readers of literals and comments.

The result is kept in pieces, each with the bytes of the text it was read from,
so that what stands for what is not lost. The expansion of a call
(`expand_macro`) is a parameter, with the macro table it works on.
-/

namespace Swig.Preprocessor

/-- The macro that `Preprocessor_define` makes. -/
structure MacroDef where
  name : List Byte
  args : Option (List (List Byte))
  value : List Byte

/-- The macro table and what works on it, over the state `W` of the
preprocessor. -/
structure MacroTable (W : Type) where
  /-- `Getattr(symbols, id)`: null, or whether the macro has an argument list. -/
  findMacro : List Byte → W → Option Bool
  /-- `expand_macro`. -/
  expandMacro : List Byte → Option (List (List Byte)) → W → Option (List Byte) × W
  /-- What `__LINE__` and `__FILE__` stand for where the given rest of the text is
  still to be read. -/
  place : List Byte → List Byte → W → Option (List Byte)
  /-- `Preprocessor_expr`. -/
  expr : List Byte → W → Evaluation × W
  /-- `Preprocessor_define` of the value of a directive, or of a `%define`. -/
  define : List Byte → Bool → W → Option MacroDef × W
  /-- `checkpp_id`. -/
  checkppId : List Byte → Bool
  /-- `include_all || import_all`. -/
  includeAll : W → Bool
  /-- The directives that print nothing (`#undef`, `#warning`, `#error`, `#line`,
  `#pragma`, `#level`), from the name, the value and `allow`. -/
  quiet : List Byte → List Byte → Bool → W → W

def isidentifier (c : Byte) : Bool := isalpha c || c == chr '_' || c == chr '$'

def isidchar (c : Byte) : Bool := isalnum c || c == chr '_' || c == chr '$'

/-- `Chop`: the text without the white space at its end. -/
def chop (s : List Byte) : List Byte := s.rdropWhile isspace

/-- `skip_tochar`: what is read up to `ch`, and the rest. -/
def skipTochar (ch : Byte) : List Byte → List Byte × List Byte
  | [] => ([], [])
  | c :: s =>
      if c = ch then ([c], s)
      else if c = chr '\\' then
        match s with
        | [] => ([c], [])
        | d :: s => (c :: d :: (skipTochar ch s).1, (skipTochar ch s).2)
      else (c :: (skipTochar ch s).1, (skipTochar ch s).2)

/-- State 11: a comment up to the end of the line. -/
def skipLine : List Byte → List Byte × List Byte
  | [] => ([], [])
  | c :: s => if c = chr '\n' then ([c], s) else (c :: (skipLine s).1, (skipLine s).2)

/-- States 12 and 13: a comment up to its end; `star` says that the last byte was
an asterisk. -/
def skipBlock : Bool → List Byte → List Byte × List Byte
  | _, [] => ([], [])
  | star, c :: s =>
      if star && c == chr '/' then ([c], s)
      else (c :: (skipBlock (c == chr '*') s).1, (skipBlock (c == chr '*') s).2)

/-- State 10, behind a slash. -/
def skipComment : List Byte → List Byte × List Byte
  | [] => ([], [])
  | c :: s =>
      if c = chr '/' then (c :: (skipLine s).1, (skipLine s).2)
      else if c = chr '*' then (c :: (skipBlock false s).1, (skipBlock false s).2)
      else ([], c :: s)

/-- An argument is added, unless it is the first and empty. -/
def addArg (args : List (List Byte)) (str : List Byte) : List (List Byte) :=
  if args ≠ [] ∨ chop str ≠ [] then args ++ [chop str] else args

/-- The loops of `find_args` inside an argument `str`, with `level` parentheses
open in it: the arguments, and the rest of the text. -/
def argLoop : ℕ → ℕ → List Byte → List (List Byte) → List Byte → List (List Byte) × List Byte
  | 0, _, _, args, s => (args, s)
  | _ + 1, level, str, args, [] => (if 0 < level then args else addArg args str, [])
  | n + 1, level, str, args, c :: s =>
      if c = chr '"' ∨ c = chr '\'' then
        argLoop n level (str ++ c :: (skipTochar c s).1) args (skipTochar c s).2
      else if c = chr ',' ∧ level = 0 then
        if s = [] then (addArg args str, []) else argLoop n 0 [] (addArg args str) (s.dropWhile isspace)
      else if c = chr ')' ∧ level = 0 then (addArg args str, s)
      else
        argLoop n (if c = chr '(' then level + 1 else if c = chr ')' then level - 1 else level)
          (str ++ [c]) args s

/-- `find_args`: no result when no parenthesis is opened. -/
def findArgs (s : List Byte) : Option (List (List Byte) × List Byte) :=
  match s.dropWhile isspace with
  | [] => none
  | c :: s =>
      if c ≠ chr '(' then none
      else if s = [] then some ([], [])
      else some (argLoop (s.length + 1) 0 [] [] (s.dropWhile isspace))

/-- A piece of a text and what `Preprocessor_replace` makes of it. -/
inductive Piece
  /-- Text that is copied. -/
  | copy (text : List Byte)
  /-- A macro call, `defined` among them, and what stands for it. -/
  | call (source put : List Byte)
  /-- An identifier `defined` that is no call, and the text behind it that is
  dropped. -/
  | notCall (id dropped : List Byte)
  deriving DecidableEq

namespace Piece

def source : Piece → List Byte
  | copy text => text
  | call source _ => source
  | notCall id dropped => id ++ dropped

def put : Piece → List Byte
  | copy text => text
  | call _ put => put
  | notCall id _ => id

end Piece

/-- What was read of `s` when `rest` is left of it. -/
def readOf (s rest : List Byte) : List Byte := s.take (s.length - rest.length)

variable {W : Type} (t : MacroTable W)

namespace MacroTable

/-- The argument that the special macro `defined` has without parentheses. -/
def definedWord (s : List Byte) : Option (List (List Byte) × List Byte) :=
  if (s.takeWhile isidchar).isEmpty then none
  else some ([s.takeWhile isidchar], s.dropWhile isidchar)

/-- The special macro `defined`, in front of `s`. Where there is no argument the
white space is dropped, up to one step back from the byte behind it. -/
def definedPiece (id s : List Byte) (w : W) : Piece × List Byte :=
  let s' := s.dropWhile isspace
  match (match s' with | [] => none | c :: _ => if c = chr '(' then findArgs s' else definedWord s') with
  | some (args, rest) =>
      if args = [] then (.notCall id (readOf s rest), rest)
      else (.call (id ++ readOf s rest) (lit (if args.all fun o => (t.findMacro o w).isSome then "1" else "0")), rest)
  | none =>
      if s' = [] then (.notCall id s.dropLast, s.drop (s.length - 1)) else (.notCall id (readOf s s'), s')

/-- State 1, at the end of the identifier `id`; `s` is not empty. -/
def identifierPiece (id s : List Byte) (w : W) : Piece × List Byte × W :=
  if id = lit "defined" then ((t.definedPiece id s w).1, (t.definedPiece id s w).2, w)
  else
    match t.place id s w with
    | some text => (.call id text, s, w)
    | none =>
        match t.findMacro id w with
        | none => (.copy id, s, w)
        | some hasArgs =>
            let found := if hasArgs then findArgs s else none
            let rest := (found.map (·.2)).getD s
            let args := (found.map (·.1)).filter (· ≠ [])
            let (e, w) := t.expandMacro id args w
            (.call (id ++ readOf s rest) (e.getD []), rest, w)

/-- An identifier at the end of the text. -/
def lastPiece (id : List Byte) (w : W) : Piece × W :=
  if id = lit "defined" then (.call id [], w)
  else if (t.findMacro id w).isSome then
    let (e, w) := t.expandMacro id none w
    (.call id (e.getD []), w)
  else (.copy id, w)

/-- The loop of `Preprocessor_replace`, from its state 0. -/
def pieces : ℕ → List Byte → W → List Piece × W
  | 0, _, w => ([], w)
  | _ + 1, [], w => ([], w)
  | n + 1, c :: s, w =>
      if isidentifier c || c == chr '%' then
        let id := c :: s.takeWhile isidchar
        match s.dropWhile isidchar with
        | [] => ([(t.lastPiece id w).1], (t.lastPiece id w).2)
        | d :: s =>
            let (piece, rest, w) := t.identifierPiece id (d :: s) w
            (piece :: (pieces n rest w).1, (pieces n rest w).2)
      else if c = chr '"' ∨ c = chr '\'' then
        (.copy (c :: (skipTochar c s).1) :: (pieces n (skipTochar c s).2 w).1, (pieces n (skipTochar c s).2 w).2)
      else if c = chr '/' then
        (.copy (c :: (skipComment s).1) :: (pieces n (skipComment s).2 w).1, (pieces n (skipComment s).2 w).2)
      else (.copy [c] :: (pieces n s w).1, (pieces n s w).2)

/-- The pieces of the whole text. -/
def replacePieces (s : List Byte) (w : W) : List Piece × W := t.pieces s.length s w

/-- `Preprocessor_replace`. -/
def replace (s : List Byte) (w : W) : List Byte × W :=
  ((t.replacePieces s w).1.flatMap Piece.put, (t.replacePieces s w).2)

/-- The table as the conditional directives use it. -/
def macros : Macros W where
  isDefined value w := (t.findMacro value w).isSome
  replace := t.replace
  expr := t.expr

end MacroTable

/-! ### The pieces tile the text -/

theorem skipTochar_append (ch : Byte) (s : List Byte) : (skipTochar ch s).1 ++ (skipTochar ch s).2 = s := by
  fun_induction skipTochar ch s with
  | case1 => rfl
  | case2 s => rfl
  | case3 h => rfl
  | case4 h d s ih => rw [List.cons_append, List.cons_append, ih]
  | case5 c s h h' ih => rw [List.cons_append, ih]

theorem skipLine_append (s : List Byte) : (skipLine s).1 ++ (skipLine s).2 = s := by
  fun_induction skipLine s with
  | case1 => rfl
  | case2 s => rfl
  | case3 c s h ih => rw [List.cons_append, ih]

theorem skipBlock_append (star : Bool) (s : List Byte) : (skipBlock star s).1 ++ (skipBlock star s).2 = s := by
  fun_induction skipBlock star s with
  | case1 => rfl
  | case2 star c s h => rfl
  | case3 star c s h ih => rw [List.cons_append, ih]

theorem skipComment_append (s : List Byte) : (skipComment s).1 ++ (skipComment s).2 = s := by
  fun_cases skipComment s with
  | case1 => rfl
  | case2 s => rw [List.cons_append, skipLine_append]
  | case3 s h => rw [List.cons_append, skipBlock_append]
  | case4 c s h h' => rfl

theorem readOf_append {s rest : List Byte} (h : rest <:+ s) : readOf s rest ++ rest = s := by
  obtain ⟨r, rfl⟩ := h
  rw [readOf, List.length_append, Nat.add_sub_cancel, List.take_left']
  rfl

theorem skipTochar_suffix (ch : Byte) (s : List Byte) : (skipTochar ch s).2 <:+ s :=
  ⟨_, skipTochar_append ch s⟩

theorem argLoop_suffix (n level : ℕ) (str : List Byte) (args : List (List Byte)) (s : List Byte) :
    (argLoop n level str args s).2 <:+ s := by
  induction n generalizing level str args s with
  | zero => exact List.suffix_rfl
  | succ n ih =>
      cases s with
      | nil => exact List.suffix_rfl
      | cons c s =>
          rw [argLoop]
          split
          · exact (ih ..).trans ((skipTochar_suffix c s).trans (List.suffix_cons ..))
          · split
            · split
              · exact List.nil_suffix
              · exact (ih ..).trans ((List.dropWhile_suffix _).trans (List.suffix_cons ..))
            · split
              · exact List.suffix_cons ..
              · exact (ih ..).trans (List.suffix_cons ..)

theorem findArgs_suffix {s rest : List Byte} {args : List (List Byte)} (h : findArgs s = some (args, rest)) :
    rest <:+ s := by
  have hdrop : s.dropWhile isspace <:+ s := List.dropWhile_suffix _
  rw [findArgs] at h
  split at h
  · cases h
  · rename_i c u hu
    rw [hu] at hdrop
    split at h
    · cases h
    · have hrest : rest <:+ u := by
        split at h
        · cases h
          exact List.nil_suffix
        · have hloop := argLoop_suffix (u.length + 1) 0 [] [] (u.dropWhile isspace)
          rw [Option.some.inj h] at hloop
          exact hloop.trans (List.dropWhile_suffix _)
      exact hrest.trans ((List.suffix_cons c u).trans hdrop)

namespace MacroTable

/-- The identifier and what is read behind it are the source of the piece. -/
def Tiles (id s : List Byte) (piece : Piece) (rest : List Byte) : Prop :=
  ∃ r, r ++ rest = s ∧ piece.source = id ++ r

theorem tiles_readOf {id s rest : List Byte} {piece : Piece} (h : rest <:+ s)
    (hsource : piece.source = id ++ readOf s rest) : Tiles id s piece rest :=
  ⟨readOf s rest, readOf_append h, hsource⟩

theorem definedWord_suffix {s rest : List Byte} {args : List (List Byte)}
    (h : definedWord s = some (args, rest)) : rest <:+ s := by
  rw [definedWord] at h
  split at h
  · cases h
  · cases h
    exact List.dropWhile_suffix _

theorem definedPiece_tiles (id : List Byte) {s : List Byte} (w : W) :
    Tiles id s (t.definedPiece id s w).1 (t.definedPiece id s w).2 := by
  have hdrop : s.dropWhile isspace <:+ s := List.dropWhile_suffix _
  rw [definedPiece]
  split
  · rename_i args rest hfound
    have hrest : rest <:+ s := by
      split at hfound
      · cases hfound
      · refine List.IsSuffix.trans ?_ hdrop
        split at hfound
        · exact findArgs_suffix hfound
        · exact definedWord_suffix hfound
    split
    · exact tiles_readOf hrest rfl
    · exact tiles_readOf hrest rfl
  · split
    · refine ⟨s.dropLast, ?_, rfl⟩
      rw [List.dropLast_eq_take]
      exact List.take_append_drop _ _
    · exact tiles_readOf hdrop rfl

theorem identifierPiece_tiles (id s : List Byte) (w : W) :
    Tiles id s (t.identifierPiece id s w).1 (t.identifierPiece id s w).2.1 := by
  have hnil : Tiles id s (.copy id) s := ⟨[], rfl, (List.append_nil id).symm⟩
  rw [identifierPiece]
  split
  · exact t.definedPiece_tiles id w
  · split
    · exact hnil
    · split
      · exact hnil
      · rename_i hasArgs _
        apply tiles_readOf _ rfl
        cases hfound : if hasArgs then findArgs s else none with
        | none => exact List.suffix_rfl
        | some found =>
            cases hasArgs with
            | false => cases hfound
            | true => exact findArgs_suffix hfound

theorem lastPiece_source (id : List Byte) (w : W) : (t.lastPiece id w).1.source = id := by
  rw [lastPiece]
  split
  · rfl
  · split
    · rfl
    · rfl

theorem pieces_source {n : ℕ} {s : List Byte} (hn : s.length ≤ n) (w : W) :
    (t.pieces n s w).1.flatMap Piece.source = s := by
  induction n generalizing s w with
  | zero => rw [List.length_eq_zero_iff.mp (Nat.le_zero.mp hn), pieces, List.flatMap_nil]
  | succ n ih =>
      cases s with
      | nil => rfl
      | cons c s =>
          have hlen : s.length ≤ n := Nat.le_of_succ_le_succ hn
          -- one piece, and the pieces of what it leaves
          have hone {piece : Piece} {rest r : List Byte} (w : W) (hs : r ++ rest = s)
              (hsource : piece.source = c :: r) :
              (piece :: (t.pieces n rest w).1).flatMap Piece.source = c :: s := by
            have hrest : rest.length ≤ n := by
              have := congrArg List.length hs
              rw [List.length_append] at this
              omega
            rw [List.flatMap_cons, hsource, ih hrest, List.cons_append, hs]
          rw [pieces]
          split
          · dsimp only
            have hid : s.takeWhile isidchar ++ s.dropWhile isidchar = s := List.takeWhile_append_dropWhile
            split
            · rename_i hrest
              rw [hrest, List.append_nil] at hid
              rw [List.flatMap_singleton, lastPiece_source, hid]
            · rename_i d u hrest
              rw [hrest] at hid
              obtain ⟨r, hr, hsource⟩ := t.identifierPiece_tiles (c :: s.takeWhile isidchar) (d :: u) w
              have htile : (s.takeWhile isidchar ++ r) ++ (t.identifierPiece (c :: s.takeWhile isidchar) (d :: u) w).2.1 = s := by
                rw [List.append_assoc, hr, hid]
              exact hone _ htile hsource
          · split
            · exact hone _ (skipTochar_append c s) rfl
            · split
              · exact hone _ (skipComment_append s) rfl
              · exact hone _ (List.nil_append s) rfl

/-- Every byte of the text is in the source of one piece. -/
theorem replacePieces_source (s : List Byte) (w : W) : (t.replacePieces s w).1.flatMap Piece.source = s :=
  t.pieces_source le_rfl w

end MacroTable

end Swig.Preprocessor
