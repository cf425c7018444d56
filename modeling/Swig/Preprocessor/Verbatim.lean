import Mathlib.Data.List.Infix
import Swig.Preprocessor.MacroReplace

/-!
What `Preprocessor_replace` leaves as it is: a text in which no macro is named, and in every
text whatever is not a macro call. A call begins outside of literals and comments.
-/

namespace Swig.Preprocessor

/-! ### Literals, comments and words -/

/-- What the bytes read so far end in. -/
inductive Lexical
  | plain
  | slash
  | word
  | quoted (ch : Byte) (escaped : Bool)
  | lineComment
  | blockComment (star : Bool)
  deriving DecidableEq

namespace Lexical

def startsWord (c : Byte) : Bool := isidentifier c || c == chr '%'

/-- Behind a byte that no word, literal or comment goes on with. -/
def opens (c : Byte) : Lexical :=
  if startsWord c then .word
  else if c = chr '"' ∨ c = chr '\'' then .quoted c false
  else if c = chr '/' then .slash
  else .plain

def next : Lexical → Byte → Lexical
  | plain, c => opens c
  | word, c => if isidchar c then .word else opens c
  | slash, c =>
      if c = chr '/' then .lineComment else if c = chr '*' then .blockComment false else opens c
  | quoted ch true, _ => .quoted ch false
  | quoted ch false, c => if c = ch then .plain else .quoted ch (c == chr '\\')
  | lineComment, c => if c = chr '\n' then .plain else .lineComment
  | blockComment star, c => if star && c == chr '/' then .plain else .blockComment (c == chr '*')

def outside : Lexical → Bool
  | plain | slash | word => true
  | quoted .. | lineComment | blockComment _ => false

/-- What a text ends in. -/
def after (s : List Byte) : Lexical := s.foldl next plain

/-- The byte is in no literal and in no comment, and goes on with no word. -/
def Free : Lexical → Byte → Prop
  | plain, _ => True
  | slash, c => c ≠ chr '/' ∧ c ≠ chr '*'
  | word, c => isidchar c = false
  | quoted .., _ | lineComment, _ | blockComment _, _ => False

/-- The first byte of the text is free, if there is one. -/
def Ready (g : Lexical) (s : List Byte) : Prop := ∀ c ∈ s.head?, g.Free c

/-- Past a piece; behind a call it begins anew. -/
def overPiece : Lexical → Piece → Lexical
  | g, .copy text => text.foldl next g
  | _, .call .. | _, .notCall .. => plain

variable {g : Lexical} {c : Byte} {s : List Byte}

theorem Free.outside (h : g.Free c) : g.outside = true := by
  cases g with
  | plain | slash | word => rfl
  | quoted | lineComment | blockComment => exact h.elim

theorem Free.next (h : g.Free c) : g.next c = opens c := by
  cases g with
  | plain => rfl
  | slash => rw [Lexical.next, if_neg h.1, if_neg h.2]
  | word => rw [Lexical.next, if_neg (Bool.eq_false_iff.mp h)]
  | quoted | lineComment | blockComment => exact h.elim

theorem ready_nil (g : Lexical) : g.Ready [] := nofun

theorem ready_plain (s : List Byte) : plain.Ready s := fun _ _ => trivial

theorem foldl_word (h : ∀ c ∈ s, isidchar c = true) : s.foldl next word = word := by
  induction s with
  | nil => rfl
  | cons c s ih =>
      obtain ⟨hc, hs⟩ := List.forall_mem_cons.mp h
      rw [List.foldl_cons, next, if_pos hc, ih hs]

/-- Behind a literal. -/
theorem ready_skipTochar (ch : Byte) (s : List Byte) :
    (((skipTochar ch s).1.foldl next (.quoted ch false)).Ready (skipTochar ch s).2) := by
  fun_induction skipTochar ch s with
  | case1 => exact ready_nil _
  | case2 s =>
      rw [List.foldl_cons, List.foldl_nil, next, if_pos rfl]
      exact ready_plain s
  | case3 h => exact ready_nil _
  | case4 d s h ih => simpa only [List.foldl_cons, next, if_neg h, beq_self_eq_true] using ih
  | case5 c s h h' ih => simpa only [List.foldl_cons, next, if_neg h, beq_eq_false_iff_ne.mpr h'] using ih

theorem ready_skipLine (s : List Byte) : ((skipLine s).1.foldl next lineComment).Ready (skipLine s).2 := by
  fun_induction skipLine s with
  | case1 => exact ready_nil _
  | case2 s => exact ready_plain s
  | case3 c s h ih => simpa only [List.foldl_cons, next, if_neg h] using ih

theorem ready_skipBlock (star : Bool) (s : List Byte) :
    ((skipBlock star s).1.foldl next (blockComment star)).Ready (skipBlock star s).2 := by
  fun_induction skipBlock star s with
  | case1 => exact ready_nil _
  | case2 star c s h =>
      rw [List.foldl_cons, List.foldl_nil, next, if_pos h]
      exact ready_plain s
  | case3 star c s h ih => simpa only [List.foldl_cons, next, if_neg h] using ih

/-- Behind a comment, or a slash that begins none. -/
theorem ready_skipComment (s : List Byte) : ((skipComment s).1.foldl next slash).Ready (skipComment s).2 := by
  fun_cases skipComment s with
  | case1 => exact ready_nil _
  | case2 s => exact ready_skipLine s
  | case3 s h =>
      rw [List.foldl_cons, next, if_neg h, if_pos rfl]
      exact ready_skipBlock false s
  | case4 c s h h' =>
      intro d hd
      cases hd
      exact ⟨h, h'⟩

end Lexical

open Lexical

/-- The text has the word outside of literals and comments. -/
def Mentions (s id : List Byte) : Prop :=
  ∃ (u v : List Byte) (c : Byte) (cs : List Byte), id = c :: cs ∧ s = u ++ id ++ v ∧ startsWord c = true ∧
    (∀ d ∈ cs, isidchar d = true) ∧ (∀ d ∈ v.head?, isidchar d = false) ∧ (after u).Free c

namespace MacroTable

variable {W : Type} (t : MacroTable W)

/-- What a call takes of the text behind its name: nothing, or what `find_args` reads. -/
def Extent (r rest : List Byte) : Prop := r = [] ∨ ∃ args, findArgs (r ++ rest) = some (args, rest)

/-- What `defined` takes: also white space, and a word behind it. -/
def DefinedExtent (r rest : List Byte) : Prop :=
  Extent r rest ∨ ∃ blanks word, r = blanks ++ word ∧ (∀ c ∈ blanks, isspace c = true) ∧
    (∀ c ∈ word, isidchar c = true)

/-- The call of the macro named `id`, in front of `rest`, that reads `r` behind the name. -/
def Calls (id r rest : List Byte) (w : W) : Prop :=
  (id = lit "defined" ∧ DefinedExtent r rest) ∨ (t.place id rest w ≠ none ∧ r = []) ∨
    ((t.findMacro id w).isSome ∧ Extent r rest)

/-- A whole word, with what is read behind it as the call of the macro it names. -/
def CallText (piece : Piece) (rest : List Byte) (w : W) : Prop :=
  ∃ (c : Byte) (cs r : List Byte), piece.source = (c :: cs) ++ r ∧ startsWord c = true ∧
    (∀ d ∈ cs, isidchar d = true) ∧ (∀ d ∈ (r ++ rest).head?, isidchar d = false) ∧
    t.Calls (c :: cs) r rest w

/-! ### One piece -/

variable {t} {id s : List Byte} {w : W}

theorem extent_findArgs {rest : List Byte} {args : List (List Byte)} (h : findArgs s = some (args, rest)) :
    Extent (readOf s rest) rest := by
  refine .inr ⟨args, ?_⟩
  rw [readOf_append (findArgs_suffix h), h]

theorem findArgs_dropWhile (s : List Byte) : findArgs (s.dropWhile isspace) = findArgs s := by
  rw [findArgs, findArgs, List.dropWhile_idempotent]

theorem readOf_eq (r rest : List Byte) : readOf (r ++ rest) rest = r := by
  rw [readOf, List.length_append, Nat.add_sub_cancel, List.take_left]

/-- White space is read, and a word behind it. -/
theorem definedExtent_word {blanks word rest : List Byte} (hs : blanks ++ (word ++ rest) = s)
    (hblanks : ∀ c ∈ blanks, isspace c = true) (hword : ∀ c ∈ word, isidchar c = true) :
    DefinedExtent (readOf s rest) rest := by
  rw [← hs, ← List.append_assoc, readOf_eq]
  exact .inr ⟨blanks, word, rfl, hblanks, hword⟩

theorem definedPiece_call (t : MacroTable W) (id : List Byte) (s : List Byte) (w : W) :
    ∃ r, r ++ (t.definedPiece id s w).2 = s ∧ (t.definedPiece id s w).1.source = id ++ r ∧
      (∀ g : Lexical, g.overPiece (t.definedPiece id s w).1 = .plain) ∧ DefinedExtent r (t.definedPiece id s w).2 := by
  have hblanks : ∀ c ∈ s.takeWhile isspace, isspace c = true := fun c => List.mem_takeWhile_imp
  have hsplit : s.takeWhile isspace ++ s.dropWhile isspace = s := List.takeWhile_append_dropWhile
  rw [definedPiece]
  split
  · rename_i args rest hfound
    have hextent : rest <:+ s ∧ DefinedExtent (readOf s rest) rest := by
      split at hfound
      · cases hfound
      · split at hfound
        · rw [findArgs_dropWhile] at hfound
          exact ⟨findArgs_suffix hfound, .inl (extent_findArgs hfound)⟩
        · rename_i c u hu _
          rw [hu] at hfound
          have hrest := (definedWord_suffix hfound).trans (hu ▸ List.dropWhile_suffix isspace)
          rw [definedWord] at hfound
          split at hfound
          · cases hfound
          · cases hfound
            have hword : ∀ d ∈ (c :: u).takeWhile isidchar, isidchar d = true := fun d => List.mem_takeWhile_imp
            refine ⟨hrest, definedExtent_word ?_ hblanks hword⟩
            rw [List.takeWhile_append_dropWhile, ← hu, hsplit]
    obtain ⟨hrest, hextent⟩ := hextent
    split
    · exact ⟨_, readOf_append hrest, rfl, fun _ => rfl, hextent⟩
    · exact ⟨_, readOf_append hrest, rfl, fun _ => rfl, hextent⟩
  · split
    · rename_i hnil
      have hall : ∀ c ∈ s, isspace c = true := by simpa using hnil
      refine ⟨s.dropLast, ?_, rfl, fun _ => rfl, .inr ⟨s.dropLast, [], (List.append_nil _).symm, ?_, ?_⟩⟩
      · rw [List.dropLast_eq_take]
        exact List.take_append_drop _ _
      · exact fun c hc => hall c (List.dropLast_subset s hc)
      · exact fun c hc => absurd hc List.not_mem_nil
    · refine ⟨_, readOf_append (List.dropWhile_suffix isspace), rfl, fun _ => rfl, ?_⟩
      have hword : ∀ c ∈ ([] : List Byte), isidchar c = true := fun c hc => absurd hc List.not_mem_nil
      exact definedExtent_word hsplit hblanks hword

/-- At the end of an identifier: it is copied, or it is a call. -/
theorem identifierPiece_call (t : MacroTable W) (id s : List Byte) (w : W) :
    (t.identifierPiece id s w = (.copy id, s, w)) ∨
      ∃ r, r ++ (t.identifierPiece id s w).2.1 = s ∧ (t.identifierPiece id s w).1.source = id ++ r ∧
        (∀ g : Lexical, g.overPiece (t.identifierPiece id s w).1 = .plain) ∧
        t.Calls id r (t.identifierPiece id s w).2.1 w := by
  rw [identifierPiece]
  split
  · rename_i hdefined
    obtain ⟨r, hr, hsource, hover, hextent⟩ := t.definedPiece_call id s w
    exact .inr ⟨r, hr, hsource, hover, .inl ⟨hdefined, hextent⟩⟩
  · split
    · rename_i text hplace
      refine .inr ⟨[], rfl, (List.append_nil id).symm, fun _ => rfl, .inr (.inl ⟨?_, rfl⟩)⟩
      rw [hplace]
      exact Option.some_ne_none text
    · split
      · exact .inl rfl
      · rename_i hasArgs hfind
        have hsome : (t.findMacro id w).isSome := by rw [hfind]; rfl
        have hfind : ∀ found, (if hasArgs then findArgs s else none) = found →
            (found.map (·.2)).getD s <:+ s ∧
              Extent (readOf s ((found.map (·.2)).getD s)) ((found.map (·.2)).getD s) := by
          intro found hfound
          cases found with
          | none => exact ⟨List.suffix_rfl, .inl (by rw [Option.map_none, Option.getD_none, readOf, Nat.sub_self]; rfl)⟩
          | some found =>
              cases hasArgs with
              | false => cases hfound
              | true => exact ⟨findArgs_suffix hfound, extent_findArgs hfound⟩
        obtain ⟨hrest, hextent⟩ := hfind _ rfl
        exact .inr ⟨_, readOf_append hrest, rfl, fun _ => rfl, .inr (.inr ⟨hsome, hextent⟩)⟩

theorem lastPiece_call (t : MacroTable W) (id : List Byte) (w : W) :
    t.lastPiece id w = (.copy id, w) ∨ (t.lastPiece id w).1.source = id ∧ t.Calls id [] [] w := by
  rw [lastPiece]
  split
  · rename_i hdefined
    exact .inr ⟨rfl, .inl ⟨hdefined, .inl (.inl rfl)⟩⟩
  · split
    · exact .inr ⟨rfl, .inr (.inr ⟨‹_›, .inl rfl⟩)⟩
    · exact .inl rfl

/-- What one round of the walk does: it takes a piece from the front of the text, copies it or
takes it for a call, and what is left begins outside of literals and comments. -/
structure Round (t : MacroTable W) (s : List Byte) (w : W) (piece : Piece) (rest : List Byte) (w' : W) : Prop where
  split : piece.source ++ rest = s
  ne_nil : piece.source ≠ []
  ready : ∀ g : Lexical, g.Ready s → (g.overPiece piece).Ready rest
  kind : ((∃ text, piece = .copy text) ∧ w' = w) ∨ t.CallText piece rest w

theorem pieces_cons (t : MacroTable W) (n : ℕ) (c : Byte) (s : List Byte) (w : W) :
    ∃ piece rest w', t.Round (c :: s) w piece rest w' ∧
      t.pieces (n + 1) (c :: s) w = (piece :: (t.pieces n rest w').1, (t.pieces n rest w').2) := by
  have hcopy {r rest : List Byte} (hsplit : r ++ rest = s) (hready : (r.foldl Lexical.next (opens c)).Ready rest) :
      t.Round (c :: s) w (.copy (c :: r)) rest w := by
    refine ⟨by rw [Piece.source, List.cons_append, hsplit], List.cons_ne_nil c r, fun g hg => ?_,
      .inl ⟨⟨_, rfl⟩, rfl⟩⟩
    rwa [overPiece, List.foldl_cons, (hg c rfl).next]
  rw [pieces]
  split
  · rename_i hstarts
    have hid : s.takeWhile isidchar ++ s.dropWhile isidchar = s := List.takeWhile_append_dropWhile
    have hword : ∀ d ∈ s.takeWhile isidchar, isidchar d = true := fun d => List.mem_takeWhile_imp
    have hopens : opens c = .word := if_pos hstarts
    have hnext : ∀ d ∈ (s.dropWhile isidchar).head?, isidchar d = false := by
      have hhead := List.head?_dropWhile_not isidchar s
      intro d hd
      rwa [hd] at hhead
    dsimp only
    split
    · rename_i hrest
      rw [hrest, List.append_nil] at hid
      refine ⟨(t.lastPiece (c :: s.takeWhile isidchar) w).1, [], (t.lastPiece (c :: s.takeWhile isidchar) w).2, ?_, ?_⟩
      · rw [hid] at hword ⊢
        rcases t.lastPiece_call (c :: s) w with hlast | ⟨hsource, hcalls⟩
        · rw [hlast]
          exact hcopy (List.append_nil s) (ready_nil _)
        · refine ⟨by rw [hsource, List.append_nil], by rw [hsource]; exact List.cons_ne_nil c s,
            fun g _ => ready_nil _, .inr ?_⟩
          refine ⟨c, s, [], hsource.trans (List.append_nil _).symm, hstarts, hword, ?_, hcalls⟩
          rintro d ⟨⟩
      · cases n <;> rfl
    · rename_i d u hrest
      rw [hrest] at hid hnext
      refine ⟨_, _, _, ?_, rfl⟩
      rcases t.identifierPiece_call (c :: s.takeWhile isidchar) (d :: u) w with
        hpiece | ⟨r, hr, hsource, hover, hcalls⟩
      · rw [hpiece]
        refine hcopy hid ?_
        rw [hopens, foldl_word hword]
        exact hnext
      · refine ⟨?_, ?_, fun g _ => ?_, .inr ?_⟩
        · rw [hsource, List.append_assoc, hr, List.cons_append, hid]
        · rw [hsource, List.cons_append]
          exact List.cons_ne_nil _ _
        · rw [hover]
          exact ready_plain _
        · refine ⟨c, s.takeWhile isidchar, r, hsource, hstarts, hword, ?_, hcalls⟩
          rw [hr]
          exact hnext
  · rename_i hstarts
    change ¬ startsWord c = true at hstarts
    split
    · rename_i hquote
      refine ⟨_, _, w, hcopy (skipTochar_append c s) ?_, rfl⟩
      rw [opens, if_neg hstarts, if_pos hquote]
      exact ready_skipTochar c s
    · rename_i hquote
      split
      · rename_i hslash
        refine ⟨_, _, w, hcopy (skipComment_append s) ?_, rfl⟩
        rw [opens, if_neg hstarts, if_neg hquote, if_pos hslash]
        exact ready_skipComment s
      · rename_i hslash
        refine ⟨_, _, w, hcopy (List.nil_append s) ?_, rfl⟩
        rw [opens, if_neg hstarts, if_neg hquote, if_neg hslash]
        exact ready_plain s

theorem Round.length_lt {piece : Piece} {rest : List Byte} {w' : W} (h : t.Round s w piece rest w') :
    rest.length < s.length := by
  rw [← h.split, List.length_append]
  have := List.length_pos_iff.mpr h.ne_nil
  omega

/-! ### The whole text -/

/-- Without a macro named in it a text is copied. -/
theorem pieces_copied {n : ℕ} {u s : List Byte} {w : W} (hn : s.length ≤ n) (hready : (after u).Ready s)
    (hnone : ∀ id r rest, Mentions (u ++ s) id → ¬ t.Calls id r rest w) :
    (t.pieces n s w).1.flatMap Piece.put = s := by
  induction n generalizing u s with
  | zero => rw [List.length_eq_zero_iff.mp (Nat.le_zero.mp hn), pieces, List.flatMap_nil]
  | succ n ih =>
      cases s with
      | nil => rfl
      | cons c s =>
          obtain ⟨piece, rest, w', hround, heq⟩ := t.pieces_cons n c s w
          rw [heq]
          rcases hround.kind with ⟨⟨text, rfl⟩, rfl⟩ | ⟨d, cs, r, hsource, hstarts, hcs, hend, hcalls⟩
          · have hsplit : text ++ rest = c :: s := hround.split
            have hlen : rest.length ≤ n := by
              have := hround.length_lt
              rw [List.length_cons] at this hn
              omega
            rw [List.flatMap_cons, ih (u := u ++ text) hlen ?_ ?_, Piece.put, hsplit]
            · rw [after, List.foldl_append]
              exact hround.ready (after u) hready
            · rwa [List.append_assoc, hsplit]
          · refine absurd hcalls (hnone (d :: cs) r rest ⟨u, r ++ rest, d, cs, rfl, ?_, hstarts, hcs, hend, ?_⟩)
            · rw [← hround.split, hsource]
              simp only [List.append_assoc]
            · have hhead := hround.split
              rw [hsource] at hhead
              exact hready d (by rw [← hhead]; rfl)

/-- Whatever is not copied is a call that begins outside of literals and comments. -/
theorem pieces_calls {n : ℕ} {s : List Byte} {w : W} {g : Lexical} (hn : s.length ≤ n) (hready : g.Ready s)
    {before behind : List Piece} {piece : Piece} (h : (t.pieces n s w).1 = before ++ piece :: behind) :
    (∃ text, piece = .copy text) ∨
      (before.foldl overPiece g).outside = true ∧ ∃ w', t.CallText piece (behind.flatMap Piece.source) w' := by
  induction n generalizing s w g before with
  | zero => simp [pieces] at h
  | succ n ih =>
      cases s with
      | nil => simp [pieces] at h
      | cons c s =>
          obtain ⟨first, rest, w', hround, heq⟩ := t.pieces_cons n c s w
          have hlen : rest.length ≤ n := by
            have := hround.length_lt
            rw [List.length_cons] at this hn
            omega
          rw [heq] at h
          cases before with
          | nil =>
              obtain ⟨rfl, rfl⟩ := List.cons.inj h
              rcases hround.kind with ⟨hcopy, -⟩ | hcall
              · exact .inl hcopy
              · refine .inr ⟨(hready c rfl).outside, w, ?_⟩
                rwa [t.pieces_source hlen]
          | cons x before =>
              obtain ⟨hfirst, hrest⟩ := List.cons.inj h
              rw [← hfirst]
              exact ih hlen (hround.ready g hready) hrest

end MacroTable

/-- A text that names no macro outside of literals and comments is left as it is. Of every text
the macro calls are replaced and the rest is copied, and each call begins outside of the
literals and comments that the text behind the call before it has. -/
theorem replace_verbatim {W : Type} (t : MacroTable W)
    (hplace : ∀ id rest w, t.place id rest w ≠ none → id = lit "__LINE__" ∨ id = lit "__FILE__")
    (s : List Byte) (w : W) :
    ((∀ id, Mentions s id →
        id ≠ lit "defined" ∧ id ≠ lit "__LINE__" ∧ id ≠ lit "__FILE__" ∧ t.findMacro id w = none) →
      (t.replace s w).1 = s) ∧
    (t.replacePieces s w).1.flatMap Piece.source = s ∧
    (t.replace s w).1 = (t.replacePieces s w).1.flatMap Piece.put ∧
    ∀ before piece behind, (t.replacePieces s w).1 = before ++ piece :: behind →
      (∃ text, piece = .copy text) ∨
        (before.foldl overPiece .plain).outside = true ∧ ∃ w', t.CallText piece (behind.flatMap Piece.source) w' := by
  refine ⟨fun hnone => ?_, t.replacePieces_source s w, rfl, fun before piece behind h => ?_⟩
  · refine t.pieces_copied (u := []) le_rfl (ready_plain s) ?_
    intro id r rest hid hcalls
    obtain ⟨hdefined, hline, hfile, hfind⟩ := hnone id hid
    rcases hcalls with ⟨h, -⟩ | ⟨h, -⟩ | ⟨h, -⟩
    · exact hdefined h
    · exact (hplace id rest w h).elim hline hfile
    · rw [hfind] at h
      cases h
  · exact t.pieces_calls le_rfl (ready_plain s) h

theorem Mentions.isInfix {s id : List Byte} (h : Mentions s id) : id <:+: s := by
  obtain ⟨u, v, c, cs, -, rfl, -⟩ := h
  exact ⟨u, v, rfl⟩

/-- A preprocessor with the macro `f(x)` that stands for nothing, and the macro `L` that stands
for `2`. -/
def twoMacros : MacroTable Unit where
  findMacro id _ := if id = lit "f" then some true else if id = lit "L" then some false else none
  expandMacro id args w :=
    (some (if id = lit "L" then lit "2" else if args.isSome then [] else id), w)
  place _ _ _ := none
  expr _ w := ({ val := 0, e := false, msg := none }, w)
  define _ _ w := (none, w)
  checkppId _ := true
  includeAll _ := false
  quiet _ _ _ w := w

theorem replace_verbatim_plain :
    (twoMacros.replace (lit "x = \"a\"; // b") ()).1 = lit "x = \"a\"; // b" := by
  refine (replace_verbatim twoMacros (fun _ _ _ h => absurd rfl h) _ ()).1 fun id hid => ?_
  have hnot {c : Byte} {cs : List Byte} (hc : c ∉ lit "x = \"a\"; // b") : id ≠ c :: cs := by
    rintro rfl
    exact hc (hid.isInfix.subset (List.mem_cons_self ..))
  have hf : id ≠ lit "f" := hnot (by decide)
  have hL : id ≠ lit "L" := hnot (by decide)
  exact ⟨hnot (by decide), hnot (by decide), hnot (by decide), (if_neg hf).trans (if_neg hL)⟩

/-- The text is inside of one literal or comment. -/
def Shielded (u l : List Byte) : Prop := ∀ v, v <+: l → (after (u ++ v)).outside = false

/-- A literal in an argument goes where the macro puts the argument, and a letter behind a digit
begins a word. -/
theorem replace_not_verbatim :
    (¬ ∀ u l v, lit "f(\"a\")" = u ++ l ++ v → Shielded u l → l <:+: (twoMacros.replace (lit "f(\"a\")") ()).1) ∧
      (twoMacros.replace (lit "1L") ()).1 ≠ lit "1L" := by
  refine ⟨fun h => ?_, by decide +kernel⟩
  have hshielded : Shielded (lit "f(\"") (lit "a") := by
    intro v hv
    rw [← List.mem_inits] at hv
    revert v
    decide +kernel
  have hout := h (lit "f(\"") (lit "a") (lit "\")") (by decide) hshielded
  revert hout
  decide +kernel

end Swig.Preprocessor
