import Swig.Preprocessor.FindArgs
import Swig.Preprocessor.Verbatim

/-!
A text with a newline put behind it: what `Preprocessor_replace` makes of the end of
the text, where a second copy of its case for identifiers takes over.
-/

namespace Swig.Preprocessor

/-! ### The readers -/

/-- A reader stops in front of the end, whatever is there, or it reads what is put behind. -/
def Extends (read : List Byte → List Byte × List Byte) (s : List Byte) : Prop :=
  read (s ++ [chr '\n']) = ((read s).1, (read s).2 ++ [chr '\n']) ∨
    (read s).2 = [] ∧ read (s ++ [chr '\n']) = ((read s).1 ++ [chr '\n'], [])

/-- Behind what was read whatever follows, with the reader that goes on there. -/
theorem Extends.behind {read read' : List Byte → List Byte × List Byte} {x s : List Byte}
    (h : ∀ s, read' (x ++ s) = (x ++ (read s).1, (read s).2)) (hs : Extends read s) : Extends read' (x ++ s) := by
  rw [Extends, List.append_assoc, h, h]
  rcases hs with hs | ⟨hrest, hs⟩
  · exact .inl (by rw [hs])
  · exact .inr ⟨hrest, by rw [hs, List.append_assoc]⟩

/-- The reader stops behind `x`. -/
theorem extends_of_stop {read : List Byte → List Byte × List Byte} {x : List Byte}
    (h : ∀ s, read (x ++ s) = (x, s)) (s : List Byte) : Extends read (x ++ s) :=
  .inl (by rw [List.append_assoc, h, h])

theorem skipTochar_extends {q : Byte} (hq : q ≠ chr '\n') (s : List Byte) : Extends (skipTochar q) s := by
  have hother {c : Byte} (hc : c ≠ q) (hesc : c ≠ chr '\\') (s : List Byte) :
      skipTochar q ([c] ++ s) = ([c] ++ (skipTochar q s).1, (skipTochar q s).2) := by
    rw [List.singleton_append, skipTochar.eq_def]
    dsimp only
    rw [if_neg hc, if_neg hesc]
    rfl
  have hescape (hc : chr '\\' ≠ q) (d : Byte) (s : List Byte) :
      skipTochar q ([chr '\\', d] ++ s) = ([chr '\\', d] ++ (skipTochar q s).1, (skipTochar q s).2) := by
    rw [List.cons_append, List.singleton_append, skipTochar.eq_def]
    dsimp only
    rw [if_neg hc, if_pos rfl]
    rfl
  have hclose (s : List Byte) : skipTochar q ([q] ++ s) = ([q], s) := by
    rw [List.singleton_append, skipTochar.eq_def]
    exact if_pos rfl
  have hnil : skipTochar q [] = ([], []) := by rw [skipTochar]
  fun_induction skipTochar q s with
  | case1 =>
      refine .inr ⟨by rw [hnil], ?_⟩
      rw [List.nil_append, ← List.append_nil [chr '\n'], hother hq.symm (by decide), hnil]
      rfl
  | case2 s => exact extends_of_stop hclose s
  | case3 h =>
      have hlone : skipTochar q [chr '\\'] = ([chr '\\'], []) := by
        rw [skipTochar.eq_def]
        dsimp only
        rw [if_neg h, if_pos rfl]
      refine .inr ⟨by rw [hlone], ?_⟩
      have hnewline := hescape h (chr '\n') []
      rw [hnil] at hnewline
      rw [hlone]
      exact hnewline
  | case4 d s h ih => exact Extends.behind (hescape h d) ih
  | case5 c s h h' ih => exact Extends.behind (hother h h') ih

theorem skipLine_extends (s : List Byte) : Extends skipLine s := by
  fun_induction skipLine s with
  | case1 => exact .inr ⟨rfl, rfl⟩
  | case2 s => exact .inl rfl
  | case3 c s h ih =>
      refine Extends.behind (x := [c]) (fun s => ?_) ih
      rw [List.singleton_append, skipLine, if_neg h]
      rfl

theorem skipBlock_extends (star : Bool) (s : List Byte) : Extends (skipBlock star) s := by
  fun_induction skipBlock star s with
  | case1 star => cases star <;> exact .inr ⟨rfl, rfl⟩
  | case2 star c s h =>
      refine extends_of_stop (x := [c]) (fun s => ?_) s
      rw [List.singleton_append, skipBlock, if_pos h]
  | case3 star c s h ih =>
      refine Extends.behind (x := [c]) (fun s => ?_) ih
      rw [List.singleton_append, skipBlock, if_neg h]
      rfl

theorem skipComment_extends (s : List Byte) : Extends skipComment s := by
  cases s with
  | nil => exact .inl rfl
  | cons c s =>
      by_cases hline : c = chr '/'
      · refine Extends.behind (x := [c]) (fun s => ?_) (skipLine_extends s)
        rw [List.singleton_append, skipComment, if_pos hline]
        rfl
      by_cases hblock : c = chr '*'
      · refine Extends.behind (x := [c]) (fun s => ?_) (skipBlock_extends false s)
        rw [List.singleton_append, skipComment, if_neg hline, if_pos hblock]
        rfl
      have hnone (s : List Byte) : skipComment (c :: s) = ([], c :: s) := by
        rw [skipComment, if_neg hline, if_neg hblock]
      exact .inl (by rw [List.cons_append, hnone, hnone]; rfl)

/-! ### Argument lists -/

/-- The argument list that is read ends in the text; `level` parentheses are open in an argument,
and `n` bounds the rounds. -/
def closes : ℕ → ℕ → List Byte → Bool
  | 0, _, _ => false
  | _ + 1, _, [] => false
  | n + 1, level, c :: s =>
      if c = chr '"' ∨ c = chr '\'' then closes n level (skipTochar c s).2
      else if c = chr ',' ∧ level = 0 then closes n 0 (s.dropWhile isspace)
      else if c = chr ')' ∧ level = 0 then true
      else closes n (if c = chr '(' then level + 1 else if c = chr ')' then level - 1 else level) s

/-- The text begins with an argument list that has its closing parenthesis. -/
def ClosedArgs (s : List Byte) : Bool :=
  match s.dropWhile isspace with
  | [] => false
  | c :: s => c == chr '(' && closes (s.length + 1) 0 (s.dropWhile isspace)

variable {n level : ℕ} {str s : List Byte} {args : List (List Byte)}

theorem dropWhile_newline (s : List Byte) : (s ++ [chr '\n']).dropWhile isspace =
    if s.dropWhile isspace = [] then [] else s.dropWhile isspace ++ [chr '\n'] := by
  induction s with
  | nil => rfl
  | cons c s ih =>
      rw [List.cons_append, List.dropWhile_cons, List.dropWhile_cons]
      by_cases hc : isspace c
      · rw [if_pos hc, if_pos hc, ih]
      · rw [if_neg hc, if_neg hc, if_neg (List.cons_ne_nil c s)]
        rfl

theorem word_newline (s : List Byte) : (s ++ [chr '\n']).takeWhile isidchar = s.takeWhile isidchar ∧
    (s ++ [chr '\n']).dropWhile isidchar = s.dropWhile isidchar ++ [chr '\n'] := by
  induction s with
  | nil => exact ⟨rfl, rfl⟩
  | cons c s ih =>
      rw [List.cons_append, List.takeWhile_cons, List.takeWhile_cons, List.dropWhile_cons, List.dropWhile_cons]
      by_cases hc : isidchar c
      · rw [if_pos hc, if_pos hc, if_pos hc, if_pos hc, ih.1, ih.2]
        exact ⟨rfl, rfl⟩
      · rw [if_neg hc, if_neg hc, if_neg hc, if_neg hc]
        exact ⟨rfl, rfl⟩

theorem closes_nil (n level : ℕ) : closes n level [] = false := by cases n <;> rfl

/-- Behind an argument list that is closed the newline is left, behind another nothing. -/
def LeavesNewline (found found' : List (List Byte) × List Byte) : Bool → Prop
  | true => found' = (found.1, found.2 ++ [chr '\n'])
  | false => found.2 = [] ∧ found'.2 = []

theorem argsFrom_newline (hn : s.length < n) :
    LeavesNewline (argsFrom level str args s) (argsFrom level str args (s ++ [chr '\n'])) (closes n level s) := by
  induction n generalizing level str args s with
  | zero => exact absurd hn (Nat.not_lt_zero _)
  | succ n ih =>
      cases s with
      | nil =>
          refine ⟨rfl, ?_⟩
          rw [List.nil_append, argsFrom_other (by decide) (fun h => absurd h.1 (by decide))
            fun h => absurd h.1 (by decide)]
          rfl
      | cons c s =>
          have hlen : s.length < n := Nat.lt_of_succ_lt_succ hn
          rw [List.cons_append, closes]
          by_cases hquote : c = chr '"' ∨ c = chr '\''
          · rw [if_pos hquote, argsFrom_quote hquote, argsFrom_quote hquote]
            have hc : c ≠ chr '\n' := by rcases hquote with rfl | rfl <;> decide
            rcases skipTochar_extends hc s with hskip | ⟨hrest, hskip⟩
            · rw [hskip]
              exact ih (lt_of_le_of_lt (length_skipTochar_le c s) hlen)
            · rw [hskip, hrest, closes_nil]
              exact ⟨rfl, rfl⟩
          rw [if_neg hquote]
          by_cases hcomma : c = chr ',' ∧ level = 0
          · obtain ⟨rfl, rfl⟩ := hcomma
            rw [if_pos ⟨rfl, rfl⟩, argsFrom_comma (List.append_ne_nil_of_right_ne_nil _ (List.cons_ne_nil _ _)),
              dropWhile_newline]
            by_cases hblank : s.dropWhile isspace = []
            · rw [if_pos hblank, hblank, closes_nil]
              by_cases hs : s = []
              · rw [hs]
                exact ⟨rfl, rfl⟩
              · rw [argsFrom_comma hs, hblank]
                exact ⟨rfl, rfl⟩
            · have hs : s ≠ [] := by
                rintro rfl
                exact hblank rfl
              rw [if_neg hblank, argsFrom_comma hs]
              exact ih (lt_of_le_of_lt (List.dropWhile_suffix isspace).length_le hlen)
          rw [if_neg hcomma]
          by_cases hclose : c = chr ')' ∧ level = 0
          · obtain ⟨rfl, rfl⟩ := hclose
            rw [if_pos ⟨rfl, rfl⟩, argsFrom_close, argsFrom_close]
            rfl
          rw [if_neg hclose, argsFrom_other hquote hcomma hclose, argsFrom_other hquote hcomma hclose]
          exact ih hlen

theorem findArgs_eq_argsFrom {u : List Byte} (hu : s.dropWhile isspace = chr '(' :: u) :
    findArgs s = some (argsFrom 0 [] [] (u.dropWhile isspace)) := by
  rw [findArgs, hu]
  dsimp only
  rw [if_neg (not_not.mpr rfl)]
  by_cases hnil : u = []
  · rw [if_pos hnil, hnil]
    rfl
  · rw [if_neg hnil, argLoop_eq (Nat.lt_succ_of_le (List.dropWhile_suffix isspace).length_le)]

theorem findArgs_newline_none (h : findArgs s = none) : findArgs (s ++ [chr '\n']) = none := by
  rw [findArgs, dropWhile_newline]
  cases hs : s.dropWhile isspace with
  | nil => rfl
  | cons c u =>
      have hc : c ≠ chr '(' := by
        rintro rfl
        rw [findArgs_eq_argsFrom hs] at h
        cases h
      rw [if_neg (List.cons_ne_nil c u)]
      exact if_pos hc

theorem findArgs_newline {rest : List Byte} (h : findArgs s = some (args, rest)) :
    ∃ found, findArgs (s ++ [chr '\n']) = some found ∧ LeavesNewline (args, rest) found (ClosedArgs s) := by
  rw [ClosedArgs]
  cases hs : s.dropWhile isspace with
  | nil =>
      rw [findArgs, hs] at h
      cases h
  | cons c u =>
      by_cases hc : c = chr '('
      · rw [hc] at hs ⊢
        have hs' : (s ++ [chr '\n']).dropWhile isspace = chr '(' :: (u ++ [chr '\n']) := by
          rw [dropWhile_newline, hs, if_neg (List.cons_ne_nil _ _), List.cons_append]
        rw [findArgs_eq_argsFrom hs] at h
        rw [findArgs_eq_argsFrom hs', dropWhile_newline]
        refine ⟨_, rfl, ?_⟩
        rw [← Option.some.inj h]
        dsimp only
        rw [beq_self_eq_true, Bool.true_and]
        by_cases hblank : u.dropWhile isspace = []
        · rw [if_pos hblank, hblank, closes_nil]
          exact ⟨rfl, rfl⟩
        · rw [if_neg hblank]
          exact argsFrom_newline (Nat.lt_succ_of_le (List.dropWhile_suffix isspace).length_le)
      · rw [findArgs, hs] at h
        dsimp only at h
        rw [if_pos hc] at h
        cases h

/-! ### The condition -/

namespace MacroTable

variable {W : Type} (t : MacroTable W)

/-- The table while the same text is read with a newline behind it. -/
def withNewline : MacroTable W := { t with place := fun id rest w => t.place id rest.dropLast w }

/-- The expansion of the call of `id` in front of `s`. -/
def callText (id s : List Byte) (w : W) : List Byte :=
  (t.expandMacro id (((findArgs s).map (·.1)).filter (· ≠ [])) w).1.getD []

/-- What the identifier at the end stands for is the same in both copies of its case. -/
def LastSafe (id : List Byte) (w : W) : Prop :=
  id ≠ lit "defined" ∧ ∀ text ∈ t.place id [] w, text = (t.lastPiece id w).1.put

/-- What is read behind an identifier ends in front of the end of the text. A call whose
arguments are not closed is safe by chance, if its expansion gets the newline. -/
def CallSafe (id s : List Byte) (w : W) : Prop :=
  if id = lit "defined" then
    s.dropWhile isspace ≠ [] ∧ ((s.dropWhile isspace).head? = some (chr '(') → ClosedArgs s)
  else
    t.place id s w = none → t.findMacro id w = some true → findArgs s ≠ none →
      ClosedArgs s ∨ t.callText id (s ++ [chr '\n']) w = t.callText id s w ++ [chr '\n']

/-- Every identifier of the text is safe, in the walk of `pieces`. -/
def EndSafe : ℕ → List Byte → W → Prop
  | 0, _, _ => True
  | _ + 1, [], _ => True
  | n + 1, c :: s, w =>
      if isidentifier c || c == chr '%' then
        let id := c :: s.takeWhile isidchar
        match s.dropWhile isidchar with
        | [] => t.LastSafe id w
        | d :: s =>
            t.CallSafe id (d :: s) w ∧
              EndSafe n (t.identifierPiece id (d :: s) w).2.1 (t.identifierPiece id (d :: s) w).2.2
      else if c = chr '"' ∨ c = chr '\'' then EndSafe n (skipTochar c s).2 w
      else if c = chr '/' then EndSafe n (skipComment s).2 w
      else EndSafe n s w

variable {t} {id : List Byte} {w : W}

/-! ### Behind an identifier -/

/-- What is read behind an identifier, without and with the newline: both go on in front of it,
or there is only a blank left, or nothing. -/
def Continues (t : MacroTable W) (id s : List Byte) (w : W) (r r' : Piece × List Byte × W) : Prop :=
  (t.CallSafe id s w ∧ r'.1.put = r.1.put ∧ r'.2 = (r.2.1 ++ [chr '\n'], r.2.2)) ∨
    (¬t.CallSafe id s w ∧ r'.1.put = r.1.put ∧ r'.2.1 = [chr '\n'] ∧ ∃ b, isspace b ∧ r.2.1 = [b]) ∨
    (r.2.1 = [] ∧ r'.2.1 = [] ∧ (t.CallSafe id s w ↔ r'.1.put = r.1.put ++ [chr '\n']))

/-- What stands for `defined` with the arguments. -/
def definedPut (t : MacroTable W) (id : List Byte) (args : List (List Byte)) (w : W) : List Byte :=
  if args = [] then id else lit (if args.all fun o => (t.findMacro o w).isSome then "1" else "0")

theorem definedPiece_parens (t : MacroTable W) (id : List Byte) (w : W) {u rest : List Byte}
    {args : List (List Byte)} (h : s.dropWhile isspace = chr '(' :: u) (hfound : findArgs s = some (args, rest)) :
    (t.definedPiece id s w).1.put = t.definedPut id args w ∧ (t.definedPiece id s w).2 = rest := by
  have hdrop : findArgs (chr '(' :: u) = some (args, rest) := by rw [← h, findArgs_dropWhile, hfound]
  rw [definedPiece, h]
  dsimp only
  rw [if_pos rfl, hdrop]
  dsimp only
  rw [definedPut]
  split
  · exact ⟨rfl, rfl⟩
  · exact ⟨rfl, rfl⟩

theorem definedPiece_word (t : MacroTable W) (id : List Byte) (w : W) {c : Byte} {u : List Byte}
    (h : s.dropWhile isspace = c :: u) (hc : c ≠ chr '(') (hword : isidchar c = true) :
    (t.definedPiece id s w).1.put = t.definedPut id [(c :: u).takeWhile isidchar] w ∧
      (t.definedPiece id s w).2 = (c :: u).dropWhile isidchar := by
  have hfound : definedWord (c :: u) = some ([(c :: u).takeWhile isidchar], (c :: u).dropWhile isidchar) := by
    rw [definedWord, List.takeWhile_cons, hword]
    rfl
  rw [definedPiece, h]
  dsimp only
  rw [if_neg hc, hfound]
  exact ⟨rfl, rfl⟩

theorem definedPiece_blank (h : s.dropWhile isspace = []) :
    t.definedPiece id s w = (.notCall id s.dropLast, s.drop (s.length - 1)) := by
  rw [definedPiece, h]
  exact if_pos rfl

/-- Where no word is behind it, `defined` is left alone. -/
theorem definedPiece_alone {c : Byte} {u : List Byte} (h : s.dropWhile isspace = c :: u) (hc : c ≠ chr '(')
    (hword : isidchar c = false) : t.definedPiece id s w = (.notCall id (readOf s (c :: u)), c :: u) := by
  have hnone : definedWord (c :: u) = none := by
    rw [definedWord, List.takeWhile_cons, hword]
    rfl
  rw [definedPiece, h]
  dsimp only
  rw [if_neg hc, hnone]
  exact if_neg (List.cons_ne_nil c u)

theorem definedPut_ne (t : MacroTable W) (args : List (List Byte)) (w : W) (put : List Byte) :
    t.definedPut (lit "defined") args w ≠ put ++ [chr '\n'] := by
  intro h
  have hlast := congrArg List.getLast? h
  rw [List.getLast?_concat, definedPut] at hlast
  revert hlast
  split
  · decide
  · split <;> decide

theorem definedPiece_newline (t : MacroTable W) {s : List Byte} (hs : s ≠ []) (w : W) :
    Continues t (lit "defined") s w ((t.definedPiece (lit "defined") s w).1, (t.definedPiece (lit "defined") s w).2, w)
      ((t.withNewline.definedPiece (lit "defined") (s ++ [chr '\n']) w).1,
        (t.withNewline.definedPiece (lit "defined") (s ++ [chr '\n']) w).2, w) := by
  have hdrop := dropWhile_newline s
  cases hblank : s.dropWhile isspace with
  | nil =>
      rw [hblank, if_pos rfl] at hdrop
      have hsafe : ¬t.CallSafe (lit "defined") s w := by
        rw [CallSafe, if_pos rfl]
        exact fun h => h.1 hblank
      have hall := List.dropWhile_eq_nil_iff.mp hblank
      rw [definedPiece_blank hblank, definedPiece_blank hdrop]
      refine .inr (.inl ⟨hsafe, rfl, ?_, s.getLast hs, hall _ (List.getLast_mem hs), ?_⟩)
      · rw [List.length_append, List.length_singleton, Nat.add_sub_cancel, List.drop_left]
      · exact List.drop_length_sub_one hs
  | cons c u =>
      rw [hblank, if_neg (List.cons_ne_nil c u), List.cons_append] at hdrop
      by_cases hparen : c = chr '('
      · rw [hparen] at hblank hdrop
        obtain ⟨⟨args, rest⟩, hfound⟩ : ∃ found, findArgs s = some found :=
          ⟨_, findArgs_eq_argsFrom hblank⟩
        obtain ⟨⟨args', rest'⟩, hfound', hleaves⟩ := findArgs_newline hfound
        obtain ⟨hput, hrest⟩ := t.definedPiece_parens (lit "defined") w hblank hfound
        obtain ⟨hput', hrest'⟩ := t.withNewline.definedPiece_parens (lit "defined") w hdrop hfound'
        rw [Continues]
        dsimp only
        rw [hput, hput', hrest, hrest']
        cases hclosed : ClosedArgs s with
        | true =>
            rw [hclosed] at hleaves
            cases hleaves
            refine .inl ⟨?_, rfl, rfl⟩
            rw [CallSafe, if_pos rfl, hblank]
            exact ⟨List.cons_ne_nil _ _, fun _ => hclosed⟩
        | false =>
            rw [hclosed] at hleaves
            refine .inr (.inr ⟨hleaves.1, hleaves.2, iff_of_false ?_ (definedPut_ne t.withNewline args' w _)⟩)
            rw [CallSafe, if_pos rfl, hblank, hclosed]
            exact fun h => absurd (h.2 rfl) (by decide)
      · have hsafe : t.CallSafe (lit "defined") s w := by
          rw [CallSafe, if_pos rfl, hblank]
          exact ⟨List.cons_ne_nil _ _, fun h => absurd (Option.some.inj h) hparen⟩
        refine .inl ⟨hsafe, ?_⟩
        cases hword : isidchar c with
        | true =>
            obtain ⟨hput, hrest⟩ := t.definedPiece_word (lit "defined") w hblank hparen hword
            obtain ⟨hput', hrest'⟩ := t.withNewline.definedPiece_word (lit "defined") w hdrop hparen hword
            obtain ⟨htake, hskip⟩ := word_newline (c :: u)
            rw [List.cons_append] at htake hskip
            rw [htake] at hput'
            rw [hskip] at hrest'
            dsimp only
            rw [hput, hput', hrest, hrest']
            exact ⟨rfl, rfl⟩
        | false =>
            rw [definedPiece_alone hblank hparen hword, definedPiece_alone hdrop hparen hword]
            exact ⟨rfl, rfl⟩

/-- The call of a macro, with the arguments that were found behind its name. -/
theorem identifierPiece_macro {hasArgs : Bool} {found : Option (List (List Byte) × List Byte)}
    (hdefined : id ≠ lit "defined") (hplace : t.place id s w = none) ( hmacro : t.findMacro id w = some hasArgs)
    (hfound : (if hasArgs then findArgs s else none) = found) :
    (t.identifierPiece id s w).1.put = (t.expandMacro id ((found.map (·.1)).filter (· ≠ [])) w).1.getD [] ∧
      (t.identifierPiece id s w).2 =
        ((found.map (·.2)).getD s, (t.expandMacro id ((found.map (·.1)).filter (· ≠ [])) w).2) := by
  rw [identifierPiece, if_neg hdefined, hplace, hmacro, ← hfound]
  exact ⟨rfl, rfl⟩

theorem identifierPiece_newline (t : MacroTable W) (id : List Byte) {s : List Byte} (hs : s ≠ []) (w : W) :
    Continues t id s w (t.identifierPiece id s w) (t.withNewline.identifierPiece id (s ++ [chr '\n']) w) := by
  by_cases hdefined : id = lit "defined"
  · rw [hdefined, identifierPiece, if_pos rfl, identifierPiece, if_pos rfl]
    exact definedPiece_newline t hs w
  have hplace : t.withNewline.place id (s ++ [chr '\n']) w = t.place id s w := by
    rw [withNewline]
    dsimp only
    rw [List.dropLast_concat]
  cases htext : t.place id s w with
  | some text =>
      rw [identifierPiece, if_neg hdefined, identifierPiece, if_neg hdefined, hplace, htext]
      refine .inl ⟨?_, rfl, rfl⟩
      rw [CallSafe, if_neg hdefined, htext]
      exact fun h => absurd h (Option.some_ne_none text)
  | none =>
      rw [htext] at hplace
      have hfind : t.withNewline.findMacro id w = t.findMacro id w := rfl
      cases hmacro : t.findMacro id w with
      | none =>
          rw [identifierPiece, if_neg hdefined, identifierPiece, if_neg hdefined, hplace, htext, hfind, hmacro]
          refine .inl ⟨?_, rfl, rfl⟩
          rw [CallSafe, if_neg hdefined, hmacro]
          exact fun _ h => absurd h.symm (Option.some_ne_none true)
      | some hasArgs =>
          rw [ hmacro] at hfind
          cases hfound : (if hasArgs then findArgs s else none) with
          | none =>
              have hfound' : (if hasArgs then findArgs (s ++ [chr '\n']) else none) = none := by
                cases hasArgs with
                | false => rfl
                | true => exact findArgs_newline_none hfound
              obtain ⟨hput, hrest⟩ := identifierPiece_macro hdefined htext hmacro hfound
              obtain ⟨hput', hrest'⟩ := identifierPiece_macro hdefined hplace hfind hfound'
              refine .inl ⟨?_, by rw [hput, hput']; rfl, by rw [hrest, hrest']; rfl⟩
              rw [CallSafe, if_neg hdefined]
              intro _ hargs hsome
              rw [ hmacro] at hargs
              cases hargs
              exact absurd hfound hsome
          | some found =>
              obtain ⟨args, rest⟩ := found
              have hargs : hasArgs = true := by
                cases hasArgs with
                | false => cases hfound
                | true => rfl
              rw [hargs] at hmacro hfind
              rw [hargs, if_pos rfl] at hfound
              obtain ⟨⟨args', rest'⟩, hfound', hleaves⟩ := findArgs_newline hfound
              obtain ⟨hput, hrest⟩ := identifierPiece_macro hdefined htext hmacro (if_pos rfl)
              obtain ⟨hput', hrest'⟩ := identifierPiece_macro hdefined hplace hfind (if_pos rfl)
              have hsafe : t.CallSafe id s w ↔
                  ClosedArgs s ∨ t.callText id (s ++ [chr '\n']) w = t.callText id s w ++ [chr '\n'] := by
                rw [CallSafe, if_neg hdefined, hmacro, htext, hfound]
                simp
              rw [Continues, hsafe, hput, hput', hrest, hrest', hfound, hfound']
              cases hclosed : ClosedArgs s with
              | true =>
                  rw [hclosed] at hleaves
                  cases hleaves
                  exact .inl ⟨.inl rfl, rfl, rfl⟩
              | false =>
                  rw [hclosed] at hleaves
                  refine .inr (.inr ⟨hleaves.1, hleaves.2, ?_⟩)
                  rw [callText, callText, hfound, hfound']
                  exact or_iff_right (by decide)

/-! ### The walk -/

/-- What the pieces put. -/
def put (t : MacroTable W) (n : ℕ) (s : List Byte) (w : W) : List Byte := (t.pieces n s w).1.flatMap Piece.put

theorem put_nil (t : MacroTable W) (n : ℕ) (w : W) : t.put n [] w = [] := by
  cases n <;> rfl

theorem put_word {c : Byte} {u : List Byte} (hc : (isidentifier c || c == chr '%') = true) (n : ℕ) (w : W) :
    t.put (n + 1) (c :: u) w =
      match u.dropWhile isidchar with
      | [] => (t.lastPiece (c :: u.takeWhile isidchar) w).1.put
      | d :: v =>
          (t.identifierPiece (c :: u.takeWhile isidchar) (d :: v) w).1.put ++
            t.put n (t.identifierPiece (c :: u.takeWhile isidchar) (d :: v) w).2.1
              (t.identifierPiece (c :: u.takeWhile isidchar) (d :: v) w).2.2 := by
  rw [put, pieces, if_pos hc]
  dsimp only
  cases u.dropWhile isidchar with
  | nil => exact List.flatMap_singleton ..
  | cons d v => rfl

theorem put_quote {c : Byte} {u : List Byte} (hword : (isidentifier c || c == chr '%') = false)
    (hc : c = chr '"' ∨ c = chr '\'') (n : ℕ) (w : W) :
    t.put (n + 1) (c :: u) w = c :: (skipTochar c u).1 ++ t.put n (skipTochar c u).2 w := by
  rw [put, pieces, if_neg (by rw [hword]; decide), if_pos hc]
  rfl

theorem put_slash {u : List Byte} (n : ℕ) (w : W) :
    t.put (n + 1) (chr '/' :: u) w = chr '/' :: (skipComment u).1 ++ t.put n (skipComment u).2 w := by
  rw [put, pieces, if_neg (by decide), if_neg (by decide), if_pos rfl]
  rfl

theorem put_other {c : Byte} {u : List Byte} (hword : (isidentifier c || c == chr '%') = false)
    (hquote : ¬(c = chr '"' ∨ c = chr '\'')) (hslash : c ≠ chr '/') (n : ℕ) (w : W) :
    t.put (n + 1) (c :: u) w = c :: t.put n u w := by
  rw [put, pieces, if_neg (by rw [hword]; decide), if_neg hquote, if_neg hslash]
  rfl

theorem put_blank {c : Byte} (hc : isspace c) (n : ℕ) (w : W) : t.put (n + 1) [c] w = [c] := by
  have hall : ∀ c : Byte, isspace c = true →
      (isidentifier c || c == chr '%') = false ∧ ¬(c = chr '"' ∨ c = chr '\'') ∧ c ≠ chr '/' := by
    decide +kernel
  obtain ⟨hword, hquote, hslash⟩ := hall c hc
  rw [put_other hword hquote hslash, put_nil]

/-- A reader of a literal or a comment, and what is put behind it. -/
theorem put_extends {read : List Byte → List Byte × List Byte} {s : List Byte} (h : Extends read s) {n : ℕ} {w : W}
    {p : Prop} (hnil : (read s).2 = [] → p)
    (hrest : t.withNewline.put (n + 1) ((read s).2 ++ [chr '\n']) w = t.put n (read s).2 w ++ [chr '\n'] ↔ p)
    (c : Byte) :
    c :: (read (s ++ [chr '\n'])).1 ++ t.withNewline.put (n + 1) (read (s ++ [chr '\n'])).2 w =
      c :: (read s).1 ++ t.put n (read s).2 w ++ [chr '\n'] ↔ p := by
  rcases h with h | ⟨hend, h⟩
  · rw [h, List.append_assoc (c :: (read s).1)]
    exact (List.append_right_inj _).trans hrest
  · refine iff_of_true ?_ (hnil hend)
    rw [h, hend, put_nil, put_nil, List.append_nil, List.append_nil, List.cons_append]

theorem endSafe_nil (t : MacroTable W) (n : ℕ) (w : W) : t.EndSafe n [] w := by
  cases n <;> trivial

/-- The identifier at the end, in both copies of its case. -/
theorem lastPiece_newline (t : MacroTable W) (hid : id ≠ []) (n : ℕ) (w : W) :
    (t.withNewline.identifierPiece id [chr '\n'] w).1.put ++
        t.withNewline.put (n + 1) (t.withNewline.identifierPiece id [chr '\n'] w).2.1
          (t.withNewline.identifierPiece id [chr '\n'] w).2.2 =
      (t.lastPiece id w).1.put ++ [chr '\n'] ↔ t.LastSafe id w := by
  have hnewline (w : W) : t.withNewline.put (n + 1) [chr '\n'] w = [chr '\n'] := put_blank (by decide) n w
  by_cases hdefined : id = lit "defined"
  · have hblank : [chr '\n'].dropWhile isspace = [] := rfl
    have hput : (t.withNewline.identifierPiece id [chr '\n'] w).1.put = id ∧
        (t.withNewline.identifierPiece id [chr '\n'] w).2 = ([chr '\n'], w) := by
      rw [identifierPiece, if_pos hdefined, definedPiece_blank hblank]
      exact ⟨rfl, rfl⟩
    rw [hput.1, hput.2, hnewline, lastPiece, if_pos hdefined]
    exact iff_of_false (fun h => hid (List.append_cancel_right h)) fun h => h.1 hdefined
  have hplace : t.withNewline.place id [chr '\n'] w = t.place id [] w := rfl
  rw [LastSafe]
  cases htext : t.place id [] w with
  | some text =>
      have hput : t.withNewline.identifierPiece id [chr '\n'] w = (.call id text, [chr '\n'], w) := by
        rw [identifierPiece, if_neg hdefined, hplace, htext]
      rw [hput]
      dsimp only
      rw [hnewline, List.append_left_inj]
      exact ⟨fun h => ⟨hdefined, fun _ hmem => Option.some.inj hmem ▸ h⟩, fun h => h.2 text rfl⟩
  | none =>
      refine iff_of_true ?_ ⟨hdefined, fun _ h => by cases h⟩
      have hfind : t.withNewline.findMacro id w = t.findMacro id w := rfl
      rw [htext] at hplace
      cases hmacro : t.findMacro id w with
      | none =>
          rw [ hmacro] at hfind
          rw [identifierPiece, if_neg hdefined, hplace, hfind, lastPiece, if_neg hdefined, hmacro]
          dsimp only
          rw [hnewline, if_neg (by decide)]
      | some hasArgs =>
          rw [ hmacro] at hfind
          have hfound : (if hasArgs then findArgs [chr '\n'] else none) = none := by cases hasArgs <;> rfl
          obtain ⟨hput, hrest⟩ := identifierPiece_macro hdefined hplace hfind hfound
          rw [hput, hrest, lastPiece, if_neg hdefined, hmacro,
            if_pos (show (some hasArgs).isSome from rfl)]
          dsimp only
          rw [Option.map_none, Option.map_none, Option.getD_none, hnewline]
          rfl

/-- An identifier with text behind it, and that text. -/
theorem callPiece_newline (t : MacroTable W) (id : List Byte) {s : List Byte} (hs : s ≠ []) {n : ℕ}
    (hn : s.length ≤ n) (w : W) (ih : ∀ {s : List Byte}, s.length ≤ n → ∀ w,
      (t.withNewline.put (n + 1) (s ++ [chr '\n']) w = t.put n s w ++ [chr '\n'] ↔ t.EndSafe n s w)) :
    (t.withNewline.identifierPiece id (s ++ [chr '\n']) w).1.put ++
        t.withNewline.put (n + 1) (t.withNewline.identifierPiece id (s ++ [chr '\n']) w).2.1
          (t.withNewline.identifierPiece id (s ++ [chr '\n']) w).2.2 =
      (t.identifierPiece id s w).1.put ++ t.put n (t.identifierPiece id s w).2.1 (t.identifierPiece id s w).2.2 ++
        [chr '\n'] ↔
      t.CallSafe id s w ∧ t.EndSafe n (t.identifierPiece id s w).2.1 (t.identifierPiece id s w).2.2 := by
  obtain ⟨r, hr, -⟩ := t.identifierPiece_tiles id s w
  have hle : (t.identifierPiece id s w).2.1.length ≤ n := by
    rw [← hr, List.length_append] at hn
    omega
  rcases t.identifierPiece_newline id hs w with ⟨hsafe, hput, hrest⟩ | ⟨hsafe, hput, hrest, b, hb, hlast⟩ |
    ⟨hlast, hrest, hsafe⟩
  · rw [hput, hrest, List.append_assoc, List.append_right_inj, ih hle]
    exact ⟨fun h => ⟨hsafe, h⟩, And.right⟩
  · rw [hlast] at hle ⊢
    obtain ⟨m, rfl⟩ := Nat.exists_eq_add_one_of_ne_zero (show n ≠ 0 by rw [List.length_singleton] at hle; omega)
    rw [hput, hrest, put_blank (by decide), put_blank hb, List.append_assoc, List.append_right_inj]
    exact iff_of_false (fun h => by cases h) fun h => hsafe h.1
  · rw [hlast, hrest, put_nil, put_nil, List.append_nil, List.append_nil, ← hsafe]
    exact ⟨fun h => ⟨h, t.endSafe_nil n _⟩, And.left⟩

theorem put_newline (t : MacroTable W) {n : ℕ} {s : List Byte} (hn : s.length ≤ n) (w : W) :
    t.withNewline.put (n + 1) (s ++ [chr '\n']) w = t.put n s w ++ [chr '\n'] ↔ t.EndSafe n s w := by
  induction n generalizing s w with
  | zero =>
      rw [List.length_eq_zero_iff.mp (Nat.le_zero.mp hn), put_nil]
      exact iff_of_true (put_blank (by decide) 0 w) trivial
  | succ n ih =>
      cases s with
      | nil =>
          rw [put_nil]
          exact iff_of_true (put_blank (by decide) _ w) trivial
      | cons c u =>
          have hlen : u.length ≤ n := Nat.le_of_succ_le_succ hn
          rw [List.cons_append, EndSafe]
          cases hword : isidentifier c || c == chr '%' with
          | true =>
              obtain ⟨htake, hdrop⟩ := word_newline u
              rw [put_word hword, put_word hword, if_pos rfl, htake, hdrop]
              dsimp only
              cases hrest : u.dropWhile isidchar with
              | nil => exact lastPiece_newline t (List.cons_ne_nil _ _) n w
              | cons d v =>
                  have hle : (d :: v).length ≤ n := by
                    rw [← hrest]
                    exact (List.dropWhile_suffix isidchar).length_le.trans hlen
                  exact callPiece_newline t _ (List.cons_ne_nil d v) hle w fun hrest w => ih hrest w
          | false =>
              have hcopy {read : List Byte → List Byte × List Byte} (h : Extends read u)
                  (hle : (read u).2.length ≤ u.length) :
                  c :: (read (u ++ [chr '\n'])).1 ++ t.withNewline.put (n + 1) (read (u ++ [chr '\n'])).2 w =
                    c :: (read u).1 ++ t.put n (read u).2 w ++ [chr '\n'] ↔ t.EndSafe n (read u).2 w :=
                put_extends h (fun hnil => by rw [hnil]; exact t.endSafe_nil n w) (ih (hle.trans hlen) w) c
              rw [if_neg (by decide)]
              by_cases hquote : c = chr '"' ∨ c = chr '\''
              · have hc : c ≠ chr '\n' := by rcases hquote with rfl | rfl <;> decide
                rw [put_quote hword hquote, put_quote hword hquote, if_pos hquote]
                exact hcopy (skipTochar_extends hc u) (length_skipTochar_le c u)
              rw [if_neg hquote]
              by_cases hslash : c = chr '/'
              · rw [hslash, put_slash, put_slash, if_pos rfl, ← hslash]
                have hle : (skipComment u).2.length ≤ u.length :=
                  (show (skipComment u).2 <:+ u from ⟨_, skipComment_append u⟩).length_le
                exact hcopy (skipComment_extends u) hle
              rw [put_other hword hquote hslash, put_other hword hquote hslash, if_neg hslash, List.cons_append,
                List.cons_inj_right, ih hlen w]

theorem replace_newline_iff (t : MacroTable W) (s : List Byte) (w : W) :
    (t.withNewline.replace (s ++ [chr '\n']) w).1 = (t.replace s w).1 ++ [chr '\n'] ↔ t.EndSafe s.length s w := by
  have hlen : (s ++ [chr '\n']).length = s.length + 1 := List.length_append
  rw [replace, replacePieces, hlen]
  exact t.put_newline le_rfl w

/-- At the end of the text `defined` is dropped. -/
theorem replace_newline_defined :
    (twoMacros.withNewline.replace (lit "defined" ++ [chr '\n']) ()).1 ≠
      (twoMacros.replace (lit "defined") ()).1 ++ [chr '\n'] := by
  decide +kernel

end MacroTable

end Swig.Preprocessor
