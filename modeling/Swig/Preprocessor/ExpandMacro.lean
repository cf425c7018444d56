import Swig.Preprocessor.Define
import Swig.Preprocessor.Parse
import Swig.Errors.FilterText

/-!
`expand_macro` (`cpp.c`): the value of a macro with the arguments put into it, which
`Preprocessor_replace` walks again while the macro is marked as being expanded.
-/

namespace Swig.Preprocessor

open ByteBlock DOH Errors

/-- The macro table, with the marks `kpp_expanded` of its macros. -/
structure World where
  symbols : Symbols
  expanded : List Byte → Bool

namespace World

/-- `Setattr(macro, kpp_expanded, "1")`. -/
def mark (w : World) (id : List Byte) : World := { w with expanded := Function.update w.expanded id true }

/-- `Delattr(macro, kpp_expanded)`. -/
def unmark (w : World) (id : List Byte) : World := { w with expanded := Function.update w.expanded id false }

/-- A mark that was not there before is taken away. -/
theorem unmark_mark {w : World} {id : List Byte} (h : w.expanded id = false) : (w.mark id).unmark id = w := by
  rw [mark, unmark, Function.update_idem, ← h, Function.update_eq_self]

/-- No macro comes from a `%define`. -/
def Plain (w : World) : Prop := ∀ id m, w.symbols.find id = some m → m.swigmacro = false

end World

/-! ### The arguments -/

def quoted (s : List Byte) : List Byte := chr '"' :: (s ++ [chr '"'])

/-- What a macro that is being expanded leaves of its call. -/
def callLeft (name : List Byte) (args : Option (List (List Byte))) : List Byte :=
  match args with
  | none | some [] => name
  | some args => name ++ chr '(' :: ((lit ",").intercalate args ++ [chr ')'])

/-- The extra arguments collected into the last parameter of a macro with `margs` parameters. -/
def collectVarargs (margs : ℕ) (args : List (List Byte)) : List (List Byte) :=
  if margs - 1 ≤ args.length then args.take (margs - 1) ++ [(lit ",").intercalate (args.drop (margs - 1))] else args

/-- The commas and blanks in front of a `\002`, from the last one on, with the commas blank. -/
def blankCommas : List Byte → List Byte
  | [] => []
  | c :: s => if isspace c then c :: blankCommas s else if c = chr ',' then chr ' ' :: blankCommas s else c :: s

/-- The loop for a variadic parameter without arguments, behind `s`; `junk` is the byte behind
the terminator of the buffer. -/
def nukeCommas (junk : Byte) (name : List Byte) : ℕ → List Byte → List Byte → List Byte
  | 0, s, a => s ++ a
  | n + 1, s, a =>
      match indexOf name (a.takeWhile (· != 0)) with
      | none => s ++ a
      | some i =>
          let before := s ++ a.take i
          let behind := a.drop (i + name.length)
          let ca := (behind ++ [0, junk]).getD 1 junk
          let before :=
            if isidchar ca then before
            else
              match before.reverse with
              | 2 :: r => (2 :: blankCommas r).reverse
              | _ => before
          nukeCommas junk name n (before ++ name) behind

/-- One round of the loop over the parameters: the argument `arg`, expanded to `reparg`, is put
for the parameter `aname`. -/
def substituteArg (mangle : List Byte → List Byte) (junk : Byte) (aname arg reparg : List Byte) (nuke : Bool)
    (ns : List Byte) : Option (List Byte) := do
  let str := ns.takeWhile (· != 0)
  let ns ← (if 1 ∈ str then replaceText ns (1 :: aname) (quoted arg) DOH_REPLACE_ID_END else some ns)
  let ns ← (if 2 ∈ ns.takeWhile (· != 0) then do
      let ns ← replaceText ns (2 :: aname) [2, 3] DOH_REPLACE_ID_END
      replaceText ns (aname ++ [2]) [3, 2] DOH_REPLACE_ID_BEGIN
    else some ns)
  let ns ← (if chr '`' ∈ ns.takeWhile (· != 0) then
      replaceText ns (chr '`' :: (aname ++ [chr '`'])) (if arg.head? = some (chr '"') then arg else quoted arg)
        DOH_REPLACE_ANY
    else some ns)
  let ns ← (if 4 ∈ ns.takeWhile (· != 0) then replaceText ns (4 :: aname) (mangle arg) DOH_REPLACE_ID_END
    else some ns)
  let ns ← (if 5 ∈ ns.takeWhile (· != 0) then
      replaceText ns (5 :: aname) (quoted (mangle arg)) DOH_REPLACE_ID_END
    else some ns)
  let ns := if nuke then nukeCommas junk aname (ns.length + 1) [] ns else ns
  let ns ← replaceText ns aname reparg DOH_REPLACE_ID
  replaceText ns [3] arg DOH_REPLACE_ANY

/-- The special tokens that are left. -/
def dropTokens (ns : List Byte) : Option (List Byte) := do
  let ns ← replaceText ns [2] [] DOH_REPLACE_ANY
  let ns ← replaceText ns [1] (lit "#") DOH_REPLACE_ANY
  replaceText ns [4] (lit "#@") DOH_REPLACE_ANY

/-! ### The expansion -/

namespace MacroTable

-- the state is none where the preprocessor has not returned
variable (mangle : List Byte → List Byte) (junk : Byte) (t : MacroTable (Option World))

/-- The loop over the parameters and the arguments. -/
def substituteArgs (isvarargs : Bool) : List (List Byte) → List (List Byte) → List Byte → Option World →
    Option (List Byte) × Option World
  | aname :: margs, arg :: args, ns, w =>
      let (reparg, w) := t.replace arg w
      match substituteArg mangle junk aname arg reparg (isvarargs && margs.isEmpty && arg.isEmpty) ns with
      | none => (none, none)
      | some ns => substituteArgs isvarargs margs args ns w
  | _, _, ns, w => (some ns, w)

/-- The text a `%define` macro is replaced with. -/
def swigmacroText (m : Macro) (name g : List Byte) : List Byte :=
  if chr '\n' ∈ g then
    lit "/*@SWIG:" ++ m.file ++ lit "," ++ decimal m.line ++ lit "," ++ name ++ lit "@*/" ++ g ++ lit "/*@SWIG@*/"
  else g

/-- From the value `ns` with its arguments on. -/
def expandFurther (m : Macro) (name ns : List Byte) (w : World) : Option (List Byte) × Option World :=
  match t.replace ns (some (w.mark name)) with
  | (_, none) => (none, none)
  | (e, some w) =>
      let w := w.unmark name
      if m.swigmacro then
        match t.parse (some w) m.line e with
        | none => (none, none)
        | some p => (some (swigmacroText m name p.ns), p.world)
      else (some e, some w)

/-- `expand_macro`, with the walks of the table inside. -/
def expand (name : List Byte) (args : Option (List (List Byte))) : Option World → Option (List Byte) × Option World
  | none => (none, none)
  | some w =>
      match w.symbols.find name with
      | none => (none, some w)
      | some m =>
          if w.expanded name then (some (callLeft name args), some w)
          else
            let isvarargs := args.isSome && m.varargs
            let args := if isvarargs then args.map (collectVarargs (m.args.getD []).length) else args
            match args, m.args with
            | some args, some margs =>
                if margs.length ≠ args.length then (none, some w)
                else
                  match t.substituteArgs mangle junk isvarargs margs args m.value (some w) with
                  | (some ns, some w) => (dropTokens ns).elim (none, none) fun ns => t.expandFurther m name ns w
                  | _ => (none, none)
            | none, some (_ :: _) => (some name, some w)
            | _, _ => (dropTokens m.value).elim (none, none) fun ns => t.expandFurther m name ns w

/-- The preprocessor with a bound on the depth of its expansions; where that is reached it has
not returned. -/
def ofDepth : ℕ → MacroTable (Option World)
  | 0 => { t with
      findMacro := fun id w => w.bind fun w => (w.symbols.find id).map (·.args.isSome)
      expandMacro := fun _ _ _ => (none, none) }
  | n + 1 => { t with
      findMacro := fun id w => w.bind fun w => (w.symbols.find id).map (·.args.isSome)
      expandMacro := (ofDepth n).expand mangle junk }

/-! ### What the walk does to the state -/

section Closed

variable {W : Type} {t : MacroTable W} {p : W → Prop}

theorem identifierPiece_closed (h : ∀ id args w, p w → p (t.expandMacro id args w).2) (id s : List Byte) {w : W}
    (hw : p w) : p (t.identifierPiece id s w).2.2 := by
  rw [identifierPiece]
  split
  · exact hw
  · split
    · exact hw
    · split
      · exact hw
      · exact h _ _ w hw

theorem lastPiece_closed (h : ∀ id args w, p w → p (t.expandMacro id args w).2) (id : List Byte) {w : W}
    (hw : p w) :
    p (t.lastPiece id w).2 := by
  rw [lastPiece]
  split
  · exact hw
  · split
    · exact h id none w hw
    · exact hw

/-- What every expansion keeps, the walk keeps. -/
theorem pieces_closed (h : ∀ id args w, p w → p (t.expandMacro id args w).2) (n : ℕ) (s : List Byte) {w : W}
    (hw : p w) :
    p (t.pieces n s w).2 := by
  induction n generalizing s w with
  | zero => exact hw
  | succ n ih =>
      cases s with
      | nil => exact hw
      | cons c s =>
          rw [pieces]
          split
          · dsimp only
            cases s.dropWhile isidchar with
            | nil => exact lastPiece_closed h _ hw
            | cons d u => exact ih _ (identifierPiece_closed h _ _ hw)
          · split
            · exact ih _ hw
            · split
              · exact ih _ hw
              · exact ih _ hw

theorem replace_closed (h : ∀ id args w, p w → p (t.expandMacro id args w).2) (s : List Byte) {w : W} (hw : p w) :
    p (t.replace s w).2 := pieces_closed h s.length s hw

end Closed

/-! ### The frame -/

/-- The state is the same afterwards, if there is one. -/
def Keeps (w : World) (w' : Option World) : Prop := w' = none ∨ w' = some w

/-- The walks of the table keep every state without `%define` macros. -/
structure Framed (t : MacroTable (Option World)) : Prop where
  keeps : ∀ w : World, w.Plain → ∀ s, Keeps w (t.replace s (some w)).2
  none : ∀ s, (t.replace s none).2 = none

variable {mangle : List Byte → List Byte} {junk : Byte} {t : MacroTable (Option World)} {w : World}

theorem substituteArgs_keeps (mangle : List Byte → List Byte) (junk : Byte) (ht : t.Framed) (hw : w.Plain)
    (isvarargs : Bool) (margs args : List (List Byte)) (ns : List Byte) {w' : Option World} (hw' : Keeps w w') :
    Keeps w (t.substituteArgs mangle junk isvarargs margs args ns w').2 := by
  induction margs generalizing args ns w' with
  | nil => exact hw'
  | cons aname margs ih =>
      cases args with
      | nil => exact hw'
      | cons arg args =>
          have hreplace : Keeps w (t.replace arg w').2 := by
            obtain rfl | rfl := hw'
            · exact .inl (ht.none arg)
            · exact ht.keeps w hw arg
          rw [substituteArgs]
          dsimp only
          split
          · exact .inl rfl
          · exact ih args _ hreplace

theorem expandFurther_keeps (ht : t.Framed) (hw : w.Plain) {m : Macro} {name : List Byte}
    (hm : w.symbols.find name = some m) (hmark : w.expanded name = false) (ns : List Byte) :
    Keeps w (t.expandFurther m name ns w).2 := by
  have hplain : (w.mark name).Plain := hw
  have hwalk := ht.keeps (w.mark name) hplain ns
  rw [expandFurther]
  generalize t.replace ns (some (w.mark name)) = r at hwalk ⊢
  obtain ⟨e, w'⟩ := r
  obtain rfl | rfl := hwalk
  · exact .inl rfl
  · dsimp only
    rw [World.unmark_mark hmark, hw name m hm, if_neg (by decide)]
    exact .inr rfl

theorem expand_keeps (ht : t.Framed) (hw : w.Plain) (name : List Byte) (args : Option (List (List Byte))) :
    Keeps w (t.expand mangle junk name args (some w)).2 := by
  have hself : Keeps w (some w) := .inr rfl
  have hfurther {m : Macro} (hm : w.symbols.find name = some m) (hmark : ¬w.expanded name) (ns : Option (List Byte)) :
      Keeps w (ns.elim (none, none) fun ns => t.expandFurther m name ns w).2 := by
    cases ns with
    | none => exact .inl rfl
    | some ns => exact expandFurther_keeps ht hw hm (Bool.eq_false_iff.mpr hmark) ns
  rw [expand]
  dsimp only
  split
  · exact hself
  · rename_i m hm
    split
    · exact hself
    · rename_i hmark
      split
      · rename_i as margs _ _
        split
        · exact hself
        · have hargs := substituteArgs_keeps mangle junk ht hw (args.isSome && m.varargs) margs as m.value hself
          split
          · rename_i ns w' hloop
            rw [hloop] at hargs
            obtain h | h := hargs
            · cases h
            · cases h
              exact hfurther hm hmark _
          · exact .inl rfl
      · exact hself
      · exact hfurther hm hmark _

theorem ofDepth_framed (mangle : List Byte → List Byte) (junk : Byte) (t : MacroTable (Option World)) (n : ℕ) :
    (t.ofDepth mangle junk n).Framed := by
  induction n with
  | zero =>
      refine ⟨fun w _ s => replace_closed (p := Keeps w) (fun _ _ _ _ => .inl rfl) s (.inr rfl), fun s => ?_⟩
      exact replace_closed (p := (· = none)) (fun _ _ _ _ => rfl) s rfl
  | succ n ih =>
      have hexpand (id : List Byte) (args : Option (List (List Byte))) (w : Option World) :
          (t.ofDepth mangle junk (n + 1)).expandMacro id args w =
            (t.ofDepth mangle junk n).expand mangle junk id args w := rfl
      refine ⟨fun w hw s => ?_, fun s => ?_⟩
      · refine replace_closed (p := Keeps w) (fun id args w' hw' => ?_) s (.inr rfl)
        rw [hexpand]
        obtain rfl | rfl := hw'
        · exact .inl rfl
        · exact expand_keeps ih hw id args
      · refine replace_closed (p := (· = none)) (fun id args w' hw' => ?_) s rfl
        rw [hexpand, hw']
        rfl

/-- A walk that returns leaves the macros and their marks as they were. -/
theorem replace_keeps_table (mangle : List Byte → List Byte) (junk : Byte) (t : MacroTable (Option World)) (n : ℕ)
    (hw : w.Plain) (s : List Byte) {w' : World}
    (h : ((t.ofDepth mangle junk n).replace s (some w)).2 = some w') : w' = w := by
  obtain hnone | hsame := (ofDepth_framed mangle junk t n).keeps w hw s
  · rw [hnone] at h
    cases h
  · rw [hsame] at h
    exact (Option.some.inj h).symm

/-- A preprocessor without directives. -/
def noDirectives : MacroTable (Option World) where
  findMacro _ _ := none
  expandMacro _ _ w := (none, w)
  place _ _ _ := none
  expr _ w := ({ val := 0, e := false, msg := none }, w)
  define _ _ w := (none, w)
  checkppId _ := true
  includeAll _ := false
  quiet _ _ _ w := w

/-- The macro `A(x)` that stands for `A(x) x`. -/
def callsItself : World where
  symbols := noSymbols.add { name := lit "A", args := some [lit "x"], value := lit "A(x) x", varargs := false
                             swigmacro := false, file := [], line := 1 }
  expanded _ := false

theorem plain_callsItself : callsItself.Plain := by
  intro id m hm
  by_cases hid : id = lit "A"
  · rw [hid] at hm
    cases hm
    rfl
  · rw [callsItself] at hm
    rw [noSymbols.find_add_of_ne _ hid] at hm
    cases hm

theorem replace_keeps_table_nested :
    ∃ w', ((noDirectives.ofDepth id 0 3).replace (lit "A(A(1)) A(1,2) A(") (some callsItself)).2 = some w' ∧
      w' = callsItself := by
  have hreturns : ((noDirectives.ofDepth id 0 3).replace (lit "A(A(1)) A(1,2) A(") (some callsItself)).2.isSome := by
    decide +kernel
  obtain ⟨w', hw'⟩ := Option.isSome_iff_exists.mp hreturns
  exact ⟨w', hw', replace_keeps_table id 0 noDirectives 3 plain_callsItself _ hw'⟩

end MacroTable

end Swig.Preprocessor
