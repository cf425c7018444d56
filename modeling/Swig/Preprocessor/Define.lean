import Swig.DOH.ReplaceReturns
import Swig.Preprocessor.MacroReplace

/-!
`Preprocessor_define` (`cpp.c`): the definition of a macro is parsed, and put into
the macro table unless a macro of that name is there.
-/

namespace Swig.Preprocessor

open ByteBlock DOH

deriving instance DecidableEq for MacroDef

/-- A macro of the table, with the place of its definition. -/
structure Macro extends MacroDef where
  varargs : Bool
  swigmacro : Bool
  file : List Byte
  line : ℕ
  deriving DecidableEq

/-- `kpp_symbols`: the macros by their names. -/
structure Symbols where
  find : List Byte → Option Macro
  named : ∀ id m, find id = some m → m.name = id

/-- A text and where it begins. -/
structure SourceText where
  text : List Byte
  file : List Byte
  line : ℕ

/-! ### The head of the definition -/

/-- `Macro_vararg_name`, with its messages. -/
def macroVarargName (str : List Byte) : List (List Byte) × Option (List Byte) :=
  let dots := str.dropWhile (· != chr '.')
  if dots = [] then ([], none)
  else if dots ≠ lit "..." then ([lit "Illegal macro argument name '" ++ str ++ lit "'\n"], none)
  else ([], some (if dots = str then lit "__VA_ARGS__" else str.takeWhile (· != chr '.')))

/-- The loop that reads the name, the text of the parameters and what is left; nothing when
their parenthesis is not closed. -/
def macroName : List Byte → List Byte → Option (List Byte × Option (List Byte) × List Byte)
  | name, [] => some (name, none, [])
  | name, c :: s =>
      if c = chr '(' then
        match s.dropWhile (· != chr ')') with
        | [] => none
        | _ :: rest => some (name, some (s.takeWhile (· != chr ')')), rest)
      else if isidchar c || c == chr '%' then macroName (name ++ [c]) s
      else if isspace c then some (name, none, s)
      else if c = chr '\\' then
        match s with
        | [] => some (name, none, [c])
        | d :: s => if d = chr '\n' then macroName name s else some (name, none, c :: d :: s)
      else some (name, none, c :: s)

/-- The loop over the text of the parameters: the parameters, and whether the last one takes
all arguments that are left. -/
def argNames : List Byte → List (List Byte) → List Byte → List (List Byte) × Option (List (List Byte) × Bool)
  | argname, arglist, [] =>
      if argname = [] then ([], some (arglist, false))
      else
        match macroVarargName argname with
        | (errors, some varargname) => (errors, some (arglist ++ [varargname], true))
        | (errors, none) => (errors, some (arglist ++ [argname], false))
  | argname, arglist, c :: s =>
      if c = chr ',' then
        match macroVarargName argname with
        | (errors, some _) =>
            (errors ++ lit "Variable-length macro argument must be last parameter\n" :: (argNames [] arglist s).1,
              (argNames [] arglist s).2)
        | (errors, none) =>
            (errors ++ (argNames [] (arglist ++ [argname]) s).1, (argNames [] (arglist ++ [argname]) s).2)
      else if isidchar c || c == chr '.' then argNames (argname ++ [c]) arglist s
      else if isspace c || c == chr '\\' then argNames argname arglist s
      else ([lit "Illegal character in macro argument name\n"], none)

/-! ### The value -/

/-- The states of the scan for `#` outside of quotes and comments. -/
inductive HashState
  | code | slash | block | star | line | char | charEscape | string | stringEscape
  deriving DecidableEq

namespace HashState

/-- State 0. -/
def inCode (c : Byte) : HashState × Byte :=
  if c = chr '#' then (code, 1)
  else if c = chr '/' then (slash, c)
  else if c = chr '\'' then (char, c)
  else if c = chr '"' then (string, c)
  else (code, c)

def step : HashState → Byte → HashState × Byte
  | code, c => inCode c
  | slash, c => if c = chr '*' then (block, c) else if c = chr '/' then (line, c) else inCode c
  | block, c => (if c = chr '*' then star else block, c)
  | star, c => (if c = chr '/' then code else if c = chr '*' then star else block, c)
  | line, c => (if c = chr '\n' then code else line, c)
  | char, c => (if c = chr '\'' then code else if c = chr '\\' then charEscape else char, c)
  | charEscape, c => (char, c)
  | string, c => (if c = chr '"' then code else if c = chr '\\' then stringEscape else string, c)
  | stringEscape, c => (string, c)

end HashState

/-- The special `#` as `\001`; the scan ends at a terminator. -/
def markHashes : HashState → List Byte → List Byte
  | _, [] => []
  | state, c :: s => if c = 0 then c :: s else (state.step c).2 :: markHashes (state.step c).1 s

/-- `while (strstr(Char(s), token)) Replace(s, token, rep, DOH_REPLACE_ANY)`. -/
def replaceWhile (token rep : List Byte) : ℕ → List Byte → Option (List Byte)
  | 0, _ => none
  | n + 1, s => do
      match ← strstr (s ++ [0]) 0 token with
      | none => some s
      | some _ => replaceWhile token rep n (← replaceText s token rep DOH_REPLACE_ANY)

/-- The value without the white space around `#`, and the special tokens in it. -/
def hashTokens (s : List Byte) : Option (List Byte) := do
  let s ← replaceWhile [1, chr ' '] [1] (s.length + 1) s
  let s ← replaceWhile [chr ' ', 1] [1] (s.length + 1) s
  let s ← replaceText s [1, 1] [2] DOH_REPLACE_ANY
  let s ← replaceText s [1, chr '@'] [4] DOH_REPLACE_ANY
  replaceText s [2, chr '@'] [5] DOH_REPLACE_ANY

def macroValue (s : List Byte) ( swigmacro : Bool) : Option (List Byte) := do
  let s ← (if swigmacro then some s else replaceText s (lit "\\\n") (lit " ") DOH_REPLACE_NOQUOTE)
  hashTokens (markHashes .code s)

/-! ### The definition -/

/-- The macro that is made of a definition, or none after an error, with the messages. -/
def parseDefine (str : SourceText) ( swigmacro : Bool) : Option (List (List Byte) × Option Macro) :=
  match macroName [] (str.text.dropWhile isspace) with
  | none => some ([lit "Missing ')' in macro parameters\n"], none)
  | some (name, argstr, rest) =>
      let (errors, parms) := match argstr with
        | none => ([], some (none, false))
        | some argstr => ((argNames [] [] argstr).1, (argNames [] [] argstr).2.map fun a => (some a.1, a.2))
      match parms with
      | none => some (errors, none)
      | some (args, varargs) => do
          let value ← macroValue (if swigmacro then rest else rest.dropWhile isspace) swigmacro
          some (errors, some { name, args, value, varargs, swigmacro, file := str.file, line := str.line })

/-- What `Preprocessor_define` returns and leaves. -/
structure Definition where
  errors : List (List Byte)
  macro? : Option Macro
  symbols : Symbols

/-- `Setattr(symbols, macroname, macro)`. -/
def Symbols.add (symbols : Symbols) (m : Macro) : Symbols where
  find := Function.update symbols.find m.name (some m)
  named id m' h := by
    by_cases hid : id = m.name
    · rw [hid, Function.update_self] at h
      rw [hid, ← Option.some.inj h]
    · rw [Function.update_of_ne hid] at h
      exact symbols.named id m' h

@[simp] theorem Symbols.find_add (symbols : Symbols) (m : Macro) : (symbols.add m).find m.name = some m :=
  Function.update_self ..

theorem Symbols.find_add_of_ne (symbols : Symbols) (m : Macro) {id : List Byte} (hid : id ≠ m.name) :
    (symbols.add m).find id = symbols.find id := Function.update_of_ne hid ..

/-- `Preprocessor_define`. -/
def define (symbols : Symbols) (str : SourceText) ( swigmacro : Bool) : Option Definition := do
  let (errors, parsed) ← parseDefine str swigmacro
  match parsed with
  | none => some { errors, macro? := none, symbols }
  | some m =>
      match symbols.find m.name with
      | none => some { errors, macro? := some m, symbols := symbols.add m }
      | some m1 =>
          if m1.value = m.value then some { errors, macro? := some m, symbols }
          else
            some { errors := errors ++ [lit "Macro '" ++ m.name ++ lit "' redefined,\n",
                     lit "previous definition of '" ++ m.name ++ lit "'.\n"]
                   macro? := none
                   symbols }

/-! ### It returns -/

variable {token rep s : List Byte}

theorem replaceWhile_returns (hlt : rep.length < token.length) {n : ℕ} (hn : s.length < n) :
    ∃ s', replaceWhile token rep n s = some s' := by
  induction n generalizing s with
  | zero => omega
  | succ n ih =>
      obtain ⟨e, hends, -⟩ := exists_endsAt_text s
      obtain ⟨m, hm⟩ := strstr_returns hends token
      rw [replaceWhile, hm]
      cases m with
      | none => exact ⟨s, rfl⟩
      | some c =>
          obtain ⟨s', hs'⟩ := replaceText_returns s hlt.le DOH_REPLACE_ANY
          have hshort := replaceText_shorter hlt hm hs'
          simp only [Option.bind_eq_bind, Option.bind_some, hs']
          exact ih (by omega)

theorem hashTokens_returns (s : List Byte) : ∃ v, hashTokens s = some v := by
  obtain ⟨s₁, h₁⟩ : ∃ s₁, replaceWhile [1, chr ' '] [1] (s.length + 1) s = some s₁ :=
    replaceWhile_returns (by decide) (Nat.lt_succ_self _)
  obtain ⟨s₂, h₂⟩ : ∃ s₂, replaceWhile [chr ' ', 1] [1] (s₁.length + 1) s₁ = some s₂ :=
    replaceWhile_returns (by decide) (Nat.lt_succ_self _)
  obtain ⟨s₃, h₃⟩ : ∃ s₃, replaceText s₂ [1, 1] [2] DOH_REPLACE_ANY = some s₃ :=
    replaceText_returns s₂ (by decide) _
  obtain ⟨s₄, h₄⟩ : ∃ s₄, replaceText s₃ [1, chr '@'] [4] DOH_REPLACE_ANY = some s₄ :=
    replaceText_returns s₃ (by decide) _
  obtain ⟨s₅, h₅⟩ : ∃ s₅, replaceText s₄ [2, chr '@'] [5] DOH_REPLACE_ANY = some s₅ :=
    replaceText_returns s₄ (by decide) _
  refine ⟨s₅, ?_⟩
  rw [hashTokens, h₁]
  simp only [Option.bind_eq_bind, Option.bind_some, h₂, h₃, h₄, h₅]

theorem macroValue_returns (s : List Byte) ( swigmacro : Bool) : ∃ v, macroValue s swigmacro = some v := by
  obtain ⟨s', hs'⟩ : ∃ s', (if swigmacro then some s
      else replaceText s (lit "\\\n") (lit " ") DOH_REPLACE_NOQUOTE) = some s' := by
    cases swigmacro with
    | true => exact ⟨s, rfl⟩
    | false => exact replaceText_returns s (by decide) _
  obtain ⟨v, hv⟩ := hashTokens_returns (markHashes .code s')
  rw [macroValue, hs']
  exact ⟨v, hv⟩

theorem parseDefine_returns (str : SourceText) ( swigmacro : Bool) : ∃ p, parseDefine str swigmacro = some p := by
  rw [parseDefine]
  split
  · exact ⟨_, rfl⟩
  · rename_i name argstr rest _
    dsimp only
    split
    · exact ⟨_, rfl⟩
    · obtain ⟨v, hv⟩ := macroValue_returns (if swigmacro then rest else rest.dropWhile isspace) swigmacro
      rw [hv]
      exact ⟨_, rfl⟩

/-! ### What it leaves -/

/-- The same name, parameters and value. -/
def Macro.Same (m m' : Macro) : Prop :=
  m.name = m'.name ∧ m.args = m'.args ∧ m.varargs = m'.varargs ∧ m.value = m'.value

/-- A definition fails and leaves the table, or the table has the macro that was parsed and the
other macros that it had; a macro that was there is the same. -/
structure Defines (symbols : Symbols) (parsed : Option Macro) (d : Definition) : Prop where
  failed : d.macro? = none → d.symbols = symbols
  parsed : ∀ m, d.macro? = some m → parsed = some m
  bound : ∀ m, d.macro? = some m → ∃ m', d.symbols.find m.name = some m' ∧ m'.Same m
  others : ∀ m, d.macro? = some m → ∀ id, id ≠ m.name → d.symbols.find id = symbols.find id
  redefined : ∀ m m1, d.macro? = some m → symbols.find m.name = some m1 → m1.Same m

/-- A macro of this name with the same value has the same parameters. -/
def SameParms (symbols : Symbols) (parsed : Option Macro) : Prop :=
  ∀ m m1, parsed = some m → symbols.find m.name = some m1 → m1.value = m.value →
    m1.args = m.args ∧ m1.varargs = m.varargs

theorem Macro.same_self (m : Macro) : m.Same m := ⟨rfl, rfl, rfl, rfl⟩

variable {symbols : Symbols} {m m1 : Macro}

theorem defines_failed (symbols : Symbols) (parsed : Option Macro) (errors : List (List Byte)) :
    Defines symbols parsed { errors, macro? := none, symbols } where
  failed _ := rfl
  parsed _ h := by cases h
  bound _ h := by cases h
  others _ h := by cases h
  redefined _ _ h := by cases h

theorem defines_new (hfind : symbols.find m.name = none) (errors : List (List Byte)) :
    Defines symbols (some m) { errors, macro? := some m, symbols := symbols.add m } where
  failed h := by cases h
  parsed _ h := h
  bound m' h := by
    cases h
    exact ⟨m, symbols.find_add m, m.same_self⟩
  others m' h id hid := by
    cases h
    exact symbols.find_add_of_ne m hid
  redefined m' m1 h hm1 := by
    cases h
    rw [hfind] at hm1
    cases hm1

/-- The macro that is there stays, and stands for the one that was parsed. -/
theorem defines_kept (hfind : symbols.find m.name = some m1) (errors : List (List Byte)) :
    Defines symbols (some m) { errors, macro? := some m, symbols } ↔ m1.Same m := by
  constructor
  · exact fun h => h.redefined m m1 rfl hfind
  · intro hsame
    refine { failed := fun h => ?_, parsed := fun _ h => h, bound := ?_, others := fun _ _ _ _ => rfl, redefined := ?_ }
    · cases h
    · rintro m' ⟨⟩
      exact ⟨m1, hfind, hsame⟩
    · rintro m' m1' ⟨⟩ hm1
      rw [hfind] at hm1
      cases hm1
      exact hsame

theorem sameParms_iff (hfind : symbols.find m.name = some m1) :
    SameParms symbols (some m) ↔ (m1.value = m.value → m1.args = m.args ∧ m1.varargs = m.varargs) := by
  constructor
  · exact fun h => h m m1 rfl hfind
  · rintro h m' m1' ⟨⟩ hm1
    rw [hfind] at hm1
    cases hm1
    exact h

theorem define_meets_iff (symbols : Symbols) (str : SourceText) ( swigmacro : Bool) :
    ∃ errors parsed d, parseDefine str swigmacro = some (errors, parsed) ∧ define symbols str swigmacro = some d ∧
      (Defines symbols parsed d ↔ SameParms symbols parsed) := by
  obtain ⟨⟨errors, parsed⟩, hparse⟩ := parseDefine_returns str swigmacro
  rw [define, hparse]
  refine ⟨errors, parsed, ?_⟩
  simp only [Option.bind_eq_bind, Option.bind_some]
  cases parsed with
  | none =>
      have hnone : SameParms symbols none := by rintro m m1 ⟨⟩
      exact ⟨_, trivial, rfl, iff_of_true (defines_failed symbols none errors) hnone⟩
  | some m =>
      dsimp only
      cases hfind : symbols.find m.name with
      | none =>
          have hnew : SameParms symbols (some m) := by
            rintro m' m1 ⟨⟩ hm1
            rw [hfind] at hm1
            cases hm1
          exact ⟨_, trivial, rfl, iff_of_true (defines_new hfind errors) hnew⟩
      | some m1 =>
          rw [sameParms_iff hfind]
          dsimp only
          by_cases hvalue : m1.value = m.value
          · rw [if_pos hvalue]
            refine ⟨_, trivial, rfl, ?_⟩
            rw [defines_kept hfind errors, Macro.Same, symbols.named m.name m1 hfind]
            simp only [hvalue, true_and, and_true, forall_const]
          · rw [if_neg hvalue]
            exact ⟨_, trivial, rfl, iff_of_true (defines_failed symbols (some m) _) fun h => absurd h hvalue⟩

def noSymbols : Symbols := ⟨fun _ => none, fun _ _ h => by cases h⟩

def oneParm : Macro :=
  { name := lit "F", args := some [lit "x"], value := lit "1", varargs := false, swigmacro := false, file := []
    line := 1 }

def twoParms : Macro :=
  { name := lit "F", args := some [lit "y", lit "z"], value := lit "1", varargs := false, swigmacro := false, file := []
    line := 2 }

/-- The macro `F(y, z)` is accepted where `F(x)` has the same value, and `F(x)` stays. -/
theorem define_other_parms : ∃ d errors parsed d', define noSymbols ⟨lit "F(x) 1", [], 1⟩ false = some d ∧
    parseDefine ⟨lit "F(y, z) 1", [], 2⟩ false = some (errors, parsed) ∧
      define d.symbols ⟨lit "F(y, z) 1", [], 2⟩ false = some d' ∧ ¬Defines d.symbols parsed d' := by
  have hone : parseDefine ⟨lit "F(x) 1", [], 1⟩ false = some ([], some oneParm) := by decide +kernel
  have htwo : parseDefine ⟨lit "F(y, z) 1", [], 2⟩ false = some ([], some twoParms) := by decide +kernel
  have hfind : (noSymbols.add oneParm).find twoParms.name = some oneParm := noSymbols.find_add oneParm
  refine ⟨⟨[], some oneParm, noSymbols.add oneParm⟩, [], some twoParms,
    ⟨[], some twoParms, noSymbols.add oneParm⟩, ?_, htwo, ?_, fun h => ?_⟩
  · rw [define, hone]
    rfl
  · rw [define, htwo]
    simp only [Option.bind_eq_bind, Option.bind_some]
    rw [hfind]
    rfl
  · have hsame := h.redefined twoParms oneParm rfl hfind
    exact absurd hsame.2.1 (by decide)

end Swig.Preprocessor
