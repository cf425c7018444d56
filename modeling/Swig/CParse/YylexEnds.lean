import Swig.CParse.Yylex
import Swig.Scanner.Progress

/-!
A caller of `yylex` comes to the end of the input, unless the name of an operator has no end, a number
is cut off at the mark of its exponent, or an error stands behind `::`.
-/

namespace Swig.CParse

open Scanner

/-! ### What is left of the input -/

variable {s s' : Scanner} {tok : Token} {w n : ℕ} {v : List Byte}

theorem weight_cstr_le (s : List Byte) : weight (cstr s) ≤ weight s := (List.takeWhile_sublist _).countP_le

theorem weight_nextchar_le (s : Scanner) :
    weight (nextchar s).2.bytesLeft ≤ weight s.bytesLeft ∧ (nextchar s).2.nexttoken = s.nexttoken := by
  obtain ⟨c, s', hnext⟩ : ∃ c s', nextchar s = (c, s') := ⟨_, _, rfl⟩
  rw [hnext]
  rcases nextchar_cases hnext with htaken | ⟨-, hend⟩
  · refine ⟨?_, htaken.nexttoken⟩
    rw [htaken.weight_left]
    exact Nat.le_add_right _ _
  · exact ⟨by rw [hend.left, hend.left'], hend.nexttoken⟩

theorem weight_skipLineLoop_le (n : ℕ) (s : Scanner) :
    weight (skipLineLoop n s).bytesLeft ≤ weight s.bytesLeft ∧ (skipLineLoop n s).nexttoken = s.nexttoken := by
  induction n generalizing s with
  | zero => exact ⟨le_rfl, rfl⟩
  | succ n ih =>
      obtain ⟨hle, hnext⟩ := weight_nextchar_le s
      rw [skipLineLoop]
      dsimp only
      split
      · exact ⟨hle, hnext⟩
      · split
        · obtain ⟨hle₂, hnext₂⟩ := weight_nextchar_le (nextchar s).2
          obtain ⟨hle₃, hnext₃⟩ := ih (nextchar (nextchar s).2).2
          exact ⟨hle₃.trans (hle₂.trans hle), hnext₃.trans (hnext₂.trans hnext)⟩
        · split
          · exact ⟨hle, hnext⟩
          · obtain ⟨hle₂, hnext₂⟩ := ih (nextchar s).2
            exact ⟨hle₂.trans hle, hnext₂.trans hnext⟩

theorem load_skipLine_le (h : s.nexttoken = none) : s.skipLine.load ≤ weight s.bytesLeft := by
  obtain ⟨hle, hnext⟩ := weight_skipLineLoop_le (s.remaining + 1) { s with text := [], textLine := s.line }
  have hnone : s.skipLine.nexttoken = none := hnext.trans h
  rw [load_of_none hnone]
  exact hle

theorem load_setLocation (s : Scanner) (line : ℤ) : (s.setLocation line).load = s.load := by
  obtain ⟨-, -, objs, -⟩ := s
  cases objs <;> rfl

/-- A token that is pushed back weighs no more than it did. -/
theorem load_pushtoken_le (h : tok ≠ .eof → weight s.bytesLeft + max 1 (weight v) ≤ w) (hle : weight s.bytesLeft ≤ w) :
    (s.pushtoken tok v).load ≤ w := by
  cases tok with
  | eof => exact hle
  | _ => exact h nofun

theorem load_push (h : s.nexttoken = none) (data : List Byte) (line : ℤ) :
    (s.push ⟨data, 0, line⟩).load = weight data + weight s.bytesLeft := by
  rw [load_of_none (s := s.push ⟨data, 0, line⟩) h, ← weight_append]
  congr 1
  rw [bytesLeft, bytesLeft, push]
  cases s.scanobjs <;> rfl

/-! ### Where the lexer goes on -/

/-- The scanner after some more tokens. -/
inductive Beyond (s : Scanner) : Scanner → Prop
  | refl : Beyond s s
  | token {s' s'' : Scanner} {tok : Token} (h : Beyond s s') (ht : s'.token = some (tok, s''))
      (htok : tok ≠ .eof ∧ tok ≠ .error ∧ tok ≠ .pound) : Beyond s s''

/-- The next token is a number, cut off at the mark of its exponent. -/
def CutOff (s : Scanner) : Prop := s.nexttoken = none ∧ EndsInMark s

/-- One of the tokens that are left ends the name of an operator. -/
inductive EndsName : Scanner → Prop
  | here {s s' : Scanner} {tok : Token} (ht : s.token = some (tok, s')) (h : (Lexer.terminator tok s'.text).isSome) :
      EndsName s
  | later {s s' : Scanner} {tok : Token} (ht : s.token = some (tok, s')) (htok : tok ≠ .eof)
      (h : EndsName (Lexer.reportEnd tok s')) : EndsName s

namespace Lexer

/-- What a round of the lexer may come upon. -/
structure Sound (L : Lexer) : Prop where
  mark : ∀ s, Beyond L.scan s → ¬CutOff s
  dcolon : ∀ s s', L.scan.token = some (.dcolon, s) → s.token ≠ some (.error, s')
  name : ∀ s s', L.cplusplus → L.scan.token = some (.id, s) → cstr s.text = lit "operator" →
    s.token = some (.id, s') → EndsName s'

/-- What is left, with a token that is to be returned next. -/
def size (L : Lexer) : ℕ := 2 * L.scan.load + if L.nextToken.isSome then 1 else 0

/-- A round that leaves less than `n`, if it does not return 0. -/
def Goes (n : ℕ) : Lexed Lexer → Prop
  | .token l L => l ≠ .eof → L.size < n
  | .again L => L.size < n

/-- A part of a round that adds nothing. -/
def Stays (n : ℕ) : Lexed Lexer → Prop
  | .token _ L => L.size ≤ n
  | .again L => L.size ≤ n

variable {L L₁ L₂ : Lexer} {l : ParserToken} {r : Lexed Lexer}

theorem size_of_none (h : L.nextToken = none) : L.size = 2 * L.scan.load := by
  rw [size, h]
  rfl

theorem Stays.goes (h : Stays n r) {m : ℕ} (hlt : n < m) : Goes m r := by
  cases r with
  | token l L => exact fun _ => Nat.lt_of_le_of_lt h hlt
  | again L => exact Nat.lt_of_le_of_lt h hlt

theorem exists_token (h : ¬CutOff s) : ∃ tok s', s.token = some (tok, s') ∧ Advanced s.load tok s' := by
  obtain ⟨tok, s', htoken, hadvanced⟩ := token_advanced fun hnext hends => h ⟨hnext, hends⟩
  exact ⟨tok, s', htoken, hadvanced⟩

theorem Advanced.load_lt (h : Advanced w tok s) (htok : tok ≠ .eof) : s.load < w := by
  have hused := h.used htok
  rw [load_of_none h.nexttoken]
  omega

/-! ### `yylook` -/

/-- What a round of `yylook` ends with: an identifier is read from the scanner as it was. -/
structure Looked (L : Lexer) (r : Lexed Lexer) : Prop where
  goes : Goes L.size r
  again : ∀ L', r = .again L' → L'.nextToken = none
  id : ∀ L', r = .token .id L' → L.scan.token = some (.id, L'.scan) ∧ L'.nextToken = none ∧ L'.cplusplus = L.cplusplus

theorem looked_token (hl : l ≠ .id) (hL : L₁.size < L.size) : Looked L (.token l L₁) := by
  refine ⟨fun _ => hL, (fun L' h => nomatch h), fun L' h => ?_⟩
  injection h with h
  exact absurd h hl

theorem looked_eof (L L₁ : Lexer) : Looked L (.token .eof L₁) := by
  refine ⟨fun h => absurd rfl h, (fun L' h => nomatch h), fun L' h => ?_⟩
  injection h with h
  exact absurd h nofun

theorem looked_again (hnext : L₁.nextToken = none) (hL : L₁.size < L.size) : Looked L (.again L₁) := by
  refine ⟨hL, fun L' h => ?_, fun L' h => nomatch h⟩
  injection h with h
  exact h ▸ hnext

theorem size_lt (h : L.nextToken = none) (h₁ : L₁.nextToken = none) (hload : L₁.scan.load < L.scan.load) :
    L₁.size < L.size := by
  rw [size_of_none h, size_of_none h₁]
  omega

theorem scannerLocator_spec (L : Lexer) (loc : List Byte) :
    (L.scannerLocator loc).nextToken = L.nextToken ∧ (L.scannerLocator loc).scan.load = L.scan.load := by
  rw [scannerLocator]
  split
  · exact ⟨rfl, rfl⟩
  · split
    · split
      · exact ⟨rfl, rfl⟩
      · exact ⟨rfl, load_setLocation _ _⟩
    · exact ⟨rfl, load_setLocation _ _⟩

/-- Behind `::` one more token is read, and may be pushed back. -/
theorem dcolon_spec (hcut : ¬CutOff L.scan) (herror : ∀ s', L.scan.token ≠ some (.error, s'))
    (hnext : L.nextToken = none) :
    ∃ r, L.dcolon = .ok r ∧ ∃ l L', r = .token l L' ∧ l ≠ .id ∧ L'.size ≤ L.size + 1 := by
  obtain ⟨tok, s', htoken, hadvanced⟩ := exists_token hcut
  have hsize : L.size = 2 * L.scan.load := size_of_none hnext
  have hread : ∀ L' : Lexer, L'.scan = s' → L'.nextToken = none → L'.size ≤ L.size + 1 := by
    rintro L' rfl hL'
    rw [size_of_none hL', hsize, load_of_none hadvanced.nexttoken]
    have hleft := hadvanced.left
    omega
  have hpush : (s'.pushtoken tok s'.text).load ≤ L.scan.load := load_pushtoken_le hadvanced.used hadvanced.left
  have hpushed : ∃ r, (do
      let L := { L with scan := s'.pushtoken tok s'.text }
      if !L.lastId then return .token .nonid { L with nextToken := some .dcolon }
      else return .token .dcolon L : Except Halt (Lexed Lexer)) = .ok r ∧
        ∃ l L', r = .token l L' ∧ l ≠ .id ∧ L'.size ≤ L.size + 1 := by
    dsimp only
    split
    · refine ⟨_, rfl, _, _, rfl, nofun, ?_⟩
      rw [size, hsize]
      simp only [Option.isSome_some, if_true]
      omega
    · refine ⟨_, rfl, _, _, rfl, nofun, ?_⟩
      rw [size_of_none (L := { L with scan := s'.pushtoken tok s'.text }) hnext, hsize]
      dsimp only
      omega
  rw [dcolon, htoken]
  cases tok with
  | star => exact ⟨_, rfl, _, _, rfl, nofun, hread _ rfl hnext⟩
  | not => exact ⟨_, rfl, _, _, rfl, nofun, hread _ rfl hnext⟩
  | error => exact absurd htoken (herror s')
  | _ => exact hpushed

theorem parserToken_eq_id (h : parserToken tok = some .id) : tok = .id := by
  cases tok <;> first | rfl | cases h

/-- A token that is passed on as it is. -/
theorem passed_spec {s' : Scanner} {tok : Token} (htoken : L.scan.token = some (tok, s')) (hnext : L.nextToken = none)
    (hload : s'.load < L.scan.load) {L₁ : Lexer} (hscan : L₁.scan = s') (hnext₁ : L₁.nextToken = none)
    (hcpp : L₁.cplusplus = L.cplusplus) : ∃ r, (match parserToken tok with
      | some l => pure (.token l L₁)
      | none => pure (.token .illegal (L₁.swigError ("Illegal token '" ++ bytesToString s'.text ++ "'.\n"))) :
        Except Halt (Lexed Lexer)) = .ok r ∧ Looked L r := by
  have hlt (L₂ : Lexer) (hnext₂ : L₂.nextToken = none) (hscan₂ : L₂.scan.load = L₁.scan.load) : L₂.size < L.size :=
    size_lt hnext hnext₂ (by rwa [hscan₂, hscan])
  cases hl : parserToken tok with
  | none => exact ⟨_, rfl, looked_token (by decide) (hlt (L₁.swigError _) hnext₁ rfl)⟩
  | some l =>
      refine ⟨_, rfl, fun _ => hlt L₁ hnext₁ rfl, ?_, fun L' h => ?_⟩
      · rintro L' ⟨⟩
      injection h with hid hL
      obtain rfl := parserToken_eq_id (hl.trans (congrArg some hid))
      rw [← hL, hscan]
      exact ⟨htoken, hnext₁, hcpp⟩

theorem yylookRound_spec (hs : Sound L) (hnext : L.nextToken = none) : ∃ r, L.yylookRound = .ok r ∧ Looked L r := by
  obtain ⟨tok, s', htoken, hadvanced⟩ := exists_token (hs.mark _ .refl)
  rw [yylookRound, htoken]
  simp only [ofScanner, bind, Except.bind]
  by_cases hend : tok = .eof ∨ tok = .error
  · rw [if_pos hend]
    exact ⟨_, rfl, looked_eof L _⟩
  rw [if_neg hend]
  have hload : s'.load < L.scan.load := Advanced.load_lt hadvanced fun h => hend (.inl h)
  have hlt (L₁ : Lexer) (hnext₁ : L₁.nextToken = none) (hscan : L₁.scan.load ≤ s'.load) : L₁.size < L.size :=
    size_lt hnext hnext₁ (hscan.trans_lt hload)
  have hother (l : ParserToken) (L₁ : Lexer) (hl : l ≠ .id) (hnext₁ : L₁.nextToken = none)
      (hscan : L₁.scan.load ≤ s'.load) : Looked L (.token l L₁) := looked_token hl (hlt L₁ hnext₁ hscan)
  have hscan₁ : s'.load ≤ s'.load := le_rfl
  cases tok with
  | rbrace =>
      dsimp only
      split
      · exact ⟨_, rfl, looked_again hnext (hlt (swigError _ _) hnext hscan₁)⟩
      · exact ⟨_, rfl, hother _ _ (by decide) hnext hscan₁⟩
  | lbrace => exact ⟨_, rfl, hother _ _ (by decide) hnext hscan₁⟩
  | dcolon =>
      have hbeyond : Beyond L.scan s' := .token .refl htoken (by decide)
      obtain ⟨r, hr, l, L', rfl, hl, hL'⟩ := dcolon_spec
        (L := { L with scan := s', cparseStartLine := s'.startLine, cparseLine := s'.line })
        (hs.mark _ hbeyond) (hs.dcolon _ · htoken) hnext
      refine ⟨_, hr, looked_token hl ?_⟩
      rw [size_of_none
        (L := { L with scan := s', cparseStartLine := s'.startLine, cparseLine := s'.line }) hnext] at hL'
      rw [size_of_none hnext]
      dsimp only at hL'
      omega
  | rstring => exact ⟨_, rfl, hother _ _ (by decide) hnext hscan₁⟩
  | string => exact ⟨_, rfl, hother _ _ (by decide) hnext hscan₁⟩
  | char =>
      refine ⟨_, rfl, hother _ _ (by decide) ?_ ?_⟩
      · split <;> exact hnext
      · split <;> exact hscan₁
  | pound =>
      refine ⟨_, rfl, hother _ _ (by decide) hnext ?_⟩
      rw [load_of_none hadvanced.nexttoken]
      exact load_skipLine_le hadvanced.nexttoken
  | codeblock => exact ⟨_, rfl, hother _ _ (by decide) hnext hscan₁⟩
  | comment =>
      refine ⟨_, rfl, looked_again ?_ (hlt _ ?_ ?_)⟩
      · split
        · exact (scannerLocator_spec _ _).1.trans hnext
        · exact hnext
      · split
        · exact (scannerLocator_spec _ _).1.trans hnext
        · exact hnext
      · split
        · exact (scannerLocator_spec _ _).2.le
        · exact hscan₁
  | endline => exact ⟨_, rfl, looked_again hnext (hlt _ hnext hscan₁)⟩
  | backslash => exact ⟨_, rfl, looked_again hnext (hlt _ hnext hscan₁)⟩
  | _ => exact passed_spec htoken hnext hload rfl hnext rfl

/-- The rounds of a call of `yylook`. -/
inductive Looks (L : Lexer) : Lexer → Prop
  | refl : Looks L L
  | again {L₁ L₂ : Lexer} (h : Looks L L₁) (hround : L₁.yylookRound = .ok (.again L₂)) (hnext : L₂.nextToken = none) :
      Looks L L₂

theorem Looks.head (hround : L.yylookRound = .ok (.again L₁)) (hnext : L₁.nextToken = none) (h : Looks L₁ L₂) :
    Looks L L₂ := by
  induction h with
  | refl => exact .again .refl hround hnext
  | again _ hlast hnone ih => exact .again ih hlast hnone

theorem Looks.nextToken (h : Looks L L₁) (hnext : L.nextToken = none) : L₁.nextToken = none := by
  cases h with
  | refl => exact hnext
  | again _ _ hnone => exact hnone

/-- A call of `yylook` returns. -/
theorem yylook_spec (hs : ∀ L', Looks L L' → Sound L') (hnext : L.nextToken = none) (hn : L.size < n) :
    ∃ l L', yylook n L = .ok (l, L') ∧ (l ≠ .eof → L'.size < L.size) ∧ (l = .id → ∃ L₁, Looks L L₁ ∧
      L₁.scan.token = some (.id, L'.scan) ∧ L'.nextToken = none ∧ L'.cplusplus = L₁.cplusplus) := by
  induction n generalizing L with
  | zero => omega
  | succ n ih =>
      obtain ⟨r, hr, hlooked⟩ := yylookRound_spec (hs L .refl) hnext
      rw [yylook, hr]
      cases r with
      | token l L' =>
          refine ⟨l, L', rfl, hlooked.goes, ?_⟩
          rintro rfl
          exact ⟨L, .refl, hlooked.id L' rfl⟩
      | again L' =>
          have hlt : L'.size < L.size := hlooked.goes
          have hnone := hlooked.again L' rfl
          obtain ⟨l, L'', hlook, hgoes, hid⟩ := ih (fun L'' h => hs L'' (h.head hr hnone)) hnone (by omega)
          refine ⟨l, L'', hlook, fun hl => (hgoes hl).trans hlt, fun hl => ?_⟩
          obtain ⟨L₁, hlooks, hrest⟩ := hid hl
          exact ⟨L₁, hlooks.head hr hnone, hrest⟩

/-! ### Operator names -/

theorem Advanced.reportEnd (h : Advanced w tok s) : Advanced w tok (reportEnd tok s) := by
  rw [Lexer.reportEnd]
  split
  · exact ⟨h.nexttoken, h.left, h.used⟩
  · exact h

theorem reportEnd_text (tok : Token) (s : Scanner) : (reportEnd tok s).text = s.text := by
  rw [Lexer.reportEnd]
  split <;> rfl

theorem terminator_spec {text : List Byte} (h : terminator tok text = some v) :
    tok ≠ .eof ∧ max 1 (weight v) ≤ max 1 (weight text) := by
  cases tok with
  | lparen | lbrace | semi =>
      obtain rfl := Option.some.inj h
      exact ⟨nofun, Nat.le_max_left ..⟩
  | codeblock =>
      obtain rfl := Option.some.inj h
      exact ⟨nofun, le_rfl⟩
  | string =>
      obtain rfl := Option.some.inj h
      exact ⟨nofun, max_le_max le_rfl (weight_cstr_le text)⟩
  | _ => cases h

/-- The loop has collected `x` and is left at a token with the value `v`, all taken from what was left. -/
structure Collected (s : Scanner) (x v : List Byte) (s' : Scanner) : Prop where
  nexttoken : s'.nexttoken = none
  weight : weight s'.bytesLeft + weight x + max 1 (weight v) ≤ s.load

theorem collected_nil (ht : s.token = some (tok, s')) (hv : terminator tok (reportEnd tok s').text = some v) :
    Collected s [] v (reportEnd tok s') := by
  have hadvanced := Advanced.reportEnd (advanced_of_token ht)
  obtain ⟨htok, hle⟩ := terminator_spec hv
  have hused := hadvanced.used htok
  refine ⟨hadvanced.nexttoken, ?_⟩
  show Scanner.weight _ + 0 + _ ≤ _
  omega

/-- The text of a token is put before; a space between weighs nothing. -/
theorem Collected.cons {s'' : Scanner} {x y : List Byte} (ht : s.token = some (tok, s')) (htok : tok ≠ .eof)
    (h : Collected (reportEnd tok s') x v s'') (hy : Scanner.weight y = Scanner.weight (reportEnd tok s').text) :
    Collected s (y ++ x) v s'' := by
  have hadvanced := Advanced.reportEnd (advanced_of_token ht)
  have hused := hadvanced.used htok
  have hload := load_of_none hadvanced.nexttoken
  have hweight := h.weight
  refine ⟨h.nexttoken, ?_⟩
  rw [weight_append]
  omega

theorem weight_spaced (text : List Byte) (p : Bool) :
    Scanner.weight ((if p then [chr ' '] else []) ++ text) = Scanner.weight text := by
  cases p <;> rw [weight_append] <;> exact Nat.zero_add _

/-- The loop is left at the token that ends the name. -/
theorem operatorLoop_spec (h : EndsName s) (needspace : Bool) (t : List Byte) (hn : s.load < n) :
    ∃ x tok v s', operatorLoop n needspace t s = .ok (t ++ x, tok, v, s') ∧ Collected s x v s' := by
  induction h generalizing n needspace t with
  | @here s s' tok ht hend =>
      obtain ⟨n, rfl⟩ : ∃ m, n = m + 1 := ⟨n - 1, by omega⟩
      obtain ⟨v, hv⟩ := Option.isSome_iff_exists.mp hend
      rw [← reportEnd_text tok s'] at hv
      rw [operatorLoop, ht]
      simp only [ofScanner, bind, Except.bind, hv]
      exact ⟨[], tok, v, _, by rw [List.append_nil]; rfl, collected_nil ht hv⟩
  | @later s s' tok ht htok hrest ih =>
      obtain ⟨n, rfl⟩ : ∃ m, n = m + 1 := ⟨n - 1, by omega⟩
      have hadvanced := Advanced.reportEnd (advanced_of_token ht)
      have hused := hadvanced.used htok
      have hload := load_of_none hadvanced.nexttoken
      have hmore (p : Bool) (y : List Byte) (hy : Scanner.weight y = Scanner.weight (reportEnd tok s').text) :
          ∃ x tok' v s'', operatorLoop n p (t ++ y) (reportEnd tok s') = .ok (t ++ x, tok', v, s'') ∧
            Collected s x v s'' := by
        obtain ⟨x, tok', v, s'', hloop, hcollected⟩ := ih p (t ++ y) (n := n) (by omega)
        rw [List.append_assoc] at hloop
        exact ⟨y ++ x, tok', v, s'', hloop, hcollected.cons ht htok hy⟩
      rw [operatorLoop, ht]
      simp only [ofScanner, bind, Except.bind]
      cases hterm : terminator tok (reportEnd tok s').text with
      | some v => exact ⟨[], tok, v, _, by rw [List.append_nil]; rfl, collected_nil ht hterm⟩
      | none =>
          dsimp only
          split
          · rw [List.append_assoc]
            exact hmore needspace _ (weight_spaced _ _)
          · exact hmore false _ rfl

/-- The name is done, and its type may be read again. -/
theorem endOperator_spec {x : List Byte} (hcollected : Collected s x v L.scan)
    (hnext : L.nextToken = none) {text : List Byte}
    (hload : s.load + Scanner.weight text ≤ w) :
    Stays (2 * w) (L.endOperator (lit "operator " ++ (text ++ x)) tok v) := by
  have hweight := hcollected.weight
  have htype : (lit "operator " ++ (text ++ x)).drop 9 = text ++ x := rfl
  have hcstr := weight_cstr_le (text ++ x)
  rw [weight_append] at hcstr
  rw [endOperator, htype]
  dsimp only
  split
  · rw [Stays, size_of_none (by exact hnext)]
    dsimp only
    rw [load_push hcollected.nexttoken, weight_append]
    have hv := weight_cstr_le v
    omega
  · rw [Stays, size_of_none (by exact hnext)]
    dsimp only
    have hle : (L.scan.pushtoken tok v).load ≤ w := load_pushtoken_le (fun _ => by omega) (by omega)
    omega

/-- `operator ()` and `operator []`. -/
theorem operatorPair_spec {w : ℕ} (hmark : ¬CutOff s) (hnext : L.nextToken = none) (hload : 2 * s.load ≤ w)
    (close : Token) (u : List Byte) : ∃ r, (do
      let (nexttok, scan) ← ofScanner s.token
      let L := { L with scan }
      if nexttok ≠ close then return .again (L.swigError badOperator)
      else return .token .operator { L with yylval := .str u } : Except Halt (Lexed Lexer)) = .ok r ∧ Stays w r := by
  obtain ⟨tok, s', htoken, hadvanced⟩ := exists_token hmark
  have hle := (load_of_none hadvanced.nexttoken).le.trans hadvanced.left
  have hread (L₁ : Lexer) (hnext₁ : L₁.nextToken = none) (hscan : L₁.scan.load ≤ s.load) : L₁.size ≤ w := by
    rw [size_of_none hnext₁]
    omega
  rw [htoken]
  simp only [ofScanner, bind, Except.bind]
  split
  · exact ⟨_, rfl, hread _ hnext hle⟩
  · exact ⟨_, rfl, hread _ hnext hle⟩

/-- The tokens behind `operator`. -/
theorem operatorName_spec {L₀ : Lexer} (hs : Sound L₀) (hid : L₀.scan.token = some (.id, L.scan))
    (hcpp : L₀.cplusplus) (htext : cstr L.scan.text = lit "operator") (hnext : L.nextToken = none)
    (hn : L.size < n) : ∃ r, operatorName n L = .ok r ∧ Stays L.size r := by
  have hbeyond : Beyond L₀.scan L.scan := .token .refl hid (by decide)
  obtain ⟨tok, s', htoken, hadvanced⟩ := exists_token (hs.mark _ hbeyond)
  have hsize : L.size = 2 * L.scan.load := size_of_none hnext
  have hread (L₁ : Lexer) (hnext₁ : L₁.nextToken = none) (hscan : L₁.scan.load ≤ L.scan.load) : L₁.size ≤ L.size := by
    rw [size_of_none hnext₁, hsize]
    omega
  have hload : s'.load ≤ L.scan.load := (load_of_none hadvanced.nexttoken).le.trans hadvanced.left
  rw [operatorName, htoken]
  simp only [ofScanner, bind, Except.bind]
  split
  · exact ⟨_, rfl, hread _ hnext hload⟩
  · cases tok with
    | lparen => exact operatorPair_spec (hs.mark _ (hbeyond.token htoken (by decide))) hnext (by omega) .rparen _
    | lbracket => exact operatorPair_spec (hs.mark _ (hbeyond.token htoken (by decide))) hnext (by omega) .rbracket _
    | id =>
        have hused := hadvanced.used (by rintro ⟨⟩)
        have hnone := load_of_none hadvanced.nexttoken
        obtain ⟨x, tok', v, s'', hloop, hcollected⟩ :=
          operatorLoop_spec (n := n) (hs.name _ _ hcpp hid htext htoken) true (lit "operator " ++ s'.text) (by omega)
        rw [hloop, List.append_assoc]
        refine ⟨_, rfl, ?_⟩
        rw [hsize]
        exact endOperator_spec (s := s') (L := { L with scan := s'' }) hcollected hnext (by omega)
    | _ => exact ⟨_, rfl, hread _ hnext hload⟩

/-! ### `yylex` -/

variable (istypedef : List Byte → Bool)

theorem stays_lookWord (h : L.size ≤ n) (yytext : List Byte) (words : List (List Byte × Word)) :
    Stays n (L.lookWord istypedef yytext words) := by
  rw [lookWord]
  cases words.lookup yytext with
  | none =>
      dsimp only
      rw [unknown]
      split <;> exact h
  | some w => cases w <;> exact h

/-- An identifier that was read in a round of `yylook`. -/
theorem identifier_spec {L₀ : Lexer} (hs : Sound L₀) (hid : L₀.scan.token = some (.id, L.scan))
    (hcpp : L.cplusplus = L₀.cplusplus) (hnext : L.nextToken = none) (hn : L.size < n) :
    ∃ r, L.identifier istypedef n = .ok r ∧ Stays L.size r := by
  have hword (w : Word) : Stays L.size (L.word w) := by cases w <;> exact le_rfl
  rw [identifier]
  split
  · cases typeWords.lookup (cstr L.scan.text) with
    | some w => exact ⟨_, rfl, hword w⟩
    | none =>
        dsimp only
        split
        · rename_i hplus
          cases cppWords.lookup (cstr L.scan.text) with
          | some w => exact ⟨_, rfl, hword w⟩
          | none =>
              dsimp only
              split
              · rename_i htext
                obtain ⟨r, hr, hstays⟩ := operatorName_spec hs hid (hcpp ▸ hplus) htext hnext hn
                rw [hr]
                cases r with
                | token l L' => exact ⟨_, rfl, hstays⟩
                | again L' => exact ⟨_, rfl, stays_lookWord istypedef hstays _ _⟩
              · exact ⟨_, rfl, stays_lookWord istypedef le_rfl _ _⟩
        · refine ⟨_, rfl, stays_lookWord istypedef ?_ _ _⟩
          split <;> exact le_rfl
  · exact ⟨_, rfl, stays_lookWord istypedef le_rfl _ _⟩

theorem yylexRound_spec (hs : L.nextToken = none → ∀ L', Looks L L' → Sound L') (hn : L.size < n) :
    ∃ r, L.yylexRound istypedef n = .ok r ∧ Goes L.size r := by
  rw [yylexRound]
  cases hnext : L.nextToken with
  | some l =>
      refine ⟨_, rfl, fun _ => ?_⟩
      rw [size, size, hnext]
      exact Nat.lt_succ_self _
  | none =>
      obtain ⟨l, L', hlook, hgoes, hid⟩ := yylook_spec (hs hnext) hnext hn
      dsimp only
      rw [hlook]
      simp only [bind, Except.bind]
      split
      · obtain ⟨L₀, hlooks, htoken, hnext', hcpp⟩ := hid rfl
        have hlt : L'.size < L.size := hgoes (by decide)
        obtain ⟨r, hr, hstays⟩ := identifier_spec istypedef (L := { L' with
          lastId := ParserToken.id = .nonid
          cparseStartLine := if L'.cparseStartLine = 0 then L'.cparseLine else L'.cparseStartLine })
          (hs hnext L₀ hlooks) htoken hcpp hnext' (hlt.trans hn)
        exact ⟨r, hr, hstays.goes hlt⟩
      · exact ⟨_, rfl, hgoes (by decide)⟩
      · split
        · exact ⟨_, rfl, hgoes⟩
        · exact ⟨_, rfl, hgoes⟩

/-! ### Runs -/

variable (caller : ParserToken → Lexer → Lexer)

/-- The lexer at the start of the rounds of a run: `caller` is what is done between two calls. -/
inductive Reached (L : Lexer) : Lexer → Prop
  | start : Reached L L
  | look {L₁ L₂ : Lexer} (h : Reached L L₁) (hnext : L₁.nextToken = none)
      (hround : L₁.yylookRound = .ok (.again L₂)) : Reached L L₂
  | again {L₁ L₂ : Lexer} {n : ℕ} (h : Reached L L₁) (hround : L₁.yylexRound istypedef n = .ok (.again L₂)) :
      Reached L L₂
  | call {L₁ L₂ : Lexer} {n : ℕ} {l : ParserToken} (h : Reached L L₁)
      (hround : L₁.yylexRound istypedef n = .ok (.token l L₂)) (hl : l ≠ .eof) : Reached L (caller l L₂)

/-- Calls one after the other, until one returns 0. -/
inductive ReceivesEof : Lexer → Prop
  | eof {L L' : Lexer} {n : ℕ} (h : L.yylex istypedef n = .ok (.eof, L')) : ReceivesEof L
  | token {L L' : Lexer} {n : ℕ} {l : ParserToken} (h : L.yylex istypedef n = .ok (l, L')) (hl : l ≠ .eof)
      (hrest : ReceivesEof (caller l L')) : ReceivesEof L

variable {istypedef caller}

theorem Reached.looks (h : Reached istypedef caller L L₁) (hnext : L₁.nextToken = none) (hlooks : Looks L₁ L₂) :
    Reached istypedef caller L L₂ := by
  induction hlooks with
  | refl => exact h
  | again hbefore hround _ ih => exact ih.look (hbefore.nextToken hnext) hround

/-- A call from a lexer that is reached returns. -/
theorem yylex_spec (hs : ∀ L', Reached istypedef caller L L' → L'.nextToken = none → Sound L')
    (h : Reached istypedef caller L L₁) (hn : L₁.size + 1 < n) : ∃ l L₂, L₁.yylex istypedef n = .ok (l, L₂) ∧
      (l ≠ .eof → L₂.size < L₁.size ∧ Reached istypedef caller L (caller l L₂)) := by
  induction n generalizing L₁ with
  | zero => omega
  | succ n ih =>
      have hsound (hnext : L₁.nextToken = none) (L' : Lexer) (hlooks : Looks L₁ L') : Sound L' :=
        hs L' (h.looks hnext hlooks) (hlooks.nextToken hnext)
      obtain ⟨r, hr, hgoes⟩ := yylexRound_spec istypedef hsound (n := n) (by omega)
      rw [yylex, hr]
      cases r with
      | token l L₂ => exact ⟨l, L₂, rfl, fun hl => ⟨hgoes hl, h.call hr hl⟩⟩
      | again L₂ =>
          have hlt : L₂.size < L₁.size := hgoes
          obtain ⟨l, L₃, hlex, hrest⟩ := ih (h.again hr) (by omega)
          exact ⟨l, L₃, hlex, fun hl => ⟨(hrest hl).1.trans hlt, (hrest hl).2⟩⟩

/-- When every round finds the end of an operator name, and no number cut off and no error behind `::`,
every call returns, and the caller receives 0. -/
theorem yylex_ends (hcaller : ∀ l L, (caller l L).size ≤ L.size)
    (hs : ∀ L', Reached istypedef caller L L' → L'.nextToken = none → Sound L') :
    (∀ L', Reached istypedef caller L L' → ∃ rounds, ∀ fuel ≥ rounds, ∃ l L'', L'.yylex istypedef fuel = .ok (l, L'')) ∧
      ReceivesEof istypedef caller L := by
  refine ⟨fun L' h => ⟨L'.size + 2, fun fuel hfuel => ?_⟩, ?_⟩
  · obtain ⟨l, L'', hlex, -⟩ := yylex_spec hs h (n := fuel) (by omega)
    exact ⟨l, L'', hlex⟩
  · have hrun (k : ℕ) : ∀ L', L'.size ≤ k → Reached istypedef caller L L' → ReceivesEof istypedef caller L' := by
      induction k with
      | zero =>
          intro L' hk h
          obtain ⟨l, L'', hlex, hrest⟩ := yylex_spec hs h (Nat.lt_succ_self _)
          by_cases hl : l = .eof
          · exact .eof (hl ▸ hlex)
          · have hlt := (hrest hl).1
            omega
      | succ k ih =>
          intro L' hk h
          obtain ⟨l, L'', hlex, hrest⟩ := yylex_spec hs h (Nat.lt_succ_self _)
          by_cases hl : l = .eof
          · exact .eof (hl ▸ hlex)
          · obtain ⟨hlt, hreached⟩ := hrest hl
            have hle := hcaller l L''
            exact .token hlex hl (ih _ (by omega) hreached)
    exact hrun _ L le_rfl .start

/-! ### At the end of the input -/

/-- The lexer at the start of a text. -/
def opened (text : List Byte) : Lexer where
  scan := { newScanner.push (.ofBytes text) with idstart := lit "%" }
  cplusplus := true
  numBrace := 0
  lastBrace := 0
  lastId := false
  renameActive := false
  expandingMacro := 0
  followLocators := false
  locs := []
  checkTypedef := false
  nextToken := none
  cparseLine := 1
  cparseStartLine := 0
  yylval := .unset
  warned := []

/-- Nothing is left of the input. -/
structure InputEnded (s : Scanner) : Prop where
  left : s.bytesLeft = []
  nexttoken : s.nexttoken = none

theorem InputEnded.token (h : InputEnded s) : ∃ s', s.token = some (.eof, s') ∧ InputEnded s' := by
  have hround : ∃ s', lookStep .s0 { s with startLine := s.line, text := [] } = some (.done .eof s') ∧
      InputEnded s' := by
    obtain ⟨c, s', hnext⟩ : ∃ c s', nextchar { s with startLine := s.line, text := [] } = (c, s') := ⟨_, _, rfl⟩
    rcases nextchar_cases hnext with htaken | ⟨rfl, hend⟩
    · have hleft : bytesLeft { s with startLine := s.line, text := [] } = [] := h.left
      cases hleft.symm.trans htaken.left
    · refine ⟨s', ?_, hend.left', hend.nexttoken.trans h.nexttoken⟩
      simp only [lookStep, hnext, reduceCtorEq, if_false, if_true]
  obtain ⟨s', hstep, hended⟩ := hround
  refine ⟨{ s' with textLine := if s'.startLine = 0 then s'.line else s'.startLine }, ?_, hended.left, hended.nexttoken⟩
  unfold Scanner.token
  split
  · rename_i t ht
    cases h.nexttoken.symm.trans ht
  · show (lookLoop (s.remaining + 1 + 1) .s0 { s with startLine := s.line, text := [] }).map _ = _
    rw [lookLoop, hstep]
    rfl

/-- The loop over the name of an operator is not left at the end of the input. -/
theorem InputEnded.operatorLoop (h : InputEnded s) (n : ℕ) (needspace : Bool) (t : List Byte) :
    operatorLoop n needspace t s = .error .rounds := by
  induction n generalizing s needspace t with
  | zero => rfl
  | succ n ih =>
      obtain ⟨s', htoken, hended⟩ := h.token
      rw [Lexer.operatorLoop, htoken]
      have hreported : InputEnded (reportEnd .eof s') := ⟨hended.left, hended.nexttoken⟩
      exact ih hreported false _

theorem InputEnded.identifier (h : InputEnded s) (htext : cstr L.scan.text = lit "operator") (hcpp : L.cplusplus = true)
    (htoken : L.scan.token = some (.id, s)) (n : ℕ) : L.identifier istypedef n = .error .rounds := by
  have hname : operatorName n L = .error .rounds := by
    rw [operatorName, htoken]
    show (Lexer.operatorLoop n true (lit "operator " ++ s.text) s).bind _ = _
    rw [h.operatorLoop]
    rfl
  have htype : typeWords.lookup (lit "operator") = none := rfl
  have hword : cppWords.lookup (lit "operator") = none := rfl
  have hid : (lit "operator").head? ≠ some (chr '%') := by decide
  rw [Lexer.identifier, htext]
  dsimp only
  rw [if_pos hid, htype]
  dsimp only
  rw [if_pos hcpp, hword]
  dsimp only
  rw [if_pos rfl, hname]
  rfl

/-- An input that ends in the name of an operator. -/
theorem not_yylex_returns : ¬∀ (istypedef : List Byte → Bool) (L : Lexer),
    ∃ fuel l L', L.yylex istypedef fuel = .ok (l, L') := by
  intro h
  obtain ⟨fuel, l, L', hlex⟩ := h (fun _ => false) (opened (lit "operator x"))
  have hread : ∃ L₁ s, (opened (lit "operator x")).yylookRound = .ok (.token .id L₁) ∧
      cstr L₁.scan.text = lit "operator" ∧ L₁.cplusplus = true ∧ L₁.scan.token = some (.id, s) ∧ InputEnded s :=
    ⟨_, _, rfl, rfl, rfl, rfl, rfl, rfl⟩
  obtain ⟨L₁, s, hround, htext, hcpp, htoken, hended⟩ := hread
  have hnever (n : ℕ) : (opened (lit "operator x")).yylexRound (fun _ => false) n = .error .rounds := by
    rw [yylexRound]
    show (yylook n (opened (lit "operator x"))).bind _ = _
    cases n with
    | zero => rfl
    | succ n =>
        rw [yylook, hround]
        exact hended.identifier (L := { L₁ with
          lastId := ParserToken.id = .nonid
          cparseStartLine := if L₁.cparseStartLine = 0 then L₁.cparseLine else L₁.cparseStartLine }) htext hcpp htoken _
  cases fuel with
  | zero => cases hlex
  | succ n =>
      rw [yylex, hnever n] at hlex
      cases hlex

/-- A lexer with nothing left to return. -/
structure Ended (L : Lexer) : Prop where
  scan : InputEnded L.scan
  nextToken : L.nextToken = none

theorem Ended.yylookRound (h : Ended L) : ∃ L₁, L.yylookRound = .ok (.token .eof L₁) := by
  obtain ⟨s', htoken, -⟩ := h.scan.token
  rw [Lexer.yylookRound, htoken]
  exact ⟨_, rfl⟩

theorem Ended.yylexRound (h : Ended L) (hround : L.yylexRound istypedef n = .ok r) : ∃ L₁, r = .token .eof L₁ := by
  obtain ⟨L₁, hlook⟩ := h.yylookRound
  rw [Lexer.yylexRound, h.nextToken] at hround
  cases n with
  | zero => cases hround
  | succ n =>
      dsimp only at hround
      rw [yylook, hlook] at hround
      cases hround
      exact ⟨_, rfl⟩

theorem Ended.sound (h : Ended L) : Sound L := by
  obtain ⟨s', htoken, hended⟩ := h.scan.token
  have hbeyond (s : Scanner) (hs : Beyond L.scan s) : s = L.scan := by
    induction hs with
    | refl => rfl
    | token _ ht htok ih =>
        subst ih
        cases htoken.symm.trans ht
        exact absurd rfl htok.1
  refine ⟨fun s hs hcut => ?_, fun s s'' ht => ?_, fun s s'' _ ht => ?_⟩
  · obtain rfl := hbeyond s hs
    cases htoken.symm.trans (token_of_endsInMark hcut.1 hcut.2)
  · cases htoken.symm.trans ht
  · cases htoken.symm.trans ht

/-- The token `;` and the end. -/
theorem yylex_ends_semi : ReceivesEof (fun _ => false) (fun _ L => L) (opened (lit ";")) := by
  have hread : ∃ L₁ s, (opened (lit ";")).yylookRound = .ok (.token .semi L₁) ∧ Ended L₁ ∧
      (opened (lit ";")).scan.token = some (.semi, s) ∧ InputEnded s := ⟨_, _, rfl, ⟨⟨rfl, rfl⟩, rfl⟩, rfl, ⟨rfl, rfl⟩⟩
  obtain ⟨L₁, s, hlook, hended, htoken, hs⟩ := hread
  have hround {n : ℕ} {r : Lexed Lexer} (h : (opened (lit ";")).yylexRound (fun _ => false) n = .ok r) :
      ∃ L₂, r = .token .semi L₂ ∧ Ended L₂ := by
    rw [Lexer.yylexRound] at h
    cases n with
    | zero => cases h
    | succ n =>
        have h : (yylook (n + 1) (opened (lit ";"))).bind _ = _ := h
        rw [yylook, hlook] at h
        cases h
        exact ⟨_, rfl, hended.scan, hended.nextToken⟩
  have hreached (L' : Lexer) (h : Reached (fun _ => false) (fun _ L => L) (opened (lit ";")) L') :
      L' = opened (lit ";") ∨ Ended L' := by
    induction h with
    | start => exact .inl rfl
    | look _ _ hagain ih =>
        rcases ih with rfl | ih
        · cases hlook.symm.trans hagain
        · obtain ⟨L₂, hlook⟩ := ih.yylookRound
          cases hlook.symm.trans hagain
    | again _ hagain ih =>
        rcases ih with rfl | ih
        · obtain ⟨L₂, hsemi, -⟩ := hround hagain
          cases hsemi
        · obtain ⟨L₂, heof⟩ := ih.yylexRound hagain
          cases heof
    | call _ hcall hl ih =>
        rcases ih with rfl | ih
        · obtain ⟨L₂, hsemi, hended⟩ := hround hcall
          cases hsemi
          exact .inr hended
        · obtain ⟨L₂, heof⟩ := ih.yylexRound hcall
          cases heof
          exact absurd rfl hl
  refine (yylex_ends (fun _ _ => le_rfl) fun L' h hnext => ?_).2
  rcases hreached L' h with rfl | hended
  · refine ⟨fun s' hbeyond hcut => ?_, fun s' s'' ht => ?_, fun s' s'' _ ht => ?_⟩
    · have hsome : s'.token ≠ none := by
        clear hcut
        have hcases : s' = (opened (lit ";")).scan ∨ InputEnded s' := by
          induction hbeyond with
          | refl => exact .inl rfl
          | token _ ht htok ih =>
              rcases ih with rfl | ih
              · cases htoken.symm.trans ht
                exact .inr hs
              · obtain ⟨s₂, heof, -⟩ := ih.token
                cases heof.symm.trans ht
                exact absurd rfl htok.1
        rcases hcases with rfl | h
        · rw [htoken]
          exact nofun
        · obtain ⟨s₂, heof, -⟩ := h.token
          rw [heof]
          exact nofun
      exact hsome (token_eq_none_iff.mpr hcut)
    · cases htoken.symm.trans ht
    · cases htoken.symm.trans ht
  · exact hended.sound

end Lexer

end Swig.CParse
