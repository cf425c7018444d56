import Swig.Preprocessor.ParseRounds

/-!
The array `cond_lines` over whole texts: it holds the lines of the conditionals that are open,
which nothing keeps from being more than 256.
-/

namespace Swig.Preprocessor

variable {W : Type} {t : MacroTable W} {m : Macros W} {p q : Parser W}

/-! ### The open conditionals -/

/-- The open conditionals after a directive, by the line of their last `#if`, `#elif` or
`#else`, the innermost first. -/
def openAfter (open_ : List ℕ) : Conditional × ℕ → List ℕ
  | (.opening _, line) => line :: open_
  | (.else_, line) | (.elif, line) =>
      match open_ with
      | [] => []
      | _ :: outer => line :: outer
  | (.endif, _) => open_.tail

/-- The conditionals that the directives open and do not close. -/
def openLines (directives : List (Conditional × ℕ)) : List ℕ := directives.foldl openAfter []

theorem openLines_append (directives : List (Conditional × ℕ)) (d : Option (Conditional × ℕ)) :
    openLines (directives ++ d.toList) = d.elim (openLines directives) (openAfter (openLines directives)) := by
  cases d with
  | none => simp [openLines]
  | some d => simp [openLines, List.foldl_append]

/-- The array holds the lines of the open conditionals, the outermost first. -/
structure Stacked (p : Parser W) (open_ : List ℕ) : Prop where
  level : p.level = open_.length
  lines : p.condLines.toList.take p.level = open_.reverse

/-- The nesting is left as it is. -/
def SameNesting (p q : Parser W) : Prop := q.level = p.level ∧ q.condLines = p.condLines

theorem Stacked.same {open_ : List ℕ} (h : Stacked p open_) (hq : SameNesting p q) : Stacked q open_ := by
  obtain ⟨hlevel, hlines⟩ := hq
  exact ⟨hlevel.trans h.level, by rw [hlevel, hlines, h.lines]⟩

theorem sameNesting_addChunk (m : Macros W) (p : Parser W) : SameNesting p (addChunk m p) := by
  unfold addChunk
  split <;> exact ⟨rfl, rfl⟩

theorem sameNesting_evaluate (m : Macros W) (d : Directive) (p : Parser W) : SameNesting p (evaluate m d p).2 := by
  simp only [evaluate]
  split
  · split <;> exact ⟨rfl, rfl⟩
  · exact ⟨rfl, rfl⟩

theorem sameNesting_opening (m : Macros W) (o : Opening) (d : Directive) (p : Parser W) :
    SameNesting p (o.evaluate m d p).2 := by
  cases o with
  | ifdef => exact ⟨rfl, rfl⟩
  | ifndef => exact ⟨rfl, rfl⟩
  | if_ => exact sameNesting_evaluate m d p

/-! ### One directive -/

theorem setCondLine_eq_some {i line : ℕ} (h : p.setCondLine i line = some q) :
    i < 256 ∧ q.level = p.level ∧ q.condLines.toList = p.condLines.toList.set i line := by
  unfold Parser.setCondLine at h
  split at h
  · cases h
    exact ⟨‹_›, rfl, by rw [Vector.toList_set]⟩
  · cases h

theorem take_set_last {xs : List ℕ} {i x : ℕ} (hi : i < xs.length) :
    (xs.set i x).take (i + 1) = xs.take i ++ [x] := by
  rw [List.take_succ_eq_append_getElem (by simpa using hi), List.take_set_of_le (Nat.le_refl i)]
  simp

theorem take_init {xs ys : List ℕ} {x : ℕ} (h : xs.take (ys.length + 1) = ys ++ [x]) : xs.take ys.length = ys := by
  have htake := congrArg (List.take ys.length) h
  rw [List.take_take, min_eq_left (Nat.le_succ _)] at htake
  rw [htake, List.take_left]

/-- Writing the line of the innermost conditional. -/
theorem Stacked.setTop {line l : ℕ} {outer : List ℕ} (h : Stacked p (l :: outer))
    (hq : p.setCondLine (p.level - 1) line = some q) : Stacked q (line :: outer) := by
  obtain ⟨hi, hlevel, hlines⟩ := setCondLine_eq_some hq
  have hlen := h.level
  have htake := h.lines
  rw [List.length_cons] at hlen
  rw [hlen, List.reverse_cons, ← List.length_reverse] at htake
  have hshort := take_init htake
  rw [List.length_reverse] at hshort
  refine ⟨by rw [hlevel, hlen, List.length_cons], ?_⟩
  rw [hlevel, hlines, hlen, Nat.add_sub_cancel, take_set_last (by rw [Vector.length_toList]; omega), hshort,
    List.reverse_cons]

theorem Stacked.conditional {open_ : List ℕ} {k : Conditional} {d : Directive} {r : Parser W × List Event}
    (h : Stacked p open_) (hr : parseConditional m k d p = some r) : Stacked r.1 (openAfter open_ (k, d.line)) := by
  cases k with
  | opening o =>
      obtain ⟨q, hq, hr⟩ := Option.bind_eq_some_iff.mp hr
      obtain ⟨hi, hlevel, hlines⟩ := setCondLine_eq_some hq
      have hopen : Stacked { q with level := q.level + 1 } (d.line :: open_) := by
        refine ⟨by dsimp only; rw [hlevel, h.level, List.length_cons], ?_⟩
        dsimp only
        rw [hlevel, hlines, take_set_last (by rw [Vector.length_toList]; omega), h.lines, List.reverse_cons]
      dsimp only at hr
      split at hr
      · cases hr
        have hsame := sameNesting_opening m o d { q with level := q.level + 1 }
        exact hopen.same hsame
      · cases hr
        exact hopen
  | else_ =>
      simp only [parseConditional, parseElse] at hr
      split at hr
      · rename_i hzero
        cases hr
        obtain rfl := List.length_eq_zero_iff.mp (h.level.symm.trans hzero)
        exact h.same ⟨rfl, rfl⟩
      · rename_i hpos
        obtain ⟨q, hq, hr⟩ := Option.bind_eq_some_iff.mp hr
        obtain ⟨l, outer, rfl⟩ := List.exists_cons_of_ne_nil
          (show open_ ≠ [] from fun hnil => hpos (by rw [h.level, hnil]; rfl))
        have htop := h.setTop hq
        split at hr
        · cases hr
          exact htop.same ⟨rfl, rfl⟩
        · split at hr <;> cases hr
          · exact htop.same ⟨rfl, rfl⟩
          · exact htop
  | elif =>
      simp only [parseConditional, parseElif] at hr
      split at hr
      · rename_i hzero
        cases hr
        obtain rfl := List.length_eq_zero_iff.mp (h.level.symm.trans hzero)
        exact h.same ⟨rfl, rfl⟩
      · rename_i hpos
        obtain ⟨q, hq, hr⟩ := Option.bind_eq_some_iff.mp hr
        obtain ⟨l, outer, rfl⟩ := List.exists_cons_of_ne_nil
          (show open_ ≠ [] from fun hnil => hpos (by rw [h.level, hnil]; rfl))
        have htop := h.setTop hq
        split at hr
        · cases hr
          exact htop.same ⟨rfl, rfl⟩
        · split at hr <;> cases hr
          · exact htop.same (sameNesting_evaluate m d q)
          · exact htop
  | endif =>
      have hclose {r : Parser W} {level : ℕ} (hlevel : p.level = level + 1) (hr : r.level = level)
          (hlines : r.condLines = p.condLines) : Stacked r open_.tail := by
        obtain ⟨l, outer, rfl⟩ := List.exists_cons_of_ne_nil
          (show open_ ≠ [] from fun hnil => by have := h.level; rw [hnil, hlevel] at this; cases this)
        have hlen : level = outer.length := Nat.succ.inj (hlevel.symm.trans h.level)
        have htake := h.lines
        rw [hlevel, hlen, List.reverse_cons, ← List.length_reverse] at htake
        have hshort := take_init htake
        rw [List.length_reverse] at hshort
        exact ⟨hr.trans hlen, by rw [hr, hlen, hlines, hshort, List.tail_cons]⟩
      simp only [parseConditional, parseEndif] at hr
      split at hr
      · rename_i hzero
        cases hr
        obtain rfl := List.length_eq_zero_iff.mp (h.level.symm.trans hzero)
        exact h.same ⟨rfl, rfl⟩
      · rename_i level hlevel
        split at hr <;> cases hr
        · exact hclose hlevel rfl rfl
        · exact hclose hlevel rfl rfl

/-! ### One round -/

open ParseState

namespace Locals

/-- The conditional that ends at this character, with the line it starts on. -/
def conditionalRead (p : Locals W) (c : Byte) : Option (Conditional × ℕ) :=
  (p.ended c).bind fun (q, _) => (conditional? q.id).map fun k => (k, q.idLine)

variable {p q : Locals W} {c : Byte} {open_ : List ℕ}

theorem directive_stacked (h : Stacked p.toParser open_) (hq : p.directive t = some q) :
    Stacked q.toParser (((conditional? p.id).map fun k => (k, p.idLine)).elim open_ (openAfter open_)) := by
  rw [directive] at hq
  split at hq
  · rename_i hid
    cases hq
    rw [hid, show conditional? (lit "define") = none by decide]
    exact h.same ⟨rfl, rfl⟩
  · obtain ⟨r, hr, rfl⟩ := Option.map_eq_some_iff.mp hq
    rw [MacroTable.otherDirective] at hr
    cases hk : conditional? p.id with
    | some k =>
        rw [hk] at hr
        obtain ⟨r', hr', rfl⟩ := Option.map_eq_some_iff.mp hr
        have hstacked := h.conditional hr'
        exact hstacked.same ⟨rfl, rfl⟩
    | none =>
        rw [hk] at hr
        dsimp only at hr
        split at hr
        · split at hr
          · cases hr
          · cases hr
            exact h.same ⟨rfl, rfl⟩
        · cases hr
          exact h.same ⟨rfl, rfl⟩

theorem sameNesting_text (p : Locals W) (c : Byte) : SameNesting p.toParser (p.text c).toParser := by
  rw [text]
  split
  · exact ⟨rfl, rfl⟩
  · split
    · exact ⟨rfl, rfl⟩
    · split
      · exact ⟨rfl, rfl⟩
      · split <;> exact ⟨rfl, rfl⟩

theorem sameNesting_firstColumn (p : Locals W) (c : Byte) : SameNesting p.toParser (p.firstColumn t c).toParser := by
  rw [firstColumn]
  split
  · exact sameNesting_addChunk t.macros p.toParser
  · split
    · exact ⟨rfl, rfl⟩
    · exact sameNesting_text p c

theorem sameNesting_percent (p : Locals W) (c : Byte) : SameNesting p.toParser (p.percent t c).toParser := by
  have hflush := sameNesting_addChunk t.macros p.toParser
  rw [percent]
  split
  · exact hflush
  · split
    · exact hflush
    · split <;> exact ⟨rfl, rfl⟩

theorem sameNesting_defineEnd (p : Locals W) (w : List Byte) (c : Byte) :
    SameNesting p.toParser (p.defineEnd t w c).toParser := by
  rw [defineEnd]
  split
  · split
    · exact ⟨rfl, rfl⟩
    · split
      · exact sameNesting_firstColumn (({ p with dlevel := p.dlevel - 1 } : Locals W).endDefine t) c
      · exact ⟨rfl, rfl⟩
  · exact ⟨rfl, rfl⟩

theorem sameNesting_swigName (h : p.swigName t c = some q) : SameNesting p.toParser q.toParser := by
  rw [swigName] at h
  split at h
  · cases h
    exact ⟨rfl, rfl⟩
  · split at h
    · split at h <;> cases h
      exact sameNesting_text p c
    · split at h
      · cases h
        exact sameNesting_text p c
      · split at h <;> cases h
        · exact sameNesting_addChunk t.macros p.toParser
        · exact sameNesting_text { p with chunk := p.chunk ++ p.decl } c

/-- The value of a directive is read on, up to a newline. -/
theorem readValue_eq_some (h : p.readValue t c = some q) :
    (c = chr '\n' → p.directive t = some q) ∧ (c ≠ chr '\n' → SameNesting p.toParser q.toParser) := by
  rw [readValue] at h
  split at h
  · exact ⟨fun _ => h, fun hc => absurd ‹_› hc⟩
  · refine ⟨fun hc => absurd hc ‹_›, fun _ => ?_⟩
    split at h
    · cases h
      exact ⟨rfl, rfl⟩
    · split at h <;> cases h <;> exact ⟨rfl, rfl⟩

theorem beforeValue_eq_some (h : p.beforeValue t c = some q) :
    (c = chr '\n' → p.directive t = some q) ∧ (c ≠ chr '\n' → SameNesting p.toParser q.toParser) := by
  rw [beforeValue] at h
  split at h
  · split at h
    · exact ⟨fun _ => h, fun hc => absurd ‹_› hc⟩
    · cases h
      exact ⟨fun hc => absurd hc ‹_›, fun _ => ⟨rfl, rfl⟩⟩
  · exact readValue_eq_some h

theorem name_eq_some (h : p.name t c = some q) :
    (c = chr '\n' → { p with value := [], comment := [] }.directive t = some q) ∧
      (c ≠ chr '\n' → SameNesting p.toParser q.toParser) := by
  rw [name] at h
  split at h
  · dsimp only at h
    split at h
    · exact ⟨fun _ => h, fun hc => absurd ‹_› hc⟩
    · refine ⟨fun hc => absurd hc ‹_›, fun hc => ?_⟩
      split at h
      · cases h
        exact ⟨rfl, rfl⟩
      · exact (beforeValue_eq_some h).2 hc
  · rename_i hletter
    cases h
    refine ⟨?_, fun _ => ⟨rfl, rfl⟩⟩
    rintro rfl
    exact absurd rfl hletter

/-- What a round makes of the open conditionals. -/
theorem dispatch_stacked (h : Stacked p.toParser open_) (hq : p.dispatch t c = some q) :
    Stacked q.toParser ((p.conditionalRead c).elim open_ (openAfter open_)) := by
  -- in most states no directive ends
  have hquiet {s : ParseState} (hstate : p.state = s) (hs : s ∉ ParseState.ending)
      (hsame : SameNesting p.toParser q.toParser) :
      Stacked q.toParser ((p.conditionalRead c).elim open_ (openAfter open_)) := by
    rw [conditionalRead, not_ended hstate hs]
    exact h.same hsame
  have hends {r : Locals W} {extra : ℕ} (hending : p.ending = some (r, extra)) (hr : Stacked r.toParser open_)
      (hq : (c = chr '\n' → r.directive t = some q) ∧ (c ≠ chr '\n' → SameNesting p.toParser q.toParser)) :
      Stacked q.toParser ((p.conditionalRead c).elim open_ (openAfter open_)) := by
    rw [conditionalRead, ended, hending]
    split
    · exact directive_stacked hr (hq.1 ‹_›)
    · exact h.same (hq.2 ‹_›)
  rw [dispatch] at hq
  cases hstate : p.state with
  | firstColumn =>
      rw [hstate] at hq
      cases hq
      exact hquiet hstate (by decide) (sameNesting_firstColumn p c)
  | text =>
      rw [hstate] at hq
      cases hq
      exact hquiet hstate (by decide) (sameNesting_text p c)
  | literal ch =>
      rw [hstate] at hq
      cases hq
      exact hquiet hstate (by simp [ParseState.ending]) ⟨rfl, rfl⟩
  | literalEscape ch =>
      rw [hstate] at hq
      cases hq
      exact hquiet hstate (by simp [ParseState.ending]) ⟨rfl, rfl⟩
  | slash | lineComment | blockComment | blockStar | block | embeddedEscape | define =>
      rw [hstate] at hq
      cases hq
      exact hquiet hstate (by decide) ⟨rfl, rfl⟩
  | hash =>
      rw [hstate] at hq
      refine hquiet hstate (by decide) ?_
      dsimp only at hq
      rw [hash] at hq
      split at hq
      · cases hq
        exact ⟨rfl, rfl⟩
      · split at hq
        · cases hq
          exact ⟨rfl, rfl⟩
        · exact (name_eq_some (p := { p with id := [], idLine := p.line }) hq).2 ‹_›
  | name =>
      rw [hstate] at hq
      exact hends (r := { p with value := [], comment := [] }) (by rw [Locals.ending, hstate])
        (h.same ⟨rfl, rfl⟩) (name_eq_some hq)
  | beforeValue =>
      rw [hstate] at hq
      exact hends (by rw [Locals.ending, hstate]) h (beforeValue_eq_some hq)
  | value =>
      rw [hstate] at hq
      exact hends (by rw [Locals.ending, hstate]) h (readValue_eq_some hq)
  | valueLiteral ch =>
      rw [hstate] at hq
      cases hq
      exact hquiet hstate (by simp [ParseState.ending]) ⟨rfl, rfl⟩
  | valueLiteralEscape ch =>
      rw [hstate] at hq
      cases hq
      exact hquiet hstate (by simp [ParseState.ending]) ⟨rfl, rfl⟩
  | valueEscape =>
      rw [hstate] at hq
      refine hquiet hstate (by decide) ?_
      dsimp only at hq
      rw [valueEscape] at hq
      split at hq
      · cases hq
        exact ⟨rfl, rfl⟩
      · exact (readValue_eq_some hq).2 ‹_›
  | valueSlash =>
      rw [hstate] at hq
      refine hends (r := { p.putValue (chr '/') with cppLines := p.cppLines + 1 })
        (by rw [Locals.ending, hstate]) (h.same ⟨rfl, rfl⟩) ?_
      dsimp only at hq
      rw [valueSlash] at hq
      split at hq
      · rename_i hc
        cases hq
        exact ⟨fun hn => absurd (hc.symm.trans hn) (by decide), fun _ => ⟨rfl, rfl⟩⟩
      · split at hq
        · rename_i hc
          cases hq
          exact ⟨fun hn => absurd (hc.symm.trans hn) (by decide), fun _ => ⟨rfl, rfl⟩⟩
        · split at hq
          · exact ⟨fun _ => hq, fun hc => absurd ‹_› hc⟩
          · cases hq
            exact ⟨fun hn => absurd hn ‹_›, fun _ => ⟨rfl, rfl⟩⟩
  | valueLineComment =>
      rw [hstate] at hq
      refine hends (r := { p with cppLines := p.cppLines + 1 }) (by rw [Locals.ending, hstate])
        (h.same ⟨rfl, rfl⟩) ?_
      dsimp only at hq
      rw [valueLineComment] at hq
      split at hq
      · exact ⟨fun _ => hq, fun hc => absurd ‹_› hc⟩
      · cases hq
        exact ⟨fun hn => absurd hn ‹_›, fun _ => ⟨rfl, rfl⟩⟩
  | valueBlockComment =>
      rw [hstate] at hq
      refine hquiet hstate (by decide) ?_
      dsimp only at hq
      split at hq <;> cases hq <;> exact ⟨rfl, rfl⟩
  | valueBlockStar =>
      rw [hstate] at hq
      cases hq
      refine hquiet hstate (by decide) ?_
      rw [valueBlockStar]
      split
      · exact ⟨rfl, rfl⟩
      · split <;> exact ⟨rfl, rfl⟩
  | percent =>
      rw [hstate] at hq
      cases hq
      exact hquiet hstate (by decide) (sameNesting_percent p c)
  | blockPercent | embedded =>
      rw [hstate] at hq
      refine hquiet hstate (by decide) ?_
      dsimp only at hq
      split at hq <;> cases hq <;> exact ⟨rfl, rfl⟩
  | swigName =>
      rw [hstate] at hq
      exact hquiet hstate (by decide) (sameNesting_swigName hq)
  | defineWord w =>
      rw [hstate] at hq
      cases hq
      exact hquiet hstate (by simp [ParseState.ending]) ⟨rfl, rfl⟩
  | defineEnd w =>
      rw [hstate] at hq
      cases hq
      exact hquiet hstate (by simp [ParseState.ending]) (sameNesting_defineEnd p w c)

theorem conditionalRead_line (p : Locals W) (line : ℕ) (c : Byte) :
    ({ p with line := line } : Locals W).conditionalRead c = p.conditionalRead c := by
  rw [conditionalRead, conditionalRead, ended_line]
  cases p.ended c <;> rfl

theorem step_stacked (h : Stacked p.toParser open_) (hq : p.step t c = some q) :
    Stacked q.toParser ((p.conditionalRead c).elim open_ (openAfter open_)) := by
  have hdispatch := dispatch_stacked (p := { p with line := p.line + if c = chr '\n' then 1 else 0 }) h hq
  rwa [conditionalRead_line] at hdispatch

/-- The indices into `cond_lines` that the round uses. -/
def condIndices (p : Locals W) (c : Byte) : List ℤ :=
  match p.conditionalRead c with
  | some (.opening _, _) => [(p.level : ℤ)]
  | some (.else_, _) | some (.elif, _) => if p.level = 0 then [] else [(p.level : ℤ) - 1]
  | some (.endif, _) | none => []

/-- The conditional in whose line the text ends: nothing is done about it. -/
def conditionalLeft (p : Locals W) : Option (Conditional × ℕ) :=
  if p.state = .name ∨ p.state.inValue then (conditional? p.id).map fun k => (k, p.idLine) else none

end Locals

/-! ### A whole text -/

open Locals Ledger

/-- What is made of a file that is included: the locals afterwards, and the text still to be
read. The file is parsed by a call of its own, with its own nesting. -/
structure Inclusion (W : Type) where
  after : Locals W → Byte → List Byte → Locals W × List Byte
  same : ∀ p c s, SameNesting p.toParser (after p c s).1.toParser
  suffix : ∀ p c s, (after p c s).2 <:+ c :: s

variable (t) in
/-- The rounds from one state of the loop and the text in front of it to another, with the
conditionals that are read on the way. -/
inductive Rounds (incl : Inclusion W) :
    Locals W → List Byte → List (Conditional × ℕ) → Locals W → List Byte → Prop
  | refl (p : Locals W) (s : List Byte) : Rounds incl p s [] p s
  | read {p q r : Locals W} {c : Byte} {s rest : List Byte} {ds : List (Conditional × ℕ)}
      (hstep : p.step t c = some q) (hrest : Rounds incl q s ds r rest) :
      Rounds incl p (c :: s) ((p.conditionalRead c).toList ++ ds) r rest
  | include_ {p r : Locals W} {c : Byte} {s rest : List Byte} {ds : List (Conditional × ℕ)}
      (hfollows : p.Follows t c) (hrest : Rounds incl (incl.after p c s).1 (incl.after p c s).2 ds r rest) :
      Rounds incl p (c :: s) ds r rest

theorem Rounds.stacked {incl : Inclusion W} {p r : Locals W} {s rest : List Byte} {ds : List (Conditional × ℕ)}
    {open_ : List ℕ} (h : Rounds t incl p s ds r rest) (hp : Stacked p.toParser open_) :
    Stacked r.toParser (ds.foldl openAfter open_) := by
  induction h generalizing open_ with
  | refl p s => exact hp
  | @read p q r c s rest ds hstep _ ih =>
      have hq := step_stacked hp hstep
      cases hread : p.conditionalRead c with
      | none =>
          rw [hread] at hq
          exact ih hq
      | some d =>
          rw [hread] at hq
          exact ih hq
  | @include_ p r c s rest ds _ _ ih => exact ih (hp.same (incl.same p c s))

theorem stacked_start (w : W) (line : ℕ) : Stacked (start w line).toParser [] := ⟨rfl, rfl⟩

theorem Stacked.level_le {open_ : List ℕ} (h : Stacked p open_) : p.level ≤ 256 := by
  have hlen := congrArg List.length h.lines
  rw [List.length_take, Vector.length_toList, List.length_reverse, ← h.level] at hlen
  omega

/-- The report of a conditional that is left open. -/
def missingEndif (line : ℕ) : Diagnostic :=
  .error (-1) (lit "Missing #endif for conditional starting on line " ++ lit (toString line) ++ lit "\n")

/-- The indices into `cond_lines` that the last loop uses. -/
def missingIndices (p : Parser W) : List ℤ := (List.range p.level).reverse.map fun i : ℕ => (i : ℤ)

variable (t) in
/-- What is asked of a state with the text in front of it: `cond_lines` is not left, and at the end
of the text every conditional that is open is reported once. -/
def Inside (ds : List (Conditional × ℕ)) (p : Locals W) : List Byte → Prop
  | c :: _ => ∀ i ∈ p.condIndices c, 0 ≤ i ∧ i ≤ 255
  | [] => (∀ i ∈ missingIndices p.toParser, 0 ≤ i ∧ i ≤ 255) ∧
      ∃ lines : List ℕ, (finish t.macros p.toParser).diagnostics = p.diagnostics ++ lines.map missingEndif ∧
        lines.length = (openLines (ds ++ p.conditionalLeft.toList)).length

/-- No more than 256 conditionals are open, and the text does not end in the line of a directive
that opens or closes one. -/
def InBounds (ds : List (Conditional × ℕ)) (p : Locals W) : List Byte → Prop
  | c :: _ => (openLines (ds ++ (p.conditionalRead c).toList)).length ≤ 256
  | [] => (openLines (ds ++ p.conditionalLeft.toList)).length = (openLines ds).length

theorem Stacked.finish {open_ : List ℕ} (h : Stacked p open_) (m : Macros W) :
    (Preprocessor.finish m p).diagnostics = p.diagnostics ++ open_.map missingEndif := by
  have hdiag (q : Parser W) : (addChunk m q).diagnostics = q.diagnostics := by
    unfold addChunk
    split <;> rfl
  unfold Preprocessor.finish
  dsimp only
  rw [hdiag, h.lines, List.reverse_reverse]
  rfl

/-- The round leaves `cond_lines` exactly if it opens a conditional behind 256 that are open. -/
theorem condIndices_inside_iff {ds : List (Conditional × ℕ)} {p : Locals W} {c : Byte}
    (h : Stacked p.toParser (openLines ds)) :
    (∀ i ∈ p.condIndices c, 0 ≤ i ∧ i ≤ 255) ↔ (openLines (ds ++ (p.conditionalRead c).toList)).length ≤ 256 := by
  have hle := h.level_le
  have hlevel := h.level
  rw [openLines_append, condIndices]
  have hreplace : p.level ≠ 0 → ∃ l outer, openLines ds = l :: outer := fun hpos =>
    List.exists_cons_of_ne_nil fun hnil => hpos (by rw [hlevel, hnil]; rfl)
  cases p.conditionalRead c with
  | none => simpa using (hlevel.symm.le.trans hle)
  | some d =>
      obtain ⟨k, line⟩ := d
      cases k with
      | opening o =>
          simp only [List.mem_singleton, forall_eq, Option.elim_some, openAfter, List.length_cons]
          omega
      | else_ | elif =>
          dsimp only [Option.elim_some]
          by_cases hzero : p.level = 0
          · rw [if_pos hzero]
            refine iff_of_true nofun ?_
            rw [List.length_eq_zero_iff.mp (hlevel.symm.trans hzero)]
            exact Nat.zero_le _
          · obtain ⟨l, outer, houter⟩ := hreplace hzero
            rw [houter, List.length_cons] at hlevel
            rw [if_neg hzero, houter, openAfter, List.length_cons]
            simp only [List.mem_singleton, forall_eq]
            omega
      | endif =>
          refine iff_of_true nofun ?_
          rw [Option.elim_some, openAfter, List.length_tail]
          omega

/-- The array is not left, and every conditional left open is reported once, exactly if never
more than 256 conditionals are open and the last line is no unfinished directive that opens or
closes one. -/
theorem condLines_inside_iff (t : MacroTable W) (incl : Inclusion W) (w : W) (line : ℕ) (s : List Byte) :
    (∀ ds p rest, Rounds t incl (start w line) (dropReturns s) ds p rest → Inside t ds p rest) ↔
      ∀ ds p rest, Rounds t incl (start w line) (dropReturns s) ds p rest → InBounds ds p rest := by
  refine forall₄_congr fun ds p rest hrounds => ?_
  have hp : Stacked p.toParser (openLines ds) := hrounds.stacked (stacked_start w line)
  cases rest with
  | cons c rest => exact condIndices_inside_iff hp
  | nil =>
      have hfinish := hp.finish t.macros
      constructor
      · rintro ⟨-, lines, hlines, hlength⟩
        rw [hfinish, List.append_cancel_left_eq] at hlines
        have heq := congrArg List.length hlines
        rw [List.length_map, List.length_map] at heq
        exact hlength.symm.trans heq.symm
      · intro hlength
        refine ⟨?_, openLines ds, hfinish, hlength.symm⟩
        have hle := hp.level_le
        intro i hi
        obtain ⟨k, hk, rfl⟩ := List.mem_map.mp hi
        rw [List.mem_reverse, List.mem_range] at hk
        omega

/-! ### 257 conditionals -/

/-- Files that are left out. -/
def noFiles : Inclusion Unit where
  after p _ s := (p, s)
  same _ _ _ := ⟨rfl, rfl⟩
  suffix _ c s := List.suffix_cons c s

theorem rounds_of_run {incl : Inclusion W} {p q : Locals W} {xs : List Byte}
    (h : Ledger.run (Locals.step t) p xs = some q) (rest : List Byte) : ∃ ds, Rounds t incl p (xs ++ rest) ds q rest := by
  induction xs generalizing p with
  | nil =>
      cases h
      exact ⟨[], .refl _ rest⟩
  | cons c xs ih =>
      obtain ⟨r, hr, h⟩ := (Ledger.run_cons c).mp h
      obtain ⟨ds, hds⟩ := ih h
      exact ⟨_, .read hr hds⟩

/-- `#ifdef A`, 257 times. -/
def deeplyNested : List Byte := (List.replicate 257 (lit "#ifdef A\n")).flatten

/-- The 257th conditional is written behind the array. -/
theorem condLines_left :
    ¬ ∀ ds p rest, Rounds noMacros noFiles (start () 1) (dropReturns deeplyNested) ds p rest →
      Inside noMacros ds p rest := by
  have hsplit : dropReturns deeplyNested = deeplyNested.dropLast ++ [chr '\n'] := by decide +kernel
  have hrun : (Ledger.run (Locals.step noMacros) (start () 1) deeplyNested.dropLast).map
      (fun p => (p.level, p.conditionalRead (chr '\n'))) = some (256, some (.opening .ifdef, 257)) := by
    decide +kernel
  obtain ⟨p, hp, heq⟩ := Option.map_eq_some_iff.mp hrun
  obtain ⟨hlevel, hread⟩ := Prod.mk.inj heq
  obtain ⟨ds, hds⟩ : ∃ ds, Rounds noMacros noFiles (start () 1) (deeplyNested.dropLast ++ [chr '\n']) ds p
      [chr '\n'] := rounds_of_run hp _
  rw [hsplit]
  intro h
  have hinside := h ds p [chr '\n'] hds
  rw [Inside, condIndices, hread] at hinside
  have := hinside p.level (List.mem_singleton.mpr rfl)
  omega

end Swig.Preprocessor
