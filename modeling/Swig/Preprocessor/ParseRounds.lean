import Swig.Preprocessor.ParseLines

/-!
The rounds of `Preprocessor_parse`, and from them what becomes of the newlines of a
whole text.
-/

namespace Swig.Preprocessor

open ParseState

variable {W : Type} {t : MacroTable W}

namespace Locals

variable {p q : Locals W} {n : ℕ} {c : Byte}

/-! ### A round -/

theorem loss_of_not_flushing {s : ParseState} (hstate : p.state = s) (hs : s ∉ flushing) :
    p.loss t c = (p.ended c).elim 0 fun (q, extra) => q.directiveLoss t extra := by
  simp only [flushing, List.mem_cons, List.not_mem_nil, or_false, not_or] at hs
  obtain ⟨h1, h2, h3, h4, h5, h6⟩ := hs
  have hflushes : ¬ p.Flushes c := by
    rw [Flushes, hstate]
    simp [h1, h2, h3]
  have hraw : ¬ p.FlushesRaw c := by
    rw [FlushesRaw, hstate]
    simp [h4, h5]
  have hdefine : ¬ p.EndsDefine c := by
    rw [EndsDefine, hstate]
    simp [h6]
  rw [loss, if_neg hflushes, if_neg hraw, if_neg hdefine]

theorem not_ended {s : ParseState} (hstate : p.state = s) (hs : s ∉ ParseState.ending) : p.ended c = none := by
  rw [ended, Locals.ending, hstate]
  split
  · cases s <;> first | rfl | exact absurd hs (by decide)
  · rfl

theorem gain_of_not_ended (h : p.ended c = none) : p.gain t c = 0 := by
  rw [gain, h]
  rfl

/-- In the other states nothing is settled. -/
theorem holds_quiet {s : ParseState} (hstate : p.state = s) (hflushing : s ∉ flushing)
    (hending : s ∉ ParseState.ending) (h : Holds q 0 n) : Holds q (p.loss t c) (n + p.gain t c) := by
  have hended : p.ended c = none := not_ended hstate hending
  rw [loss_of_not_flushing hstate hflushing, gain_of_not_ended hended, hended]
  exact h

theorem holds_ending {s : ParseState} {r : Locals W} {extra : ℕ} (hstate : p.state = s) (hs : s ∉ flushing)
    (hending : p.ending = some (r, extra)) (h : Holds q (lossAt t r extra c) (n + gainAt t r extra c)) :
    Holds q (p.loss t c) (n + p.gain t c) := by
  have hloss : p.loss t c = lossAt t r extra c := by
    rw [loss_of_not_flushing hstate hs, ended, lossAt, hending]
    split <;> rfl
  have hgain : p.gain t c = gainAt t r extra c := by
    rw [gain, ended, gainAt, hending]
    split <;> rfl
  rw [hloss, hgain]
  exact h

/-- What a round of the loop does to the newlines. -/
theorem dispatch_holds (hp : p.Sane) (hcalls : p.Flushes c → OneLineCalls t p.toParser)
    (h : p.dispatch t c = some q) :
    Holds q (p.loss t c) (p.collected + p.pending + weight c + p.gain t c) := by
  have houtside (hs : p.state.outside = true) : p.collected + p.pending = p.collected := by
    rw [pending, not_inValue hs, not_inDefine hs]
    rfl
  have hvalue (hs : p.state.inValue = true) :
      p.collected + p.pending = p.collected + (newlines p.value + newlines p.comment) := by
    rw [pending, if_pos hs]
  have hdefine (hs : p.state.inDefine = true) : p.collected + p.pending = p.collected + newlines p.value := by
    have hnot : p.state.inValue = false := by
      cases h : p.state <;> first | rfl | cases h ▸ hs
    rw [pending, hnot, if_pos hs]
    rfl
  have hput {s : ParseState} (hs : s.outside = true) (hout : p.state.outside = true) :
      Holds ((p.put c).goto s) 0 (p.collected + p.pending + weight c) := by
    rw [houtside hout]
    exact put_holds hs hp.level
  have hquiet {s : ParseState} (hs : p.state = s) (hflushing : s ∉ flushing) (hending : s ∉ ParseState.ending)
      (hq : Holds q 0 (p.collected + p.pending + weight c)) :
      Holds q (p.loss t c) (p.collected + p.pending + weight c + p.gain t c) := holds_quiet hs hflushing hending hq
  have hvalueLines := hp.value
  rw [dispatch] at h
  cases hstate : p.state with
  | firstColumn =>
      rw [hstate] at h houtside
      cases h
      have hflushes : p.Flushes c ↔ c = chr '#' := by simp [Flushes, hstate]
      have hended : p.ended c = none := not_ended hstate (by decide)
      have hloss : p.loss t c = if c = chr '#' then flushLoss t p.toParser else 0 := by
        simp [loss, hflushes, FlushesRaw, EndsDefine, hstate, hended]
      rw [hloss, gain_of_not_ended hended, houtside rfl]
      exact firstColumn_holds hp.level fun hc => hcalls (hflushes.mpr hc)
  | text =>
      rw [hstate] at h houtside
      cases h
      refine hquiet hstate (by decide) (by decide) ?_
      rw [houtside rfl]
      exact text_holds hp.level
  | literal ch =>
      rw [hstate] at h hput
      cases h
      refine hquiet hstate (by simp [flushing]) (by simp [ParseState.ending]) ?_
      split
      · exact hput rfl rfl
      · split <;> exact hput rfl rfl
  | literalEscape ch =>
      rw [hstate] at h hput
      cases h
      exact hquiet hstate (by simp [flushing]) (by simp [ParseState.ending]) (hput rfl rfl)
  | slash =>
      rw [hstate] at h houtside
      cases h
      refine hquiet hstate (by decide) (by decide) ?_
      rw [houtside rfl]
      refine holds_outside ?_ hp.level (collected_put p c)
      dsimp only
      split
      · rfl
      · split <;> rfl
  | lineComment =>
      rw [hstate] at h hput
      cases h
      refine hquiet hstate (by decide) (by decide) ?_
      split <;> exact hput rfl rfl
  | blockComment =>
      rw [hstate] at h hput
      cases h
      refine hquiet hstate (by decide) (by decide) ?_
      split <;> exact hput rfl rfl
  | blockStar =>
      rw [hstate] at h hput
      cases h
      refine hquiet hstate (by decide) (by decide) ?_
      split
      · exact hput rfl rfl
      · split <;> exact hput rfl rfl
  | hash =>
      rw [hstate] at h
      refine hquiet hstate (by decide) (by decide) ?_
      have hpending : p.pending = 0 := by rw [pending, hstate]; rfl
      rw [hpending]
      exact hash_holds hp.level hstate (hp.head (.inl hstate)) h
  | name =>
      rw [hstate] at h
      have hpending : p.pending = 0 := by rw [pending, hstate]; rfl
      have hending : p.ending = some ({ p with value := [], comment := [] }, 0) := by rw [Locals.ending, hstate]
      rw [hpending]
      exact holds_ending hstate (by decide) hending (name_holds hp.level (hp.head (.inr hstate)) h)
  | beforeValue =>
      rw [hstate] at h hvalue hvalueLines
      have hending : p.ending = some (p, 0) := by rw [Locals.ending, hstate]
      rw [hvalue rfl]
      exact holds_ending hstate (by decide) hending (beforeValue_holds hp.level (hvalueLines rfl) h)
  | value =>
      rw [hstate] at h hvalue hvalueLines
      have hending : p.ending = some (p, 0) := by rw [Locals.ending, hstate]
      rw [hvalue rfl]
      exact holds_ending hstate (by decide) hending (readValue_holds hp.level (hvalueLines rfl) h)
  | valueLiteral ch =>
      rw [hstate] at h hvalue hvalueLines
      cases h
      refine hquiet hstate (by simp [flushing]) (by simp [ParseState.ending]) ?_
      rw [hvalue rfl]
      split
      · exact putValue_holds rfl hp.level (hvalueLines rfl)
      · split <;> exact putValue_holds rfl hp.level (hvalueLines rfl)
  | valueLiteralEscape ch =>
      rw [hstate] at h hvalue hvalueLines
      cases h
      refine hquiet hstate (by simp [flushing]) (by simp [ParseState.ending]) ?_
      rw [hvalue rfl]
      exact putValue_holds rfl hp.level (hvalueLines rfl)
  | valueEscape =>
      rw [hstate] at h hvalue hvalueLines
      refine hquiet hstate (by decide) (by decide) ?_
      rw [hvalue rfl]
      exact valueEscape_holds hp.level (hvalueLines rfl) h
  | valueSlash =>
      rw [hstate] at h hvalue hvalueLines
      have hending : p.ending = some ({ p.putValue (chr '/') with cppLines := p.cppLines + 1 }, 1) := by
        rw [Locals.ending, hstate]
      rw [hvalue rfl]
      exact holds_ending hstate (by decide) hending (valueSlash_holds hp.level (hvalueLines rfl) h)
  | valueLineComment =>
      rw [hstate] at h hvalue hvalueLines
      have hending : p.ending = some ({ p with cppLines := p.cppLines + 1 }, 1) := by
        rw [Locals.ending, hstate]
      rw [hvalue rfl]
      exact holds_ending hstate (by decide) hending (valueLineComment_holds hp.level hstate (hvalueLines rfl) h)
  | valueBlockComment =>
      rw [hstate] at h hvalue hvalueLines
      cases h
      refine hquiet hstate (by decide) (by decide) ?_
      rw [hvalue rfl]
      split
      · rename_i hc
        exact goto_inValue rfl hp.level (hvalueLines rfl) (hc ▸ by decide)
      · have hgoto : p.putComment c = (p.putComment c).goto .valueBlockComment := by
          rw [← hstate]
          rfl
        rw [hgoto]
        exact valueBlockComment_holds rfl hp.level (hvalueLines rfl)
  | valueBlockStar =>
      rw [hstate] at h hvalue hvalueLines
      cases h
      refine hquiet hstate (by decide) (by decide) ?_
      rw [hvalue rfl]
      exact valueBlockStar_holds hp.level hstate (hvalueLines rfl)
  | percent =>
      rw [hstate] at h houtside
      cases h
      have hflushes : p.Flushes c ↔ c = chr '\x7b' ∨ c = chr '#' := by simp [Flushes, hstate]
      have hended : p.ended c = none := not_ended hstate (by decide)
      have hloss : p.loss t c = if c = chr '\x7b' ∨ c = chr '#' then flushLoss t p.toParser else 0 := by
        simp [loss, hflushes, FlushesRaw, EndsDefine, hstate, hended]
      rw [hloss, gain_of_not_ended hended, houtside rfl]
      exact percent_holds hp.level fun hc => hcalls (hflushes.mpr hc)
  | block =>
      rw [hstate] at h hput
      cases h
      refine hquiet hstate (by decide) (by decide) ?_
      split <;> exact hput rfl rfl
  | blockPercent =>
      rw [hstate] at h houtside hput
      cases h
      have hended : p.ended c = none := not_ended hstate (by decide)
      have hloss : p.loss t c = if c = chr '\x7d' then blankLoss (p.chunk ++ [c]) p.allow else 0 := by
        simp [loss, Flushes, FlushesRaw, EndsDefine, hstate, hended]
      rw [hloss, gain_of_not_ended hended]
      split
      · rw [houtside rfl]
        exact holds_outside rfl hp.level ((collected_flushRaw (p.put c)).trans (collected_put p c))
      · exact hput rfl rfl
  | embedded =>
      rw [hstate] at h houtside hput
      cases h
      have hended : p.ended c = none := not_ended hstate (by decide)
      have hloss : p.loss t c = if c = chr '\n' then blankLoss (p.chunk ++ [c]) p.allow else 0 := by
        simp [loss, Flushes, FlushesRaw, EndsDefine, hstate, hended]
      rw [hloss, gain_of_not_ended hended]
      split
      · rw [houtside rfl]
        exact holds_outside rfl hp.level ((collected_flushRaw (p.put c)).trans (collected_put p c))
      · split <;> exact hput rfl rfl
  | embeddedEscape =>
      rw [hstate] at h hput
      cases h
      exact hquiet hstate (by decide) (by decide) (hput rfl rfl)
  | swigName =>
      rw [hstate] at h
      have hpending : p.pending = 0 := by rw [pending, hstate]; rfl
      have hended : p.ended c = none := not_ended hstate (by decide)
      have hloss : p.loss t c = if p.Flushes c then flushLoss t p.toParser else 0 := by
        simp [loss, FlushesRaw, EndsDefine, hstate, hended]
      rw [hloss, gain_of_not_ended hended, hpending]
      exact swigName_holds hp.level (hp.decl hstate) hstate hcalls h
  | define =>
      rw [hstate] at h
      cases h
      refine hquiet hstate (by decide) (by decide) ?_
      rw [hdefine (by rw [hstate]; rfl)]
      exact define_holds hp.level
  | defineWord w =>
      rw [hstate] at h
      cases h
      refine hquiet hstate (by simp [flushing]) (by simp [ParseState.ending]) ?_
      rw [hdefine (by rw [hstate]; rfl)]
      exact defineWord_holds hp.level (hp.word w hstate)
  | defineEnd w =>
      rw [hstate] at h
      cases h
      have hended : p.ended c = none := not_ended hstate (by simp [ParseState.ending])
      have hloss : p.loss t c = if p.EndsDefine c then blankLoss (p.value.rdrop 7) false else 0 := by
        simp [loss, Flushes, FlushesRaw, hstate, hended]
      rw [hloss, gain_of_not_ended hended, hdefine (by rw [hstate]; rfl)]
      exact defineEnd_holds hp.level hstate (hp.statement w hstate)

/-! ### When a round has a result -/

theorem otherDirective_isSome {id : List Byte} {d : Directive} {p : Parser W} (hp : p.level ≤ 256) :
    (∃ q, t.otherDirective id d p = some q) ↔
      ¬ (p.allow = true ∧ t.includeAll p.world = true ∧ id = lit "include") ∧
        ¬ (256 ≤ p.level ∧ ∃ o, conditional? id = some (.opening o)) := by
  rw [MacroTable.otherDirective]
  cases hk : conditional? id with
  | some k =>
      have hinclude : id ≠ lit "include" := by
        rintro rfl
        have hnone : conditional? (lit "include") = none := by decide
        cases hnone.symm.trans hk
      have hcond := @parseConditional_isSome _ t.macros k d p hp
      simp only [hinclude, and_false, not_false_eq_true, true_and, Option.some.injEq, not_and, not_exists]
      constructor
      · rintro ⟨q, hq⟩ hlevel o rfl
        obtain ⟨r, hr, -⟩ := Option.map_eq_some_iff.mp hq
        have := hcond.mp ⟨r, hr⟩ ⟨o, rfl⟩
        omega
      · intro h
        obtain ⟨r, hr⟩ := hcond.mpr (by
          rintro ⟨o, ho⟩
          by_contra hlevel
          exact h (by omega) o ho)
        exact ⟨r.1, by rw [hr]; rfl⟩
  | none =>
      simp only [reduceCtorEq, exists_false, and_false, not_false_eq_true, and_true]
      constructor
      · rintro ⟨q, hq⟩ ⟨hallow, hall, hid⟩
        rw [if_pos hid, hall, hallow] at hq
        cases hq
      · intro h
        split
        · rename_i hid
          split
          · rename_i hfollow
            rw [Bool.and_eq_true] at hfollow
            exact absurd ⟨hfollow.2, hfollow.1, hid⟩ h
          · exact ⟨_, rfl⟩
        · exact ⟨_, rfl⟩

/-- The directive does not follow an inclusion, and finds a place for its line. -/
def Passes (t : MacroTable W) (p : Locals W) : Prop :=
  ¬ (p.allow = true ∧ t.includeAll p.world = true ∧ p.id = lit "include") ∧
    ¬ (256 ≤ p.level ∧ ∃ o, conditional? p.id = some (.opening o))

theorem directive_isSome (hp : p.level ≤ 256) : (∃ q, p.directive t = some q) ↔ p.Passes t := by
  rw [directive]
  split
  · rename_i hid
    refine iff_of_true ⟨_, rfl⟩ ⟨?_, ?_⟩
    · rintro ⟨-, -, h⟩
      exact absurd (hid.symm.trans h) (by decide)
    · rintro ⟨-, o, ho⟩
      rw [hid, show conditional? (lit "define") = none by decide] at ho
      cases ho
  · rw [← Option.isSome_iff_exists, Option.isSome_map, Option.isSome_iff_exists]
    exact otherDirective_isSome hp

theorem readValue_isSome (hp : p.level ≤ 256) :
    (∃ q, p.readValue t c = some q) ↔ (c = chr '\n' → p.Passes t) := by
  rw [readValue]
  split
  · rename_i hc
    rw [directive_isSome hp]
    simp [hc]
  · rename_i hc
    refine iff_of_true ?_ fun h => absurd h hc
    split
    · exact ⟨_, rfl⟩
    · split <;> exact ⟨_, rfl⟩

theorem beforeValue_isSome (hp : p.level ≤ 256) :
    (∃ q, p.beforeValue t c = some q) ↔ (c = chr '\n' → p.Passes t) := by
  rw [beforeValue]
  split
  · split
    · rename_i hc
      rw [directive_isSome hp]
      simp [hc]
    · rename_i hc
      exact iff_of_true ⟨_, rfl⟩ fun h => absurd h hc
  · exact readValue_isSome hp

theorem name_isSome (hp : p.level ≤ 256) : (∃ q, p.name t c = some q) ↔ (c = chr '\n' → p.Passes t) := by
  rw [name]
  split
  · split
    · rename_i hc
      have hdirective := @directive_isSome _ t { p with value := [], comment := [] } hp
      rw [hdirective]
      exact ⟨fun h _ => h, fun h => h hc⟩
    · rename_i hc
      split
      · exact iff_of_true ⟨_, rfl⟩ fun h => absurd h hc
      · exact @beforeValue_isSome _ t { p with value := [], comment := [] } c hp
  · rename_i hc
    refine iff_of_true ⟨_, rfl⟩ ?_
    rintro rfl
    exact absurd rfl hc

/-- No inclusion is followed, and `cond_lines` is not left. -/
theorem dispatch_isSome (hp : p.level ≤ 256) :
    (∃ q, p.dispatch t c = some q) ↔ ¬ p.Follows t c ∧ ¬ p.Overflows c := by
  have hpasses : (¬ p.Follows t c ∧ ¬ p.Overflows c) ↔
      ¬ (p.allow = true ∧ p.state = .swigName ∧ isidchar c = false ∧
        p.decl ∈ [lit "%include", lit "%import", lit "%extern"]) ∧
        ((p.ended c).isSome → p.Passes t) := by
    have hid : ∀ q ∈ p.ended c, q.1.id = p.id := by
      rintro ⟨r, extra⟩ hr
      rw [Option.mem_def, ended] at hr
      split at hr
      · rw [Locals.ending] at hr
        split at hr <;> cases hr <;> rfl
      · cases hr
    rw [Follows, Overflows, Passes]
    cases hended : p.ended c with
    | none => simp [not_or]
    | some q =>
        rw [hended] at hid
        simp only [Option.mem_some_iff, exists_eq_left', hid q rfl, Option.isSome_some, forall_const]
        tauto
  rw [hpasses]
  -- a state that neither ends a directive nor a name always goes on
  have hgoes {s : ParseState} (hs : p.state = s) (hname : s ≠ .swigName) (hending : s ∉ ParseState.ending)
      {o : Option (Locals W)} (ho : ∃ q, o = some q) : (∃ q, o = some q) ↔
        ¬ (p.allow = true ∧ s = .swigName ∧ isidchar c = false ∧
          p.decl ∈ [lit "%include", lit "%import", lit "%extern"]) ∧ ((p.ended c).isSome → p.Passes t) := by
    rw [not_ended hs hending]
    exact iff_of_true ho ⟨fun h => hname h.2.1, by rintro ⟨⟩⟩
  have hends {s : ParseState} (hs : p.state = s) (hname : s ≠ .swigName) (hending : (p.ending).isSome)
      {o : Option (Locals W)} (ho : (∃ q, o = some q) ↔ (c = chr '\n' → p.Passes t)) : (∃ q, o = some q) ↔
        ¬ (p.allow = true ∧ s = .swigName ∧ isidchar c = false ∧
          p.decl ∈ [lit "%include", lit "%import", lit "%extern"]) ∧ ((p.ended c).isSome → p.Passes t) := by
    have hended : (p.ended c).isSome ↔ c = chr '\n' := by
      rw [ended]
      split
      · exact iff_of_true hending ‹_›
      · exact iff_of_false (by rintro ⟨⟩) ‹_›
    rw [ho, hended]
    exact ⟨fun h => ⟨fun hn => hname hn.2.1, h⟩, fun h => h.2⟩
  rw [dispatch]
  cases hstate : p.state with
  | firstColumn => exact hgoes hstate (by rintro ⟨⟩) (by decide) ⟨_, rfl⟩
  | text => exact hgoes hstate (by rintro ⟨⟩) (by decide) ⟨_, rfl⟩
  | literal ch => exact hgoes hstate (by rintro ⟨⟩) (by simp [ParseState.ending]) ⟨_, rfl⟩
  | literalEscape ch => exact hgoes hstate (by rintro ⟨⟩) (by simp [ParseState.ending]) ⟨_, rfl⟩
  | slash => exact hgoes hstate (by rintro ⟨⟩) (by decide) ⟨_, rfl⟩
  | lineComment => exact hgoes hstate (by rintro ⟨⟩) (by decide) ⟨_, rfl⟩
  | blockComment => exact hgoes hstate (by rintro ⟨⟩) (by decide) ⟨_, rfl⟩
  | blockStar => exact hgoes hstate (by rintro ⟨⟩) (by decide) ⟨_, rfl⟩
  | hash =>
      refine hgoes hstate (by rintro ⟨⟩) (by decide) ?_
      dsimp only
      rw [hash]
      split
      · exact ⟨_, rfl⟩
      · rename_i hc
        split
        · exact ⟨_, rfl⟩
        · exact (@name_isSome _ t { p with id := [], idLine := p.line } c hp).mpr fun h => absurd h hc
  | name => exact hends hstate (by rintro ⟨⟩) (by rw [Locals.ending, hstate]; rfl) (name_isSome hp)
  | beforeValue => exact hends hstate (by rintro ⟨⟩) (by rw [Locals.ending, hstate]; rfl) (beforeValue_isSome hp)
  | value => exact hends hstate (by rintro ⟨⟩) (by rw [Locals.ending, hstate]; rfl) (readValue_isSome hp)
  | valueLiteral ch => exact hgoes hstate (by rintro ⟨⟩) (by simp [ParseState.ending]) ⟨_, rfl⟩
  | valueLiteralEscape ch => exact hgoes hstate (by rintro ⟨⟩) (by simp [ParseState.ending]) ⟨_, rfl⟩
  | valueEscape =>
      refine hgoes hstate (by rintro ⟨⟩) (by decide) ?_
      dsimp only
      rw [valueEscape]
      split
      · exact ⟨_, rfl⟩
      · rename_i hc
        exact (readValue_isSome hp).mpr fun h => absurd h hc
  | valueSlash =>
      refine hends hstate (by rintro ⟨⟩) (by rw [Locals.ending, hstate]; rfl) ?_
      dsimp only
      rw [valueSlash]
      split
      · rename_i hc
        exact iff_of_true ⟨_, rfl⟩ fun h => absurd (hc.symm.trans h) (by decide)
      · split
        · rename_i hc
          exact iff_of_true ⟨_, rfl⟩ fun h => absurd (hc.symm.trans h) (by decide)
        · split
          · rename_i hc
            rw [@directive_isSome _ t { p.putValue (chr '/') with cppLines := p.cppLines + 1 } hp]
            exact ⟨fun h _ => h, fun h => h hc⟩
          · rename_i hc
            exact iff_of_true ⟨_, rfl⟩ fun h => absurd h hc
  | valueLineComment =>
      refine hends hstate (by rintro ⟨⟩) (by rw [Locals.ending, hstate]; rfl) ?_
      dsimp only
      rw [valueLineComment]
      split
      · rename_i hc
        rw [@directive_isSome _ t { p with cppLines := p.cppLines + 1 } hp]
        exact ⟨fun h _ => h, fun h => h hc⟩
      · rename_i hc
        exact iff_of_true ⟨_, rfl⟩ fun h => absurd h hc
  | valueBlockComment => exact hgoes hstate (by rintro ⟨⟩) (by decide) ⟨_, rfl⟩
  | valueBlockStar => exact hgoes hstate (by rintro ⟨⟩) (by decide) ⟨_, rfl⟩
  | percent => exact hgoes hstate (by rintro ⟨⟩) (by decide) ⟨_, rfl⟩
  | block => exact hgoes hstate (by rintro ⟨⟩) (by decide) ⟨_, rfl⟩
  | blockPercent => exact hgoes hstate (by rintro ⟨⟩) (by decide) ⟨_, rfl⟩
  | embedded => exact hgoes hstate (by rintro ⟨⟩) (by decide) ⟨_, rfl⟩
  | embeddedEscape => exact hgoes hstate (by rintro ⟨⟩) (by decide) ⟨_, rfl⟩
  | swigName =>
      rw [not_ended hstate (by decide)]
      simp only [true_and, Option.isSome_none, Bool.false_eq_true, false_imp_iff, and_true]
      rw [swigName]
      split
      · rename_i hid
        refine iff_of_true ⟨_, rfl⟩ fun h => ?_
        rw [hid] at h
        cases h.2.1
      · rename_i hid
        split
        · rename_i hdecl
          split
          · rename_i hallow
            exact iff_of_false (by rintro ⟨q, ⟨⟩⟩) fun h => h ⟨hallow, Bool.eq_false_iff.mpr hid, hdecl⟩
          · rename_i hallow
            exact iff_of_true ⟨_, rfl⟩ fun h => hallow h.1
        · rename_i hdecl
          refine iff_of_true ?_ fun h => hdecl h.2.2
          split
          · exact ⟨_, rfl⟩
          · split <;> exact ⟨_, rfl⟩
  | define => exact hgoes hstate (by rintro ⟨⟩) (by decide) ⟨_, rfl⟩
  | defineWord w => exact hgoes hstate (by rintro ⟨⟩) (by simp [ParseState.ending]) ⟨_, rfl⟩
  | defineEnd w => exact hgoes hstate (by rintro ⟨⟩) (by simp [ParseState.ending]) ⟨_, rfl⟩

/-! ### A step -/

theorem ended_line (p : Locals W) (line : ℕ) (c : Byte) :
    ({ p with line := line } : Locals W).ended c = (p.ended c).map fun (r, extra) => ({ r with line := line }, extra) := by
  rw [ended, ended]
  split
  · obtain ⟨_, state, _, _, _, _, _, _, _, _, _, _⟩ := p
    cases state <;> rfl
  · rfl

theorem gain_line (p : Locals W) (line : ℕ) (c : Byte) :
    ({ p with line := line } : Locals W).gain t c = p.gain t c := by
  rw [gain, gain, ended_line]
  cases p.ended c <;> rfl

theorem loss_line (p : Locals W) (line : ℕ) (c : Byte) :
    ({ p with line := line } : Locals W).loss t c = p.loss t c := by
  rw [loss, loss, ended_line]
  cases p.ended c <;> rfl

theorem follows_line (p : Locals W) (line : ℕ) (c : Byte) :
    ({ p with line := line } : Locals W).Follows t c ↔ p.Follows t c := by
  rw [Follows, Follows, ended_line]
  cases p.ended c <;> simp

theorem overflows_line (p : Locals W) (line : ℕ) (c : Byte) :
    ({ p with line := line } : Locals W).Overflows c ↔ p.Overflows c := by
  rw [Overflows, Overflows, ended_line]
  cases p.ended c <;> simp

/-- The newlines that are held, in the output and in the buffers. -/
def held (p : Locals W) : ℕ := p.collected + p.pending

/-- What a step does to the newlines. -/
theorem step_holds (hp : p.Sane) (hcalls : p.Flushes c → OneLineCalls t p.toParser) (h : p.step t c = some q) :
    q.Sane ∧ q.held + p.loss t c = p.held + weight c + p.gain t c := by
  have hline : ({ p with line := p.line + if c = chr '\n' then 1 else 0 } : Locals W).Sane := { hp with }
  have hholds := dispatch_holds hline hcalls h
  rw [gain_line, loss_line] at hholds
  exact ⟨hholds.toSane, hholds.amount⟩

theorem step_isSome (hp : p.Sane) : (∃ q, p.step t c = some q) ↔ ¬ p.Follows t c ∧ ¬ p.Overflows c := by
  have hdispatch := @dispatch_isSome _ t { p with line := p.line + if c = chr '\n' then 1 else 0 } c hp.level
  rw [follows_line, overflows_line] at hdispatch
  exact hdispatch

end Locals

/-! ### A whole text -/

open Locals Ledger

variable (t) in
/-- A text in which every directive and `%define` ends, with no file included and
no macro call that spans lines. -/
structure PlainText (w : W) (line : ℕ) (s : List Byte) : Prop where
  includes : Throughout (Locals.step t) (fun p c => ¬ p.Follows t c) (start w line) (dropReturns s)
  calls : Throughout (Locals.step t) (fun p c => p.Flushes c → OneLineCalls t p.toParser) (start w line)
    (dropReturns s)
  ends : ∀ p ∈ Ledger.run (Locals.step t) (start w line) (dropReturns s),
    p.state.Closed ∧ OneLineCalls t p.toParser

variable (t) in
/-- The newlines that are written and not read. -/
def gained (w : W) (line : ℕ) (s : List Byte) : ℕ :=
  total (Locals.step t) (gain t) (start w line) (dropReturns s)

variable (t) in
/-- The newlines that are read and not written. -/
def lost (w : W) (line : ℕ) (s : List Byte) : ℕ :=
  total (Locals.step t) (loss t) (start w line) (dropReturns s) +
    (Ledger.run (Locals.step t) (start w line) (dropReturns s)).elim 0 fun p => flushLoss t p.toParser

theorem sum_weight (s : List Byte) : (s.map weight).sum = newlines s := by
  induction s with
  | nil => rfl
  | cons c s ih =>
      rw [List.map_cons, List.sum_cons, ih, newlines_cons, Nat.add_comm]
      rfl

theorem start_sane (w : W) (line : ℕ) : (start w line).Sane := by
  have hholds : Holds (start w line) 0 0 := holds_outside rfl (Nat.zero_le _) rfl
  exact hholds.toSane

theorem newlines_finish {p : Parser W} (h : OneLineCalls t p) :
    newlines (finish t.macros p).ns + flushLoss t p = newlines p.ns + newlines p.chunk :=
  newlines_addChunk h

/-- The text is read to its end when no line number leaves `cond_lines`. -/
theorem parse_isSome {w : W} {line : ℕ} {s : List Byte} (h : PlainText t w line s) :
    (∃ p, Ledger.run (Locals.step t) (start w line) (dropReturns s) = some p) ↔
      Throughout (Locals.step t) (fun p c => ¬ p.Overflows c) (start w line) (dropReturns s) := by
  have hcongr := throughout_congr (P := fun p c => ∃ q, p.step t c = some q)
    (Q := fun p c => ¬ p.Follows t c ∧ ¬ p.Overflows c) (fun p c q hp hc hq => (step_holds hp hc hq).1)
    (fun p c hp => step_isSome hp) (start_sane w line) h.calls
  rw [run_isSome_iff, hcongr, throughout_and]
  exact and_iff_right h.includes

/-- A preprocessor without macros, in which every controlling expression is 0. -/
def noMacros : MacroTable Unit where
  findMacro _ _ := none
  expandMacro _ _ w := (none, w)
  place _ _ _ := none
  expr _ w := ({ val := 0, e := false, msg := none }, w)
  define _ _ w := (none, w)
  checkppId _ := true
  includeAll _ := false
  quiet _ _ _ w := w

end Swig.Preprocessor
