import Swig.Preprocessor.LineBalance

/-!
The lines of `Preprocessor_parse`: what each round of the loop does to the
newlines, and from it the balance of a whole text.
-/

namespace Swig.Preprocessor

namespace ParseState

/-- The states between directives, in which every character goes to the chunk. -/
def outside : ParseState → Bool
  | firstColumn | text | literal _ | literalEscape _ | slash | lineComment | blockComment | blockStar => true
  | percent | block | blockPercent | embedded | embeddedEscape => true
  | _ => false

/-- The states in which the value of a directive is read. -/
def inValue : ParseState → Bool
  | beforeValue | value | valueLiteral _ | valueLiteralEscape _ | valueEscape | valueSlash => true
  | valueLineComment | valueBlockComment | valueBlockStar => true
  | _ => false

/-- The states in which the value of a `%define` is read. -/
def inDefine : ParseState → Bool
  | define | defineWord _ | defineEnd _ => true
  | _ => false

/-- The text may end here: no directive and no `%define` is open. -/
def Closed (s : ParseState) : Prop := s ≠ hash ∧ s ≠ name ∧ s.inValue = false ∧ s.inDefine = false

instance (s : ParseState) : Decidable s.Closed := inferInstanceAs (Decidable (_ ∧ _))

/-- The states in which a chunk may be flushed, or the whole of a `%define` be read. -/
def flushing : List ParseState :=
  [firstColumn, percent, swigName, blockPercent, embedded, defineEnd (lit "enddef")]

/-- The states in which a directive ends at a newline. -/
def ending : List ParseState := [name, beforeValue, value, valueSlash, valueLineComment]

theorem not_inValue {s : ParseState} (h : s.outside = true) : s.inValue = false := by
  cases s <;> first | rfl | cases h

theorem not_inDefine {s : ParseState} (h : s.outside = true) : s.inDefine = false := by
  cases s <;> first | rfl | cases h

end ParseState

open ParseState

variable {W : Type} (t : MacroTable W)

namespace Locals

/-! ### What a round gains and loses -/

/-- State 50 is entered with these locals at a newline, and with so many lines
counted that have not been read. -/
def ending (p : Locals W) : Option (Locals W × ℕ) :=
  match p.state with
  | .name => some ({ p with value := [], comment := [] }, 0)
  | .beforeValue | .value => some (p, 0)
  | .valueSlash => some ({ p.putValue (chr '/') with cppLines := p.cppLines + 1 }, 1)
  | .valueLineComment => some ({ p with cppLines := p.cppLines + 1 }, 1)
  | _ => none

/-- The `%constant` that the directive prints. -/
def printed (p : Locals W) : Option (List Byte × List Byte) :=
  if p.id = lit "define" then (t.constant (chop p.value) p.allow p.world).1 else none

/-- The lines that were counted but not read, and those of the `%constant`. -/
def directiveGain (p : Locals W) (extra : ℕ) : ℕ :=
  extra + (p.printed t).elim 0 fun (name, v1) => newlines (cstr name) + newlines (cstr v1)

/-- The newlines of the value that were not counted, those inside a literal; and
those of the comments, unless they are printed with a `%constant`. -/
def directiveLoss (p : Locals W) (extra : ℕ) : ℕ :=
  newlines p.value + 1 + extra - p.cppLines +
    (p.printed t).elim (newlines p.comment) fun _ => newlines (p.comment.dropWhile (· != 0))

/-- The chunk is flushed with its macro calls replaced. -/
def Flushes (p : Locals W) (c : Byte) : Prop :=
  (p.state = .firstColumn ∧ c = chr '#') ∨ (p.state = .percent ∧ (c = chr '\x7b' ∨ c = chr '#')) ∨
    (p.state = .swigName ∧ isidchar c = false ∧ p.decl = lit "%define")

instance (p : Locals W) (c : Byte) : Decidable (p.Flushes c) := inferInstanceAs (Decidable (_ ∨ _))

/-- The whole of a `%define` is read. -/
def EndsDefine (p : Locals W) (c : Byte) : Prop :=
  p.state = .defineEnd (lit "enddef") ∧ isspace c ∧ p.dlevel - 1 = 0

instance (p : Locals W) (c : Byte) : Decidable (p.EndsDefine c) := inferInstanceAs (Decidable (_ ∧ _))

/-- The chunk is flushed as it is. -/
def FlushesRaw (p : Locals W) (c : Byte) : Prop :=
  (p.state = .blockPercent ∧ c = chr '\x7d') ∨ (p.state = .embedded ∧ c = chr '\n')

instance (p : Locals W) (c : Byte) : Decidable (p.FlushesRaw c) := inferInstanceAs (Decidable (_ ∨ _))

/-- The directive that ends at this character. -/
def ended (p : Locals W) (c : Byte) : Option (Locals W × ℕ) := if c = chr '\n' then p.ending else none

/-- The newlines written in this round that were not read. -/
def gain (p : Locals W) (c : Byte) : ℕ := (p.ended c).elim 0 fun (q, extra) => q.directiveGain t extra

/-- The newlines read that are not written, as this round settles it. -/
def loss (p : Locals W) (c : Byte) : ℕ :=
  if p.Flushes c then flushLoss t p.toParser
  else if p.FlushesRaw c then blankLoss (p.chunk ++ [c]) p.allow
  else if p.EndsDefine c then blankLoss (p.value.rdrop 7) false
  else (p.ended c).elim 0 fun (q, extra) => q.directiveLoss t extra

/-- The round follows an inclusion. -/
def Follows (p : Locals W) (c : Byte) : Prop :=
  p.allow = true ∧
    ((p.state = .swigName ∧ isidchar c = false ∧ p.decl ∈ [lit "%include", lit "%import", lit "%extern"]) ∨
      (t.includeAll p.world = true ∧ ∃ q ∈ p.ended c, q.1.id = lit "include"))

instance (p : Locals W) (c : Byte) : Decidable (p.Follows t c) :=
  inferInstanceAs (Decidable (_ ∧ (_ ∨ (_ ∧ ∃ q ∈ p.ended c, q.1.id = lit "include"))))

instance (k : Option Conditional) : Decidable (∃ o, k = some (.opening o)) :=
  match k with
  | some (.opening o) => isTrue ⟨o, rfl⟩
  | some .else_ | some .elif | some .endif | none => isFalse (by simp)

/-- The round writes behind the end of `cond_lines`. -/
def Overflows (p : Locals W) (c : Byte) : Prop :=
  256 ≤ p.level ∧ ∃ q ∈ p.ended c, ∃ o, conditional? q.1.id = some (.opening o)

instance (p : Locals W) (c : Byte) : Decidable (p.Overflows c) :=
  inferInstanceAs (Decidable (_ ∧ ∃ q ∈ p.ended c, ∃ o, conditional? q.1.id = some (.opening o)))

/-! ### The invariant -/

/-- The newlines of the output and of the chunk. -/
def collected (p : Locals W) : ℕ := newlines p.ns + newlines p.chunk

/-- The newlines in the buffers of a directive that is being read. -/
def pending (p : Locals W) : ℕ :=
  if p.state.inValue then newlines p.value + newlines p.comment
  else if p.state.inDefine then newlines p.value
  else 0

structure Sane (p : Locals W) : Prop where
  level : p.level ≤ 256
  head : p.state = .hash ∨ p.state = .name → p.cppLines = 1
  value : p.state.inValue → 1 ≤ p.cppLines ∧ p.cppLines ≤ newlines p.value + 1
  decl : p.state = .swigName → newlines p.decl = 0
  word : ∀ w, p.state = .defineWord w → ∃ v, p.value = v ++ chr '%' :: w
  statement : ∀ w, p.state = .defineEnd w →
    (∃ v, p.value = v ++ chr '%' :: w) ∧ (w = lit "enddef" ∨ w = lit "define")

/-- The locals are sane, and hold the `n` newlines that have come in, but `lost` of
them. -/
structure Holds (q : Locals W) (lost n : ℕ) : Prop extends Sane q where
  amount : q.collected + q.pending + lost = n

/-- The newlines that a character adds. -/
def weight (c : Byte) : ℕ := if c = chr '\n' then 1 else 0

variable {t} {p q : Locals W} {lost n : ℕ} {c : Byte}

theorem holds_outside (hstate : q.state.outside = true) (hlevel : q.level ≤ 256) (hn : q.collected + lost = n) :
    Holds q lost n := by
  have hne {s : ParseState} (h : q.state = s) : s.outside = true := h ▸ hstate
  refine { level := hlevel, head := ?_, value := ?_, decl := ?_, word := ?_, statement := ?_, amount := ?_ }
  · rintro (h | h) <;> cases hne h
  · intro h
    rw [not_inValue hstate] at h
    cases h
  · exact fun h => nomatch hne h
  · exact fun w h => nomatch hne h
  · exact fun w h => nomatch hne h
  · rw [pending, not_inValue hstate, not_inDefine hstate]
    exact hn

theorem holds_inValue (hstate : q.state.inValue = true) (hlevel : q.level ≤ 256)
    (hlines : 1 ≤ q.cppLines ∧ q.cppLines ≤ newlines q.value + 1)
    (hn : q.collected + (newlines q.value + newlines q.comment) + lost = n) : Holds q lost n := by
  have hne {s : ParseState} (h : q.state = s) : s.inValue = true := h ▸ hstate
  refine { level := hlevel, head := ?_, value := fun _ => hlines, decl := ?_, word := ?_, statement := ?_, amount := ?_ }
  · rintro (h | h) <;> cases hne h
  · exact fun h => nomatch hne h
  · exact fun w h => nomatch hne h
  · exact fun w h => nomatch hne h
  · rw [pending, if_pos hstate, hn]

theorem holds_head (hstate : q.state = .hash ∨ q.state = .name) (hlevel : q.level ≤ 256) (hlines : q.cppLines = 1) :
    Holds q 0 q.collected := by
  have hne {s : ParseState} (h : q.state = s) : s = .hash ∨ s = .name := h ▸ hstate
  refine { level := hlevel, head := fun _ => hlines, value := ?_, decl := ?_, word := ?_, statement := ?_, amount := ?_ }
  · rcases hstate with h | h
    · exact fun hvalue => nomatch h ▸ hvalue
    · exact fun hvalue => nomatch h ▸ hvalue
  · exact fun h => nomatch hne h
  · exact fun w h => nomatch hne h
  · exact fun w h => nomatch hne h
  · rcases hstate with h | h
    · rw [pending, h]
      rfl
    · rw [pending, h]
      rfl

theorem holds_swigName (hstate : q.state = .swigName) (hlevel : q.level ≤ 256) (hdecl : newlines q.decl = 0) :
    Holds q 0 q.collected := by
  have hne {s : ParseState} (h : q.state = s) : s = .swigName := h ▸ hstate
  refine { level := hlevel, head := ?_, value := ?_, decl := fun _ => hdecl, word := ?_, statement := ?_, amount := ?_ }
  · rintro (h | h) <;> cases hne h
  · exact fun hvalue => nomatch hstate ▸ hvalue
  · exact fun w h => nomatch hne h
  · exact fun w h => nomatch hne h
  · rw [pending, hstate]
    rfl

theorem holds_inDefine (hstate : q.state.inDefine = true) (hlevel : q.level ≤ 256)
    (hword : ∀ w, q.state = .defineWord w → ∃ v, q.value = v ++ chr '%' :: w)
    (hstatement : ∀ w, q.state = .defineEnd w →
      (∃ v, q.value = v ++ chr '%' :: w) ∧ (w = lit "enddef" ∨ w = lit "define"))
    (hn : q.collected + newlines q.value = n) : Holds q 0 n := by
  have hne {s : ParseState} (h : q.state = s) : s.inDefine = true := h ▸ hstate
  have hnot : q.state.inValue = false := by
    cases hs : q.state <;> first | rfl | cases hne hs
  refine { level := hlevel, head := ?_, value := ?_, decl := ?_, word := hword, statement := hstatement, amount := ?_ }
  · rintro (h | h) <;> cases hne h
  · intro h
    rw [hnot] at h
    cases h
  · exact fun h => nomatch hne h
  · rw [pending, hnot, if_pos hstate]
    exact hn

theorem Holds.lose {m : ℕ} (h : Holds q 0 n) (hn : n + lost = m) : Holds q lost m :=
  { h with
    amount := by
      have hamount := h.amount
      omega }

@[simp] theorem collected_put (p : Locals W) (c : Byte) : (p.put c).collected = p.collected + weight c := by
  simp only [collected, put, newlines_append, newlines_cons, newlines_nil, weight]
  omega

@[simp] theorem newlines_putValue (p : Locals W) (c : Byte) :
    newlines (p.putValue c).value = newlines p.value + weight c := by
  simp only [putValue, newlines_append, newlines_cons, newlines_nil, weight]
  omega

@[simp] theorem newlines_putComment (p : Locals W) (c : Byte) :
    newlines (p.putComment c).comment = newlines p.comment + weight c := by
  simp only [putComment, newlines_append, newlines_cons, newlines_nil, weight]
  omega

theorem weight_newline : weight (chr '\n') = 1 := rfl

theorem weight_of_ne (h : c ≠ chr '\n') : weight c = 0 := if_neg h

/-! ### The functions of the states -/

theorem put_holds {s : ParseState} (hs : s.outside = true) (hlevel : p.level ≤ 256) :
    Holds ((p.put c).goto s) 0 (p.collected + weight c) :=
  holds_outside hs hlevel (collected_put p c)

theorem text_holds (hlevel : p.level ≤ 256) : Holds (p.text c) 0 (p.collected + weight c) := by
  rw [text]
  split
  · rename_i hc
    rw [hc]
    exact holds_outside rfl hlevel rfl
  · split
    · exact put_holds rfl hlevel
    · split
      · exact holds_outside rfl hlevel (collected_put p c)
      · split
        · exact put_holds rfl hlevel
        · exact put_holds rfl hlevel

theorem collected_flush (h : OneLineCalls t p.toParser) :
    (p.flush t).collected + flushLoss t p.toParser = p.collected := by
  have hchunk : (p.flush t).chunk = [] := addChunk_chunk t.macros p.toParser
  rw [collected, hchunk, newlines_nil, Nat.add_zero]
  exact newlines_addChunk h

theorem level_flush (hlevel : p.level ≤ 256) : (p.flush t).level ≤ 256 :=
  (addChunk_level t.macros p.toParser).trans_le hlevel

theorem collected_flushRaw (p : Locals W) :
    p.flushRaw.collected + blankLoss p.chunk p.allow = p.collected := by
  rw [collected, flushRaw, newlines_nil, Nat.add_zero]
  exact newlines_addline p.ns p.chunk p.allow

theorem firstColumn_holds (hlevel : p.level ≤ 256) (hcalls : c = chr '#' → OneLineCalls t p.toParser) :
    Holds (p.firstColumn t c) (if c = chr '#' then flushLoss t p.toParser else 0) (p.collected + weight c) := by
  rw [firstColumn]
  split
  · rename_i hc
    have hhead : Holds { p.flush t with cppLines := 1, state := .hash } 0 (p.flush t).collected :=
      holds_head (.inl rfl) (level_flush hlevel) rfl
    have hflush := collected_flush (hcalls hc)
    refine hhead.lose ?_
    rw [hc, weight_of_ne (by decide), hflush, Nat.add_zero]
  · split
    · exact put_holds rfl hlevel
    · exact text_holds hlevel

theorem newlines_constantLine (name v1 comment : List Byte) :
    newlines (constantLine name v1 comment) =
      newlines (cstr name) + newlines (cstr v1) + newlines (cstr comment) + 1 := by
  have hcomment : newlines (if comment = [] then [] else lit " /*" ++ cstr comment ++ lit "*/") =
      newlines (cstr comment) := by
    split
    · rename_i h
      rw [h]
      rfl
    · simp only [newlines_append, show newlines (lit " /*") = 0 by decide, show newlines (lit "*/") = 0 by decide]
      omega
  simp only [constantLine, newlines_append, hcomment, show newlines (lit "%constant ") = 0 by decide,
    show newlines (lit " = ") = 0 by decide, show newlines (lit ";") = 0 by decide,
    show newlines (lit "\n") = 1 by decide]
  omega

theorem newlines_replicate (n : ℕ) : newlines (List.replicate n (chr '\n')) = n := List.count_replicate_self

theorem otherDirective_text {id : List Byte} {d : Directive} {p q : Parser W} (h : t.otherDirective id d p = some q) :
    q.ns = p.ns ∧ q.chunk = p.chunk ∧ (p.level ≤ 256 → q.level ≤ 256) := by
  rw [MacroTable.otherDirective] at h
  split at h
  · obtain ⟨r, hr, rfl⟩ := Option.map_eq_some_iff.mp h
    exact parseConditional_text hr
  · split at h
    · split at h
      · cases h
      · cases h
        exact ⟨rfl, rfl, fun h => h⟩
    · cases h
      exact ⟨rfl, rfl, fun h => h⟩

/-- State 50: `extra` of the lines counted have not been read. -/
theorem directive_holds {extra : ℕ} (hlevel : p.level ≤ 256) (hpos : 1 ≤ p.cppLines)
    (hlines : p.cppLines ≤ newlines p.value + 1 + extra) (h : p.directive t = some q) :
    Holds q (p.directiveLoss t extra)
      (p.collected + (newlines p.value + newlines p.comment) + 1 + p.directiveGain t extra) := by
  rw [directive] at h
  rw [directiveLoss, directiveGain, printed]
  dsimp only at h
  split at h
  · rename_i hid
    rw [if_pos hid]
    cases h
    refine holds_outside rfl hlevel ?_
    cases hprinted : (t.constant (chop p.value) p.allow p.world).1 with
    | none =>
        simp only [collected, newlines_append, newlines_replicate, Option.elim_none, newlines_nil, Option.isSome_none,
          Bool.false_eq_true, if_false]
        omega
    | some r =>
        obtain ⟨name, v1⟩ := r
        have hcomment := newlines_takeWhile p.comment
        simp only [collected, newlines_append, newlines_replicate, Option.elim_some, newlines_constantLine,
          Option.isSome_some, if_true]
        omega
  · rename_i hid
    rw [if_neg hid]
    obtain ⟨r, hr, rfl⟩ := Option.map_eq_some_iff.mp h
    obtain ⟨hns, hchunk, hlevel'⟩ := otherDirective_text hr
    refine holds_outside rfl (hlevel' hlevel) ?_
    simp only [collected, newlines_append, newlines_replicate, hns, hchunk, Option.elim_none]
    omega

/-- What is lost when the directive ends at this character. -/
def lossAt (t : MacroTable W) (p : Locals W) (extra : ℕ) (c : Byte) : ℕ :=
  if c = chr '\n' then p.directiveLoss t extra else 0

/-- What is gained when the directive ends at this character. -/
def gainAt (t : MacroTable W) (p : Locals W) (extra : ℕ) (c : Byte) : ℕ :=
  if c = chr '\n' then p.directiveGain t extra else 0

theorem readValue_holds (hlevel : p.level ≤ 256) (hlines : 1 ≤ p.cppLines ∧ p.cppLines ≤ newlines p.value + 1)
    (h : p.readValue t c = some q) :
    Holds q (lossAt t p 0 c) (p.collected + (newlines p.value + newlines p.comment) + weight c + gainAt t p 0 c) := by
  rw [readValue] at h
  split at h
  · rename_i hc
    rw [lossAt, gainAt, if_pos hc, if_pos hc, hc, weight_newline]
    exact directive_holds hlevel hlines.1 hlines.2 h
  · rename_i hc
    rw [lossAt, gainAt, if_neg hc, if_neg hc, weight_of_ne hc]
    have hput {s : ParseState} (hs : s.inValue = true) : Holds ((p.putValue c).goto s) 0
        (p.collected + (newlines p.value + newlines p.comment) + 0 + 0) := by
      have hvalue := newlines_putValue p c
      rw [weight_of_ne hc, Nat.add_zero] at hvalue
      refine holds_inValue hs hlevel ?_ ?_
      · show _ ∧ _ ≤ newlines (p.putValue c).value + 1
        rw [hvalue]
        exact hlines
      · show p.collected + (newlines (p.putValue c).value + newlines p.comment) + 0 = _
        rw [hvalue]
    split at h
    · cases h
      exact holds_inValue rfl hlevel hlines rfl
    · split at h
      · cases h
        exact hput rfl
      · cases h
        split
        · exact hput rfl
        · exact hput rfl

theorem beforeValue_holds (hlevel : p.level ≤ 256) (hlines : 1 ≤ p.cppLines ∧ p.cppLines ≤ newlines p.value + 1)
    (h : p.beforeValue t c = some q) :
    Holds q (lossAt t p 0 c) (p.collected + (newlines p.value + newlines p.comment) + weight c + gainAt t p 0 c) := by
  rw [beforeValue] at h
  split at h
  · split at h
    · rename_i hc
      rw [lossAt, gainAt, if_pos hc, if_pos hc, hc, weight_newline]
      exact directive_holds hlevel hlines.1 hlines.2 h
    · rename_i hc
      cases h
      rw [lossAt, gainAt, if_neg hc, if_neg hc, weight_of_ne hc]
      exact holds_inValue rfl hlevel hlines rfl
  · exact readValue_holds hlevel hlines h

/-- State 41, with the buffers of the value cleared at its end. -/
theorem name_holds (hlevel : p.level ≤ 256) (hlines : p.cppLines = 1) (h : p.name t c = some q) :
    Holds q (lossAt t { p with value := [], comment := [] } 0 c)
      (p.collected + weight c + gainAt t { p with value := [], comment := [] } 0 c) := by
  rw [name] at h
  dsimp only at h
  have hempty : 1 ≤ p.cppLines ∧ p.cppLines ≤ newlines [] + 1 := ⟨hlines.ge, hlines.le⟩
  split at h
  · split at h
    · rename_i hc
      rw [lossAt, gainAt, if_pos hc, if_pos hc, hc, weight_newline]
      exact @directive_holds _ _ { p with value := [], comment := [] } _ 0 hlevel hempty.1 hempty.2 h
    · split at h
      · rename_i hc _
        cases h
        rw [lossAt, gainAt, if_neg hc, if_neg hc, weight_of_ne hc]
        exact holds_inValue rfl hlevel hempty rfl
      · exact @beforeValue_holds _ _ { p with value := [], comment := [] } _ _ hlevel hempty h
  · rename_i hc
    have hc : c ≠ chr '\n' := by
      rintro rfl
      exact hc rfl
    cases h
    rw [lossAt, gainAt, if_neg hc, if_neg hc, weight_of_ne hc]
    exact holds_head (.inr rfl) hlevel hlines

theorem hash_holds (hlevel : p.level ≤ 256) (hstate : p.state = .hash) (hlines : p.cppLines = 1)
    (h : p.hash t c = some q) : Holds q 0 (p.collected + weight c) := by
  rw [hash] at h
  split at h
  · cases h
    exact put_holds rfl hlevel
  · rename_i hc
    split at h
    · cases h
      rw [weight_of_ne hc]
      exact holds_head (.inl hstate) hlevel hlines
    · have hname := @name_holds _ _ { p with id := [], idLine := p.line } _ _ hlevel hlines h
      rw [lossAt, gainAt, if_neg hc, if_neg hc] at hname
      exact hname

theorem valueEscape_holds (hlevel : p.level ≤ 256) (hlines : 1 ≤ p.cppLines ∧ p.cppLines ≤ newlines p.value + 1)
    (h : p.valueEscape t c = some q) :
    Holds q 0 (p.collected + (newlines p.value + newlines p.comment) + weight c) := by
  rw [valueEscape] at h
  split at h
  · rename_i hc
    cases h
    have hvalue := newlines_putValue p c
    rw [hc, weight_newline] at hvalue
    refine holds_inValue rfl hlevel ?_ ?_
    · show _ ∧ _ ≤ newlines (p.putValue c).value + 1
      rw [hc, hvalue]
      exact ⟨Nat.le_add_left .., by dsimp only; omega⟩
    · show p.collected + (newlines (p.putValue c).value + newlines p.comment) + 0 = _
      rw [hc, hvalue, weight_newline]
      omega
  · rename_i hc
    have hread := readValue_holds hlevel hlines h
    rw [lossAt, gainAt, if_neg hc, if_neg hc] at hread
    exact hread

theorem valueSlash_holds (hlevel : p.level ≤ 256) (hlines : 1 ≤ p.cppLines ∧ p.cppLines ≤ newlines p.value + 1)
    (h : p.valueSlash t c = some q) :
    Holds q (lossAt t { p.putValue (chr '/') with cppLines := p.cppLines + 1 } 1 c)
      (p.collected + (newlines p.value + newlines p.comment) + weight c +
        gainAt t { p.putValue (chr '/') with cppLines := p.cppLines + 1 } 1 c) := by
  have hslash : newlines (p.putValue (chr '/')).value = newlines p.value := newlines_putValue p (chr '/')
  have hother {r : Locals W} (hc : c ≠ chr '\n')
      (hr : Holds r 0 (p.collected + (newlines p.value + newlines p.comment))) :
      Holds r (lossAt t { p.putValue (chr '/') with cppLines := p.cppLines + 1 } 1 c)
        (p.collected + (newlines p.value + newlines p.comment) + weight c +
          gainAt t { p.putValue (chr '/') with cppLines := p.cppLines + 1 } 1 c) := by
    rw [lossAt, gainAt, if_neg hc, if_neg hc, weight_of_ne hc]
    exact hr
  rw [valueSlash] at h
  split at h
  · rename_i hc
    cases h
    exact hother (hc ▸ by decide) (holds_inValue rfl hlevel hlines rfl)
  · split at h
    · rename_i hc
      cases h
      exact hother (hc ▸ by decide) (holds_inValue rfl hlevel hlines rfl)
    · split at h
      · rename_i hc
        rw [lossAt, gainAt, if_pos hc, if_pos hc, hc, weight_newline, ← hslash]
        refine @directive_holds _ _ { p.putValue (chr '/') with cppLines := p.cppLines + 1 } _ 1 hlevel
          (Nat.le_add_left ..) ?_ h
        show p.cppLines + 1 ≤ newlines (p.putValue (chr '/')).value + 1 + 1
        omega
      · rename_i hc
        cases h
        apply hother hc
        have hvalue := newlines_putValue (p.putValue (chr '/')) c
        rw [hslash, weight_of_ne hc, Nat.add_zero] at hvalue
        refine holds_inValue rfl hlevel ?_ ?_
        · show _ ∧ _ ≤ newlines ((p.putValue (chr '/')).putValue c).value + 1
          rw [hvalue]
          exact hlines
        · show p.collected + (newlines ((p.putValue (chr '/')).putValue c).value + newlines p.comment) + 0 = _
          rw [hvalue]
          rfl

theorem valueLineComment_holds (hlevel : p.level ≤ 256) (hstate : p.state = .valueLineComment)
    (hlines : 1 ≤ p.cppLines ∧ p.cppLines ≤ newlines p.value + 1) (h : p.valueLineComment t c = some q) :
    Holds q (lossAt t { p with cppLines := p.cppLines + 1 } 1 c)
      (p.collected + (newlines p.value + newlines p.comment) + weight c +
        gainAt t { p with cppLines := p.cppLines + 1 } 1 c) := by
  rw [valueLineComment] at h
  split at h
  · rename_i hc
    rw [lossAt, gainAt, if_pos hc, if_pos hc, hc, weight_newline]
    refine @directive_holds _ _ { p with cppLines := p.cppLines + 1 } _ 1 hlevel (Nat.le_add_left ..) ?_ h
    exact Nat.add_le_add_right hlines.2 1
  · rename_i hc
    cases h
    rw [lossAt, gainAt, if_neg hc, if_neg hc]
    refine holds_inValue (by rw [putComment, hstate]; rfl) hlevel hlines ?_
    have hcomment := newlines_putComment p c
    show p.collected + (newlines p.value + newlines (p.putComment c).comment) + 0 = _
    omega

theorem valueBlockComment_holds {s : ParseState} (hs : s.inValue = true) (hlevel : p.level ≤ 256)
    (hlines : 1 ≤ p.cppLines ∧ p.cppLines ≤ newlines p.value + 1) :
    Holds ((p.putComment c).goto s) 0 (p.collected + (newlines p.value + newlines p.comment) + weight c) := by
  refine holds_inValue hs hlevel hlines ?_
  have hcomment := newlines_putComment p c
  show p.collected + (newlines p.value + newlines (p.putComment c).comment) + 0 = _
  omega

theorem goto_inValue {s : ParseState} (hs : s.inValue = true) (hlevel : p.level ≤ 256)
    (hlines : 1 ≤ p.cppLines ∧ p.cppLines ≤ newlines p.value + 1) (hc : c ≠ chr '\n') :
    Holds (p.goto s) 0 (p.collected + (newlines p.value + newlines p.comment) + weight c) := by
  rw [weight_of_ne hc]
  exact holds_inValue hs hlevel hlines rfl

theorem putValue_holds {s : ParseState} (hs : s.inValue = true) (hlevel : p.level ≤ 256)
    (hlines : 1 ≤ p.cppLines ∧ p.cppLines ≤ newlines p.value + 1) :
    Holds ((p.putValue c).goto s) 0 (p.collected + (newlines p.value + newlines p.comment) + weight c) := by
  have hvalue := newlines_putValue p c
  refine holds_inValue hs hlevel ?_ ?_
  · show 1 ≤ p.cppLines ∧ p.cppLines ≤ newlines (p.putValue c).value + 1
    omega
  · show p.collected + (newlines (p.putValue c).value + newlines p.comment) + 0 = _
    omega

theorem valueBlockStar_holds (hlevel : p.level ≤ 256) (hstate : p.state = .valueBlockStar)
    (hlines : 1 ≤ p.cppLines ∧ p.cppLines ≤ newlines p.value + 1) :
    Holds (p.valueBlockStar c) 0 (p.collected + (newlines p.value + newlines p.comment) + weight c) := by
  rw [valueBlockStar]
  split
  · rename_i hc
    exact goto_inValue rfl hlevel hlines (hc ▸ by decide)
  · split
    · have hgoto : p.putComment c = (p.putComment c).goto .valueBlockStar := by
        rw [← hstate]
        rfl
      rw [hgoto]
      exact valueBlockComment_holds rfl hlevel hlines
    · have hstar := newlines_putComment p (chr '*')
      have hcomment := newlines_putComment (p.putComment (chr '*')) c
      refine holds_inValue rfl hlevel hlines ?_
      show p.collected + (newlines p.value + newlines ((p.putComment (chr '*')).putComment c).comment) + 0 = _
      rw [hcomment, hstar, weight_of_ne (show chr '*' ≠ chr '\n' by decide)]
      omega

/-- The chunk is flushed, and starts anew with characters that are no newlines. -/
theorem percent_holds (hlevel : p.level ≤ 256)
    (hcalls : c = chr '\x7b' ∨ c = chr '#' → OneLineCalls t p.toParser) :
    Holds (p.percent t c) (if c = chr '\x7b' ∨ c = chr '#' then flushLoss t p.toParser else 0)
      (p.collected + weight c) := by
  have hflush {q : Locals W} (hc : c = chr '\x7b' ∨ c = chr '#') (hstate : q.state.outside = true)
      (hq : q.level ≤ 256) (hcollected : q.collected = (p.flush t).collected) :
      Holds q (if c = chr '\x7b' ∨ c = chr '#' then flushLoss t p.toParser else 0) (p.collected + weight c) := by
    rw [if_pos hc, weight_of_ne (by rcases hc with rfl | rfl <;> decide)]
    refine holds_outside hstate hq ?_
    rw [hcollected]
    exact collected_flush (hcalls hc)
  have hempty : (p.flush t).chunk = [] := addChunk_chunk t.macros p.toParser
  rw [percent]
  split
  · rename_i hc
    refine hflush (.inl hc) rfl (level_flush hlevel) ?_
    rw [collected, collected, hempty, hc]
    rfl
  · split
    · rename_i hc
      refine hflush (.inr hc) rfl (level_flush hlevel) ?_
      exact (collected_put _ c).trans (by rw [hc, weight_of_ne (by decide), Nat.add_zero])
    · rename_i hbrace hhash
      rw [if_neg (not_or.mpr ⟨hbrace, hhash⟩)]
      split
      · rename_i hid
        have hc : c ≠ chr '\n' := by
          rintro rfl
          exact absurd hid (by decide)
        rw [weight_of_ne hc]
        refine holds_swigName rfl hlevel ?_
        simp only [newlines_cons, newlines_nil, if_neg hc]
        rfl
      · refine holds_outside rfl hlevel ?_
        show ((p.put (chr '%')).put c).collected + 0 = _
        rw [collected_put, collected_put, weight_of_ne (show chr '%' ≠ chr '\n' by decide)]
        rfl

theorem define_holds (hlevel : p.level ≤ 256) :
    Holds (p.define c) 0 (p.collected + newlines p.value + weight c) := by
  have hvalue := newlines_putValue p c
  have hamount : p.collected + newlines (p.putValue c).value = p.collected + newlines p.value + weight c := by
    omega
  rw [define]
  split
  · rename_i hc
    refine holds_inDefine rfl hlevel ?_ nofun hamount
    rintro w ⟨⟩
    exact ⟨p.value, by rw [hc]; rfl⟩
  · exact holds_inDefine rfl hlevel nofun nofun hamount

theorem defineWord_holds {w : List Byte} (hlevel : p.level ≤ 256) (hword : ∃ v, p.value = v ++ chr '%' :: w) :
    Holds (p.defineWord w c) 0 (p.collected + newlines p.value + weight c) := by
  have hvalue := newlines_putValue p c
  have hamount : p.collected + newlines (p.putValue c).value = p.collected + newlines p.value + weight c := by
    omega
  have hnext : ∃ v, (p.putValue c).value = v ++ chr '%' :: (w ++ [c]) := by
    obtain ⟨v, hv⟩ := hword
    exact ⟨v, by rw [putValue, hv, List.append_assoc]; rfl⟩
  rw [defineWord]
  split
  · exact holds_inDefine rfl hlevel nofun nofun hamount
  · rename_i hstart
    split
    · rename_i hlength
      refine holds_inDefine rfl hlevel nofun ?_ hamount
      rintro w' ⟨⟩
      simp only [Bool.and_eq_true, Bool.not_eq_true', not_and_or, Bool.not_eq_false, List.isPrefixOf_iff_prefix] at hstart
      exact ⟨hnext, hstart.imp (·.eq_of_length hlength) (·.eq_of_length hlength)⟩
    · refine holds_inDefine rfl hlevel ?_ nofun hamount
      rintro w' ⟨⟩
      exact hnext

theorem defineEnd_holds {w : List Byte} (hlevel : p.level ≤ 256) (hstate : p.state = .defineEnd w)
    (hstatement : (∃ v, p.value = v ++ chr '%' :: w) ∧ (w = lit "enddef" ∨ w = lit "define")) :
    Holds (p.defineEnd t w c) (if p.EndsDefine c then blankLoss (p.value.rdrop 7) false else 0)
      (p.collected + newlines p.value + weight c) := by
  have hdefine {q : Locals W} (h : ¬ p.EndsDefine c) (hq : q.level ≤ 256) (hcollected : q.collected = p.collected)
      (hvalue : q.value = p.value) : Holds (q.define c)
        (if p.EndsDefine c then blankLoss (p.value.rdrop 7) false else 0) (p.collected + newlines p.value + weight c) := by
    rw [if_neg h, ← hcollected, ← hvalue]
    exact define_holds hq
  rw [defineEnd]
  split
  · rename_i hc
    split
    · rename_i hw
      refine hdefine ?_ hlevel rfl rfl
      rintro ⟨h, -⟩
      rw [hstate, hw] at h
      exact absurd h (by decide)
    · rename_i hw
      obtain ⟨⟨v, hv⟩, hword⟩ := hstatement
      obtain rfl := hword.resolve_right hw
      split
      · rename_i hlevel0
        rw [if_pos ⟨hstate, hc, hlevel0⟩]
        have hne : c ≠ chr '#' := by
          rintro rfl
          exact absurd hc (by decide)
        have hdrop : p.value.rdrop 7 = v := by
          rw [hv, List.rdrop]
          exact List.take_left' (by rw [List.length_append]; rfl)
        have hline := newlines_addline p.ns (p.value.rdrop 7) false
        have hfirst := @firstColumn_holds _ t ({ p with dlevel := p.dlevel - 1 }.endDefine t) c hlevel
          (fun h => absurd h hne)
        rw [if_neg hne] at hfirst
        refine hfirst.lose ?_
        have hcollected : ({ p with dlevel := p.dlevel - 1 }.endDefine t).collected =
            newlines (addline p.ns (p.value.rdrop 7) false) + newlines p.chunk := rfl
        have hvalue : newlines p.value = newlines (p.value.rdrop 7) := by
          rw [hdrop, hv, newlines_append]
          rfl
        have hown : p.collected = newlines p.ns + newlines p.chunk := rfl
        omega
      · rename_i hlevel0
        exact hdefine (fun h => hlevel0 h.2.2) hlevel rfl rfl
  · rename_i hc
    exact hdefine (fun h => hc h.2.1) hlevel rfl rfl

theorem swigName_holds (hlevel : p.level ≤ 256) (hdecl : newlines p.decl = 0) (hstate : p.state = .swigName)
    (hcalls : p.Flushes c → OneLineCalls t p.toParser) (h : p.swigName t c = some q) :
    Holds q (if p.Flushes c then flushLoss t p.toParser else 0) (p.collected + weight c) := by
  have hflushes : p.Flushes c ↔ isidchar c = false ∧ p.decl = lit "%define" := by
    rw [Flushes, hstate]
    simp
  rw [swigName] at h
  split at h
  · rename_i hid
    have hc : c ≠ chr '\n' := by
      rintro rfl
      exact absurd hid (by decide)
    cases h
    rw [if_neg (fun h => by simp [hflushes, hid] at h), weight_of_ne hc]
    refine holds_swigName hstate hlevel ?_
    simp only [newlines_append, newlines_cons, newlines_nil, if_neg hc, hdecl]
  · rename_i hid
    split at h
    · rename_i hdecl'
      have hnot : ¬ p.Flushes c := by
        rw [hflushes]
        rintro ⟨-, hdefine⟩
        rw [hdefine] at hdecl'
        exact absurd hdecl' (by decide)
      split at h
      · cases h
      · cases h
        rw [if_neg hnot]
        exact text_holds hlevel
    · split at h
      · rename_i hdecl'
        have hnot : ¬ p.Flushes c := by
          rw [hflushes]
          rintro ⟨-, hdefine⟩
          exact absurd (hdefine.symm.trans hdecl') (by decide)
        cases h
        rw [if_neg hnot]
        exact text_holds hlevel
      · split at h
        · rename_i hdefine
          have hdoes : p.Flushes c := hflushes.mpr ⟨Bool.eq_false_iff.mpr hid, hdefine⟩
          cases h
          rw [if_pos hdoes]
          have hflush := collected_flush (hcalls hdoes)
          refine Holds.lose (define_holds (level_flush hlevel)) ?_
          show (p.flush t).collected + newlines [] + weight c + flushLoss t p.toParser = p.collected + weight c
          rw [newlines_nil]
          omega
        · rename_i hdefine
          rw [if_neg (fun h => hdefine (hflushes.mp h).2)]
          cases h
          have htext := @text_holds _ { p with chunk := p.chunk ++ p.decl } c hlevel
          have hcollected : Locals.collected { p with chunk := p.chunk ++ p.decl } = p.collected := by
            rw [collected, newlines_append, hdecl]
            rfl
          rw [hcollected] at htext
          exact htext

end Locals

end Swig.Preprocessor
