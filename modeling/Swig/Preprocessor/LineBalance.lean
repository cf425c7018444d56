import Swig.Preprocessor.Parse

/-!
The newlines that `Preprocessor_parse` reads and those that it writes.

A newline read is in the output, in the chunk, or in the buffers of a directive
that has not ended. Where a step writes more newlines than it takes from there, or
fewer, is told from the state before it.
-/

namespace Swig.Preprocessor

def newlines (s : List Byte) : ℕ := s.count (chr '\n')

@[simp] theorem newlines_nil : newlines [] = 0 := rfl

@[simp] theorem newlines_append (s u : List Byte) : newlines (s ++ u) = newlines s + newlines u :=
  List.count_append

@[simp] theorem newlines_cons (c : Byte) (s : List Byte) :
    newlines (c :: s) = newlines s + if c = chr '\n' then 1 else 0 := by
  rw [newlines, List.count_cons, newlines]
  simp only [beq_iff_eq]

theorem newlines_takeWhile (s : List Byte) :
    newlines (cstr s) + newlines (s.dropWhile (· != 0)) = newlines s := by
  rw [cstr, ← newlines_append, List.takeWhile_append_dropWhile]

/-! ### Chunks -/

/-- The newlines behind a null byte are lost where the text is blanked. -/
def blankLoss (s : List Byte) (allow : Bool) : ℕ := if allow then 0 else newlines (s.dropWhile (· != 0))

theorem newlines_addline (s1 s2 : List Byte) (allow : Bool) :
    newlines (addline s1 s2 allow) + blankLoss s2 allow = newlines s1 + newlines s2 := by
  rw [addline, blankLoss]
  split
  · rw [newlines_append, Nat.add_zero]
  · have hfilter : newlines ((cstr s2).filter (· == 10)) = newlines (cstr s2) :=
      List.count_filter (by decide)
    rw [newlines_append, ← newlines_takeWhile s2, ← cstr, hfilter, Nat.add_assoc]

/-- The newlines behind an identifier `defined` that is no call. -/
def Piece.loss : Piece → ℕ
  | .notCall _ dropped => newlines dropped
  | _ => 0

/-- Neither the macro call nor what stands for it spans lines. -/
def Piece.OneLine : Piece → Prop
  | .call source put => newlines source = 0 ∧ newlines put = 0
  | _ => True

instance : DecidablePred Piece.OneLine
  | .call source put => inferInstanceAs (Decidable (newlines source = 0 ∧ newlines put = 0))
  | .copy _ | .notCall _ _ => inferInstanceAs (Decidable True)

theorem newlines_put {ps : List Piece} (h : ∀ x ∈ ps, x.OneLine) :
    newlines (ps.flatMap Piece.put) + (ps.map Piece.loss).sum = newlines (ps.flatMap Piece.source) := by
  induction ps with
  | nil => rfl
  | cons x ps ih =>
      obtain ⟨hx, hps⟩ := List.forall_mem_cons.mp h
      have hone : newlines x.put + x.loss = newlines x.source := by
        cases x with
        | copy text => rfl
        | call source put => exact hx.2.trans hx.1.symm
        | notCall id dropped => exact (newlines_append id dropped).symm
      have ih := ih hps
      simp only [List.flatMap_cons, newlines_append, List.map_cons, List.sum_cons]
      omega

variable {W : Type} (t : MacroTable W)

/-- The newlines that are lost when the chunk is flushed. -/
def flushLoss (p : Parser W) : ℕ :=
  if p.allow then ((t.replacePieces p.chunk p.world).1.map Piece.loss).sum else blankLoss p.chunk false

/-- No macro call that is replaced when the chunk is flushed spans lines. -/
def OneLineCalls (p : Parser W) : Prop :=
  p.allow = true → ∀ x ∈ (t.replacePieces p.chunk p.world).1, x.OneLine

instance (p : Parser W) : Decidable (OneLineCalls t p) :=
  inferInstanceAs (Decidable (_ → ∀ x ∈ (t.replacePieces p.chunk p.world).1, x.OneLine))

variable {t}

theorem newlines_addChunk {p : Parser W} (h : OneLineCalls t p) :
    newlines (addChunk t.macros p).ns + flushLoss t p = newlines p.ns + newlines p.chunk := by
  rw [addChunk, flushLoss]
  split
  · rename_i hallow
    have hput := newlines_put (h hallow)
    rw [t.replacePieces_source] at hput
    show newlines (addline p.ns (t.replace p.chunk p.world).1 p.allow) + _ = _
    rw [addline, if_pos hallow, newlines_append, MacroTable.replace, Nat.add_assoc, hput]
  · exact newlines_addline p.ns p.chunk false

theorem addChunk_chunk (m : Macros W) (p : Parser W) : (addChunk m p).chunk = [] := by
  rw [addChunk]
  split <;> rfl

theorem addChunk_level (m : Macros W) (p : Parser W) : (addChunk m p).level = p.level := by
  rw [addChunk]
  split <;> rfl

/-! ### Directives -/

theorem evaluate_text (m : Macros W) (d : Directive) (p : Parser W) :
    (evaluate m d p).2.ns = p.ns ∧ (evaluate m d p).2.chunk = p.chunk ∧ (evaluate m d p).2.level = p.level := by
  simp only [evaluate]
  split
  · split
    · exact ⟨rfl, rfl, rfl⟩
    · exact ⟨rfl, rfl, rfl⟩
  · exact ⟨rfl, rfl, rfl⟩

theorem opening_text (m : Macros W) (o : Opening) (d : Directive) (p : Parser W) :
    (o.evaluate m d p).2.ns = p.ns ∧ (o.evaluate m d p).2.chunk = p.chunk ∧
      (o.evaluate m d p).2.level = p.level := by
  cases o with
  | ifdef => exact ⟨rfl, rfl, rfl⟩
  | ifndef => exact ⟨rfl, rfl, rfl⟩
  | if_ => exact evaluate_text m d p

/-- The text that is collected and the nesting, as a conditional leaves them. -/
theorem parseConditional_text {m : Macros W} {k : Conditional} {d : Directive} {p : Parser W}
    {r : Parser W × List Event} (h : parseConditional m k d p = some r) :
    r.1.ns = p.ns ∧ r.1.chunk = p.chunk ∧ (p.level ≤ 256 → r.1.level ≤ 256) := by
  have hset {q : Parser W} {i line : ℕ} (h : p.setCondLine i line = some q) :
      i < 256 ∧ q.ns = p.ns ∧ q.chunk = p.chunk ∧ q.level = p.level := by
    rw [Parser.setCondLine] at h
    split at h
    · cases h
      exact ⟨‹_›, rfl, rfl, rfl⟩
    · cases h
  cases k with
  | opening o =>
      obtain ⟨q, hq, h⟩ := Option.bind_eq_some_iff.mp h
      obtain ⟨hi, hns, hchunk, hlevel⟩ := hset hq
      dsimp only at h
      split at h
      · cases h
        obtain ⟨hns', hchunk', hlevel'⟩ := opening_text m o d { q with level := q.level + 1 }
        exact ⟨hns'.trans hns, hchunk'.trans hchunk, fun _ => hlevel'.trans_le (by dsimp only; omega)⟩
      · cases h
        exact ⟨hns, hchunk, fun _ => by dsimp only; omega⟩
  | else_ =>
      simp only [parseConditional, parseElse] at h
      split at h
      · cases h
        exact ⟨rfl, rfl, id⟩
      · obtain ⟨q, hq, h⟩ := Option.bind_eq_some_iff.mp h
        obtain ⟨hi, hns, hchunk, hlevel⟩ := hset hq
        split at h
        · cases h
          exact ⟨hns, hchunk, hlevel.trans_le⟩
        · split at h
          · cases h
            exact ⟨hns, hchunk, hlevel.trans_le⟩
          · cases h
            exact ⟨hns, hchunk, hlevel.trans_le⟩
  | elif =>
      simp only [parseConditional, parseElif] at h
      split at h
      · cases h
        exact ⟨rfl, rfl, id⟩
      · obtain ⟨q, hq, h⟩ := Option.bind_eq_some_iff.mp h
        obtain ⟨hi, hns, hchunk, hlevel⟩ := hset hq
        split at h
        · cases h
          exact ⟨hns, hchunk, hlevel.trans_le⟩
        · split at h
          · cases h
            obtain ⟨hns', hchunk', hlevel'⟩ := evaluate_text m d q
            exact ⟨hns'.trans hns, hchunk'.trans hchunk, (hlevel'.trans hlevel).trans_le⟩
          · cases h
            exact ⟨hns, hchunk, hlevel.trans_le⟩
  | endif =>
      simp only [parseConditional, parseEndif] at h
      split at h
      · cases h
        exact ⟨rfl, rfl, id⟩
      · rename_i level hlevel
        split at h
        · cases h
          exact ⟨rfl, rfl, fun h => by dsimp only; omega⟩
        · cases h
          exact ⟨rfl, rfl, fun h => by dsimp only; omega⟩

/-- Only a conditional that opens finds no place for its line. -/
theorem parseConditional_isSome {m : Macros W} {k : Conditional} {d : Directive} {p : Parser W}
    (hp : p.level ≤ 256) :
    (∃ r, parseConditional m k d p = some r) ↔ ((∃ o, k = .opening o) → p.level < 256) := by
  have hset (i line : ℕ) (h : i < 256) : ∃ q, p.setCondLine i line = some q := ⟨_, dif_pos h⟩
  cases k with
  | opening o =>
      simp only [Conditional.opening.injEq, exists_eq', forall_const]
      constructor
      · rintro ⟨r, h⟩
        obtain ⟨q, hq, -⟩ := Option.bind_eq_some_iff.mp h
        rw [Parser.setCondLine] at hq
        split at hq
        · assumption
        · cases hq
      · intro h
        obtain ⟨q, hq⟩ := hset p.level d.line h
        simp only [parseConditional, parseOpening, hq, Option.bind_eq_bind, Option.bind_some]
        split <;> exact ⟨_, rfl⟩
  | else_ =>
      refine iff_of_true ?_ nofun
      simp only [parseConditional, parseElse]
      split
      · exact ⟨_, rfl⟩
      · obtain ⟨q, hq⟩ := hset (p.level - 1) d.line (by omega)
        rw [hq, Option.bind_eq_bind, Option.bind_some]
        split
        · exact ⟨_, rfl⟩
        · split <;> exact ⟨_, rfl⟩
  | elif =>
      refine iff_of_true ?_ nofun
      simp only [parseConditional, parseElif]
      split
      · exact ⟨_, rfl⟩
      · obtain ⟨q, hq⟩ := hset (p.level - 1) d.line (by omega)
        rw [hq, Option.bind_eq_bind, Option.bind_some]
        split
        · exact ⟨_, rfl⟩
        · split <;> exact ⟨_, rfl⟩
  | endif =>
      refine iff_of_true ?_ nofun
      simp only [parseConditional, parseEndif]
      split
      · exact ⟨_, rfl⟩
      · split <;> exact ⟨_, rfl⟩

end Swig.Preprocessor
