import Swig.DOH.StringHeap
import Swig.DOH.StringOps

/-!
The room in the buffers of string objects over whole runs: the size a string keeps is that of
its buffer, or one less in a copy, and it is never 0 unless an empty string was copied.
-/

namespace Swig.DOH

open ByteBlock

namespace DohString

variable {s s' s₁ : DohString} {junk : ℕ → Byte} {new : List Byte}

/-- The contents and a terminator are in the buffer, and the size kept is positive and at most
one less than that of the buffer. -/
structure Roomy (s : DohString) : Prop where
  len_nonneg : 0 ≤ s.len
  len_lt : s.len < s.str.length
  maxsize_pos : 0 < s.maxsize
  maxsize_le : s.maxsize ≤ s.str.length
  length_le : (s.str.length : ℤ) ≤ s.maxsize + 1

/-- The buffer is as large as before, or a new one of the size kept. -/
def Resized (s s' : DohString) : Prop :=
  (s'.maxsize = s.maxsize ∧ s'.str.length = s.str.length) ∨ (0 < s'.maxsize ∧ (s'.str.length : ℤ) = s'.maxsize)

theorem Resized.refl (s : DohString) : Resized s s := .inl ⟨rfl, rfl⟩

theorem Resized.trans (h : Resized s s₁) (h' : Resized s₁ s') : Resized s s' := by
  rcases h' with ⟨hmax, hlength⟩ | hnew
  · rw [Resized, hmax, hlength]
    exact h
  · exact .inr hnew

theorem resized_setMaxsize {n : ℤ} (hs : s.setMaxsize junk n = some s') :
    Resized s s' ∧ s'.maxsize = n ∧ s'.len = s.len ∧ s'.sp = s.sp := by
  obtain ⟨b, hb, hs⟩ := Option.bind_eq_some_iff.mp hs
  cases hs
  have hn : 0 < n := by
    by_contra hn
    rw [realloc, if_neg hn] at hb
    cases hb
  exact ⟨.inr ⟨hn, (realloc_eq_some hb).1⟩, rfl, rfl, rfl⟩

/-- A string whose buffer has been resized, with a terminator behind its new contents. -/
theorem Roomy.resize (h : Roomy s) (h₁ : Resized s s₁) (hmax : s'.maxsize = s₁.maxsize)
    (hlength : s'.str.length = s₁.str.length) (hlen : 0 ≤ s'.len) (hlt : s'.len < s'.str.length) : Roomy s' := by
  have hle := h.maxsize_le
  have hle' := h.length_le
  have hpos := h.maxsize_pos
  rcases h₁ with ⟨hmax₁, hlength₁⟩ | ⟨hpos₁, hlength₁⟩
  · exact ⟨hlen, hlt, by omega, by omega, by omega⟩
  · exact ⟨hlen, hlt, by omega, by omega, by omega⟩

/-- Operations that write in the buffer. -/
theorem Roomy.rewrite (h : Roomy s) (hmax : s'.maxsize = s.maxsize) (hlength : s'.str.length = s.str.length)
    (hlen : 0 ≤ s'.len) (hlt : s'.len < s'.str.length) : Roomy s' :=
  h.resize (.refl s) hmax hlength hlen hlt

/-- Operations that leave the buffer. -/
theorem Roomy.leave (h : Roomy s) (hmax : s'.maxsize = s.maxsize) (hstr : s'.str = s.str) (hlen : s'.len = s.len) :
    Roomy s' :=
  h.rewrite hmax (by rw [hstr]) (by rw [hlen]; exact h.len_nonneg) (by rw [hlen, hstr]; exact h.len_lt)

/-! ### Constructors and copies -/

theorem roomy_of_malloc {b : Block} {n : ℤ} (hb : malloc junk n = some b) (hmax : s.maxsize = n)
    (hlength : s.str.length = b.length) (hlen : 0 ≤ s.len) (hlt : s.len < n) : Roomy s := by
  have hn := length_malloc hb
  exact ⟨hlen, by omega, by omega, by omega, by omega⟩

theorem roomy_newString {so : Option (List Byte × ℤ × ℤ)} (hlen : ∀ txt l key, so = some (txt, l, key) → 0 ≤ l)
    (hs : newString junk so = some s) : Roomy s := by
  cases so with
  | none =>
      simp only [newString, Option.bind_eq_bind, Option.bind_eq_some_iff] at hs
      obtain ⟨b, hb, b', hb', hs⟩ := hs
      cases hs
      exact roomy_of_malloc hb rfl (length_store hb') (Int.le_refl 0) (by dsimp only; decide)
  | some source =>
      obtain ⟨txt, l, key⟩ := source
      simp only [newString, Option.bind_eq_bind, Option.bind_eq_some_iff] at hs
      obtain ⟨b, hb, b', hb', hs⟩ := hs
      cases hs
      refine roomy_of_malloc hb rfl (length_storeBytes hb') (hlen _ _ _ rfl) ?_
      dsimp only
      split <;> omega

theorem roomy_newStringEmpty (hs : newStringEmpty junk = some s) : Roomy s := by
  simp only [newStringEmpty, Option.bind_eq_bind, Option.bind_eq_some_iff] at hs
  obtain ⟨b, hb, b', hb', hs⟩ := hs
  cases hs
  exact roomy_of_malloc hb rfl (length_store hb') (Int.le_refl 0) (by dsimp only; decide)

theorem roomy_newStringWithSize {so : Option (List Byte)} {len : ℤ}
    (hs : newStringWithSize junk so len = some s) : Roomy s := by
  cases so with
  | none =>
      simp only [newStringWithSize, Option.bind_eq_bind, Option.bind_eq_some_iff] at hs
      obtain ⟨b, hb, b', hb', hs⟩ := hs
      cases hs
      exact roomy_of_malloc hb rfl (length_store hb') (Int.le_refl 0) (by dsimp only; decide)
  | some txt =>
      simp only [newStringWithSize, Option.bind_eq_bind, Option.bind_eq_some_iff] at hs
      obtain ⟨b, hb, u, hlen, b', hb', hs⟩ := hs
      cases hs
      have hlen : 0 ≤ len := by
        by_contra hneg
        simp [hneg] at hlen
      refine roomy_of_malloc hb rfl (length_storeBytes hb') hlen ?_
      dsimp only
      split <;> omega

/-- The copy of a string keeps one byte less than its buffer has. -/
theorem Roomy.copyString (h : Roomy s) (hne : s.len ≠ 0) (hs : s.copyString junk = some s') : Roomy s' := by
  have hlen := h.len_nonneg
  simp only [DohString.copyString, Option.bind_eq_bind, Option.bind_eq_some_iff] at hs
  obtain ⟨b, hb, bytes, -, b₁, hb₁, b₂, hb₂, hs⟩ := hs
  cases hs
  have hn := length_malloc hb
  have hlength := (length_store hb₂).trans (length_storeBytes hb₁)
  exact ⟨hlen, by dsimp only; omega, by dsimp only; omega, by dsimp only; omega, by dsimp only; omega⟩

/-! ### Operations that make the buffer larger -/

theorem resized_appendRoom {newlen : ℤ} (hs : s.appendRoom junk newlen = some s') :
    Resized s s' ∧ newlen < s'.maxsize ∧ s'.len = s.len := by
  unfold DohString.appendRoom at hs
  split at hs
  · obtain ⟨h₁, hmax, hlen, -⟩ := resized_setMaxsize hs
    refine ⟨h₁, ?_, hlen⟩
    rw [hmax]
    split <;> omega
  · cases hs
    exact ⟨.refl s, by omega, rfl⟩

/-- What `DohString_append` leaves of the buffer, whatever was in it. -/
theorem append_eq_some (hs : s.append junk new = some s') :
    ∃ s₁, Resized s s₁ ∧ s'.maxsize = s₁.maxsize ∧ s'.str.length = s₁.str.length ∧
      s'.len = s.len + new.length ∧ s'.len < s'.str.length ∧ s'.len + 1 < s'.maxsize := by
  unfold DohString.append at hs
  simp only [Option.bind_eq_bind, Option.bind_eq_some_iff] at hs
  obtain ⟨s₁, hs₁, b, hb, hs⟩ := hs
  obtain ⟨h₁, hroom, hlen⟩ := resized_appendRoom hs₁
  have hlength := length_storeBytes hb
  have hfit := (storeBytes_le hb (by simp)).2
  simp only [List.length_append, List.length_singleton] at hfit
  refine ⟨s₁, h₁, ?_⟩
  split at hs
  · simp only [Option.bind_eq_some_iff] at hs
    obtain ⟨u, -, k, -, hs⟩ := hs
    cases hs
    exact ⟨rfl, hlength, by rw [hlen], by dsimp only; omega, by dsimp only; omega⟩
  · cases hs
    exact ⟨rfl, hlength, by rw [hlen], by dsimp only; omega, by dsimp only; omega⟩

theorem Roomy.append (h : Roomy s) (hs : s.append junk new = some s') : Roomy s' := by
  obtain ⟨s₁, h₁, hmax, hlength, hlen, hlt, -⟩ := append_eq_some hs
  have := h.len_nonneg
  exact h.resize h₁ hmax hlength (by omega) hlt

theorem resized_grow {need : ℤ} {n : ℕ} (hs : grow junk need n s = some s') : Resized s s' := by
  induction n generalizing s with
  | zero => cases hs
  | succ n ih =>
      rw [grow] at hs
      split at hs
      · obtain ⟨s₁, hs₁, hs⟩ := Option.bind_eq_some_iff.mp hs
        exact (resized_setMaxsize hs₁).1.trans (ih hs)
      · cases hs
        exact .refl _

theorem resized_writeRoom {l sp : ℤ} (hs : DohString.writeRoom junk { s with sp := sp } l = some s') :
    Resized s s' := by
  unfold DohString.writeRoom at hs
  obtain ⟨s₁, hs₁, hs⟩ := Option.bind_eq_some_iff.mp hs
  cases hs
  split at hs₁
  · obtain ⟨s₂, hs₂, rfl⟩ := Option.map_eq_some_iff.mp hs₁
    exact (resized_setMaxsize hs₂).1
  · cases hs₁
    exact .refl s

theorem resized_putcRoom (hs : s.putcRoom junk = some s') : Resized s s' ∧ s'.sp = s.sp := by
  unfold putcRoom at hs
  split at hs
  · obtain ⟨h₁, -, -, hsp⟩ := resized_setMaxsize hs
    exact ⟨h₁, hsp⟩
  · cases hs
    exact ⟨.refl s, rfl⟩

theorem Roomy.insert {pos : ℤ} {own : Bool} (h : Roomy s) (hs : s.insert junk pos new own = some s') :
    Roomy s' := by
  unfold DohString.insert at hs
  simp only [Option.bind_eq_bind, Option.bind_eq_some_iff] at hs
  obtain ⟨u, -, s₁, hs₁, b₁, hb₁, b₂, hb₂, b₃, hb₃, hs⟩ := hs
  have hlength := (length_store hb₃).trans ((length_storeBytes hb₂).trans (length_memmove hb₁))
  obtain ⟨hpos, hlt, -⟩ := store_eq_some hb₃
  rw [← length_store hb₃] at hlt
  have hmk {line sp : ℤ} : Roomy { s₁ with
      str := b₃, hashkey := -1, line := line, sp := sp, len := s₁.len + new.length } :=
    h.resize (resized_grow hs₁) rfl hlength hpos hlt
  cases hs
  exact hmk

theorem Roomy.write (h : Roomy s) (hs : s.write junk new = some s') : Roomy s' := by
  unfold DohString.write at hs
  simp only [Option.bind_eq_bind, Option.bind_eq_some_iff] at hs
  obtain ⟨s₁, hs₁, b₁, hb₁, b₂, hb₂, hs⟩ := hs
  cases hs
  obtain ⟨hpos, hlt, -⟩ := store_eq_some hb₂
  have hlength := (length_store hb₂).trans (length_storeBytes hb₁)
  rw [← length_store hb₂] at hlt
  have h₁ : Resized s s₁ := resized_writeRoom hs₁
  exact h.resize h₁ rfl hlength hpos hlt

/-- `String_putc` behind the contents. -/
theorem putc_end_eq_some {ch : Byte} (hsp : s.sp ≥ s.len) (hs : s.putc junk ch = some s') :
    ∃ s₁, s.putcRoom junk = some s₁ ∧ s'.maxsize = s₁.maxsize ∧ s'.str.length = s₁.str.length ∧
      s'.len = s.sp + 1 ∧ 0 ≤ s'.len ∧ s'.len < s'.str.length := by
  unfold DohString.putc at hs
  dsimp only at hs
  rw [if_pos hsp] at hs
  simp only [Option.bind_eq_bind, Option.bind_eq_some_iff] at hs
  obtain ⟨s₁, hs₁, b₁, hb₁, b₂, hb₂, hs⟩ := hs
  cases hs
  obtain ⟨-, hsp₁⟩ := resized_putcRoom hs₁
  obtain ⟨hpos, hlt, -⟩ := store_eq_some hb₂
  rw [← length_store hb₂] at hlt
  exact ⟨s₁, hs₁, rfl, (length_store hb₂).trans (length_store hb₁), by rw [hsp₁], hpos, hlt⟩

/-- `String_putc` within the contents. -/
theorem putc_inside_eq_some {ch : Byte} (hsp : s.sp < s.len) (hs : s.putc junk ch = some s') :
    s'.len = s.len ∧ s'.maxsize = s.maxsize ∧ s'.str.length = s.str.length := by
  unfold DohString.putc at hs
  dsimp only at hs
  rw [if_neg (by omega)] at hs
  obtain ⟨b, hb, hs⟩ := Option.bind_eq_some_iff.mp hs
  cases hs
  exact ⟨rfl, rfl, length_store hb⟩

theorem Roomy.putc {ch : Byte} (h : Roomy s) (hs : s.putc junk ch = some s') : Roomy s' := by
  have hlen := h.len_nonneg
  have hlt := h.len_lt
  by_cases hsp : s.sp ≥ s.len
  · obtain ⟨s₁, hs₁, hmax, hlength, -, hpos, hlt⟩ := putc_end_eq_some hsp hs
    exact h.resize (resized_putcRoom hs₁).1 hmax hlength hpos hlt
  · obtain ⟨hlen', hmax, hlength⟩ := putc_inside_eq_some (by omega) hs
    exact h.rewrite hmax hlength (by omega) (by omega)

/-! ### Operations that write in the buffer -/

theorem Roomy.stringData (h : Roomy s) (hs : s.stringData = some s') : Roomy s' := by
  obtain ⟨b, hb, hs⟩ := Option.bind_eq_some_iff.mp hs
  cases hs
  have hlength := length_store hb
  have hlt := h.len_lt
  exact h.rewrite rfl hlength h.len_nonneg (by dsimp only; omega)

theorem Roomy.clear (h : Roomy s) (hs : s.clear = some s') : Roomy s' := by
  obtain ⟨b, hb, hs⟩ := Option.bind_eq_some_iff.mp hs
  cases hs
  have hlength := length_store hb
  have hlen := h.len_nonneg
  have hlt := h.len_lt
  exact h.rewrite rfl hlength (Int.le_refl 0) (by dsimp only; omega)

/-- The end of the operations that take bytes out: the rest moved down, and a terminator. -/
theorem Roomy.close {b b₁ b₂ : Block} {len dst src n : ℤ} (h : Roomy s) (hb₁ : memmove b dst src n = some b₁)
    (hb₂ : store b₁ len 0 = some b₂) (hb : b = s.str) (hstr : s'.str = b₂) (hmax : s'.maxsize = s.maxsize)
    (hlen : s'.len = len) : Roomy s' := by
  obtain ⟨hpos, hlt, -⟩ := store_eq_some hb₂
  rw [← length_store hb₂] at hlt
  refine h.rewrite hmax ?_ (by omega) (by rw [hlen, hstr]; exact hlt)
  rw [hstr, (length_store hb₂).trans (length_memmove hb₁), hb]

theorem delitemPosition_eq_some {pos : ℤ} (hs : s.delitemPosition pos = some s') :
    s'.str = s.str ∧ s'.maxsize = s.maxsize := by
  unfold delitemPosition at hs
  split at hs
  · simp only [Option.bind_eq_bind, Option.bind_eq_some_iff] at hs
    obtain ⟨u, -, c, -, hs⟩ := hs
    cases hs
    exact ⟨rfl, rfl⟩
  · cases hs
    exact ⟨rfl, rfl⟩

theorem Roomy.delitem {pos : ℤ} (h : Roomy s) (hs : s.delitem pos = some s') : Roomy s' := by
  unfold DohString.delitem at hs
  dsimp only at hs
  split at hs
  · cases hs
    exact h.leave rfl rfl rfl
  · simp only [Option.bind_eq_bind, Option.bind_eq_some_iff] at hs
    obtain ⟨s₁, hs₁, b₁, hb₁, b₂, hb₂, hs⟩ := hs
    cases hs
    obtain ⟨hstr, hmax⟩ := delitemPosition_eq_some hs₁
    exact h.close hb₁ hb₂ hstr rfl hmax rfl

theorem delslicePosition_eq_some {sindex eindex : ℤ} (hs : s.delslicePosition sindex eindex = some s') :
    s'.str = s.str ∧ s'.maxsize = s.maxsize := by
  unfold delslicePosition at hs
  split at hs
  · simp only [Option.bind_eq_bind, Option.bind_eq_some_iff] at hs
    obtain ⟨k, -, u, -, hs⟩ := hs
    cases hs
    exact ⟨rfl, rfl⟩
  · cases hs
    exact ⟨rfl, rfl⟩

theorem Roomy.delslice {sindex eindex : ℤ} (h : Roomy s) (hs : s.delslice sindex eindex = some s') : Roomy s' := by
  unfold DohString.delslice at hs
  split at hs
  · cases hs
    exact h
  · simp only [Option.bind_eq_bind, Option.bind_eq_some_iff] at hs
    obtain ⟨s₁, hs₁, b₁, hb₁, b₂, hb₂, hs⟩ := hs
    cases hs
    obtain ⟨hstr, hmax⟩ := delslicePosition_eq_some hs₁
    exact h.close hb₁ hb₂ hstr rfl hmax rfl

theorem chopLoop_eq_some' {n : ℕ} (hs : chopLoop n s = some s') : s'.str = s.str ∧ s'.maxsize = s.maxsize := by
  induction n generalizing s with
  | zero =>
      cases hs
      exact ⟨rfl, rfl⟩
  | succ n ih =>
      rw [chopLoop] at hs
      split at hs
      · obtain ⟨c, -, hs⟩ := Option.bind_eq_some_iff.mp hs
        split at hs
        · obtain ⟨hstr, hmax⟩ := ih hs
          rw [hstr, hmax]
          split <;> exact ⟨rfl, rfl⟩
        · cases hs
          exact ⟨rfl, rfl⟩
      · cases hs
        exact ⟨rfl, rfl⟩

theorem Roomy.chop (h : Roomy s) (hs : s.chop = some s') : Roomy s' := by
  unfold DohString.chop at hs
  simp only [Option.bind_eq_bind, Option.bind_eq_some_iff] at hs
  obtain ⟨s₁, hs₁, b, hb, u, -, hs⟩ := hs
  cases hs
  obtain ⟨hstr, hmax⟩ := chopLoop_eq_some' hs₁
  obtain ⟨hpos, hlt, -⟩ := store_eq_some hb
  rw [← length_store hb] at hlt
  exact h.rewrite hmax (by rw [← hstr]; exact length_store hb) hpos hlt

/-! ### Operations that read -/

theorem Roomy.seek {offset : ℤ} {whence : Whence} (h : Roomy s) (hs : s.seek offset whence = some s') : Roomy s' := by
  unfold DohString.seek at hs
  simp only [Option.bind_eq_bind, Option.bind_eq_some_iff] at hs
  obtain ⟨k, -, u, -, hs⟩ := hs
  cases hs
  exact h.leave rfl rfl rfl

theorem Roomy.getc {c : Option Byte} (h : Roomy s) (hs : s.getc = some (c, s')) : Roomy s' := by
  unfold DohString.getc at hs
  split at hs
  · cases hs
    exact h
  · obtain ⟨c, -, hs⟩ := Option.bind_eq_some_iff.mp hs
    cases hs
    exact h.leave rfl rfl rfl

theorem Roomy.ungetc (h : Roomy s) (ch : Option Byte) : Roomy (s.ungetc ch) := by
  cases ch with
  | none => exact h
  | some ch =>
      unfold DohString.ungetc
      dsimp only
      split
      · exact h
      · exact h.leave rfl rfl rfl

theorem Roomy.read {len : ℤ} {y : List Byte} (h : Roomy s) (hs : s.read len = some (y, s')) : Roomy s' := by
  unfold DohString.read at hs
  dsimp only at hs
  generalize (if s.sp + len > s.len then s.len - s.sp else len) = reallen at hs
  split at hs
  · obtain ⟨y, -, hs⟩ := Option.bind_eq_some_iff.mp hs
    cases hs
    exact h.leave rfl rfl rfl
  · cases hs
    exact h

theorem Roomy.hash {k : ℤ} (h : Roomy s) (hs : s.hash = some (k, s')) : Roomy s' := by
  unfold DohString.hash at hs
  split at hs
  · cases hs
    exact h
  · obtain ⟨c, -, hs⟩ := Option.bind_eq_some_iff.mp hs
    cases hs
    exact h.leave rfl rfl rfl

/-! ### Replacing -/

section Replace

variable {r : MatchRule} {token rep : List Byte} {once noquote : Bool} {first n : ℕ}

/-- A replacement by at most as many bytes moves bytes down within the buffer. -/
theorem length_moved {b b' : Block} {shrinks : Prop} [Decidable shrinks] {dst src n : ℤ}
    (hb : (if shrinks then memmove b dst src n else some b) = some b') : b'.length = b.length := by
  split at hb
  · exact length_memmove hb
  · cases hb
    rfl

theorem length_shrinkLoop {len : ℤ} {fuel t i k : ℕ} {b b' : Block}
    (hs : shrinkLoop r token rep len once fuel b t i noquote = some (b', k)) : b'.length = b.length := by
  induction fuel generalizing b t i k noquote with
  | zero => cases hs
  | succ fuel ih =>
      rw [shrinkLoop] at hs
      obtain ⟨b₁, hb₁, hs⟩ := Option.bind_eq_some_iff.mp hs
      have hlength₁ := length_storeBytes hb₁
      dsimp only at hs
      split at hs
      · obtain ⟨b₂, hb₂, hs⟩ := Option.bind_eq_some_iff.mp hs
        cases hs
        exact (length_moved hb₂).trans hlength₁
      · obtain ⟨⟨m, noquote'⟩, -, hs⟩ := Option.bind_eq_some_iff.mp hs
        cases m with
        | none =>
            obtain ⟨b₂, hb₂, hs⟩ := Option.bind_eq_some_iff.mp hs
            cases hs
            exact (length_moved hb₂).trans hlength₁
        | some c =>
            obtain ⟨b₂, hb₂, hs⟩ := Option.bind_eq_some_iff.mp hs
            obtain ⟨⟨b₃, k'⟩, hb₃, hs⟩ := Option.bind_eq_some_iff.mp hs
            cases hs
            exact (ih hb₃).trans ((length_moved hb₂).trans hlength₁)

theorem length_copyLoop {len : ℤ} {k t i : ℕ} {b ns ns' : Block}
    (hs : copyLoop r b token rep len k ns t i noquote = some ns') : ns'.length = ns.length := by
  induction k generalizing ns t i noquote with
  | zero =>
      rw [copyLoop] at hs
      simp only [Option.bind_eq_bind, Option.bind_eq_some_iff] at hs
      obtain ⟨ns₁, hns₁, -, -, y, -, hs⟩ := hs
      exact (length_storeBytes hs).trans (length_storeBytes hns₁)
  | succ k ih =>
      rw [copyLoop] at hs
      simp only [Option.bind_eq_bind, Option.bind_eq_some_iff] at hs
      obtain ⟨ns₁, hns₁, ⟨m, noquote'⟩, -, c, -, y, -, ns₂, hns₂, hs⟩ := hs
      exact (ih hs).trans ((length_storeBytes hns₂).trans (length_storeBytes hns₁))

theorem Roomy.replaceInPlace (h : Roomy s) (hs : s.replaceInPlace r token rep once first noquote = some (n, s')) :
    Roomy s' := by
  unfold DohString.replaceInPlace at hs
  simp only [Option.bind_eq_bind, Option.bind_eq_some_iff] at hs
  obtain ⟨⟨b, k⟩, hb, b', hb', hs⟩ := hs
  cases hs
  obtain ⟨hpos, hlt, -⟩ := store_eq_some hb'
  rw [← length_store hb'] at hlt
  exact h.rewrite rfl ((length_store hb').trans (length_shrinkLoop hb)) hpos hlt

/-- The new buffer has the size the doubling ended with. -/
theorem roomy_replaceExpanding (hs : s.replaceExpanding r token rep once junk first noquote = some (n, s')) :
    Roomy s' := by
  unfold DohString.replaceExpanding at hs
  simp only [Option.bind_eq_bind, Option.bind_eq_some_iff] at hs
  obtain ⟨⟨more, noquote'⟩, -, newsize, -, ns, hns, y, -, ns₁, hns₁, ns₂, hns₂, ns₃, hns₃, hs⟩ := hs
  cases hs
  obtain ⟨hpos, hlt, -⟩ := store_eq_some hns₃
  have hlength : ns₃.length = ns.length :=
    (length_store hns₃).trans ((length_copyLoop hns₂).trans (length_storeBytes hns₁))
  have hn := length_malloc hns
  rw [← length_store hns₃] at hlt
  exact roomy_of_malloc hns rfl hlength hpos (by dsimp only at hlt ⊢; omega)

theorem Roomy.replaceSimple (h : Roomy s) (hs : s.replaceSimple junk token rep noquote once r = some (n, s')) :
    Roomy s' := by
  unfold DohString.replaceSimple at hs
  split at hs
  · cases hs
    exact h
  · obtain ⟨m, -, hs⟩ := Option.bind_eq_some_iff.mp hs
    cases m with
    | none =>
        cases hs
        exact h
    | some k =>
        obtain ⟨⟨m, noquote'⟩, -, hs⟩ := Option.bind_eq_some_iff.mp hs
        have hdrop : Roomy { s with hashkey := -1 } := h.leave rfl rfl rfl
        cases m with
        | none =>
            cases hs
            exact hdrop
        | some first =>
            dsimp only at hs
            split at hs
            · exact hdrop.replaceInPlace hs
            · exact roomy_replaceExpanding hs

theorem Roomy.replace {flags : ℕ} (h : Roomy s) (hs : s.replace junk token rep flags = some (n, s')) : Roomy s' := by
  unfold DohString.replace at hs
  dsimp only at hs
  split at hs
  · exact h.replaceSimple hs
  · split at hs
    · exact h.replaceSimple hs
    · split at hs <;> exact h.replaceSimple hs

end Replace

/-! ### What the room is for -/

theorem setMaxsize_of_pos {n : ℤ} (s : DohString) (junk : ℕ → Byte) (hn : 0 < n) :
    ∃ s₁, s.setMaxsize junk n = some s₁ ∧ s₁.maxsize = n ∧ (s₁.str.length : ℤ) = n ∧
      s₁.len = s.len ∧ s₁.sp = s.sp := by
  have hb : realloc junk s.str n =
      some (s.str.take n.toNat ++ (List.range (n.toNat - s.str.length)).map junk) := if_pos hn
  have hs₁ : s.setMaxsize junk n = some { s with
      str := s.str.take n.toNat ++ (List.range (n.toNat - s.str.length)).map junk, maxsize := n } := by
    rw [setMaxsize, hb]
    rfl
  exact ⟨_, hs₁, rfl, (realloc_eq_some hb).1, rfl, rfl⟩

/-- The doubling ends if the size is positive. -/
theorem grow_terminates {need : ℤ} {n : ℕ} (junk : ℕ → Byte) (hpos : 0 < s.maxsize) (hn : need + 2 ≤ n + s.maxsize)
    (hn0 : 0 < n) : ∃ s', grow junk need n s = some s' ∧ need < s'.maxsize := by
  induction n generalizing s with
  | zero => omega
  | succ n ih =>
      rw [grow]
      split
      · obtain ⟨s₁, hs₁, hmax₁, -⟩ := setMaxsize_of_pos (n := 2 * s.maxsize) s junk (by omega)
        rw [hs₁]
        exact ih (by omega) (by omega) (by omega)
      · exact ⟨s, rfl, by omega⟩

/-- The room there is for every addition: `String_insert` of any string finds it, after
`DohString_append` there is a byte left behind the terminator, and after `String_putc` room
for the terminator. -/
structure HasRoom (junk : ℕ → Byte) (s : DohString) : Prop where
  insert : ∀ data : List Byte, ∃ n s', grow junk (s.len + data.length) n s = some s' ∧
    s.len + data.length < s'.maxsize
  append : ∀ str s', s.append junk str = some s' → s'.len + 1 < s'.maxsize
  putc_end : ∀ ch, s.sp = s.len → ¬(s.maxsize = 1 ∧ s.len = 1) →
    ∃ s', s.putc junk ch = some s' ∧ s'.len = s.len + 1 ∧ s'.len < s'.maxsize
  putc_inside : ∀ ch s', s.sp < s.len → s.putc junk ch = some s' → s'.len = s.len ∧ s'.maxsize = s.maxsize

theorem Roomy.putc_end (h : Roomy s) (junk : ℕ → Byte) (ch : Byte) (hsp : s.sp = s.len)
    (hone : ¬(s.maxsize = 1 ∧ s.len = 1)) :
    ∃ s', s.putc junk ch = some s' ∧ s'.len = s.len + 1 ∧ s'.len < s'.maxsize := by
  have hlen := h.len_nonneg
  have hlt := h.len_lt
  have hpos := h.maxsize_pos
  have hle := h.maxsize_le
  have hle' := h.length_le
  obtain ⟨s₁, hs₁, hlen₁, hsp₁, hroom₁, hmax₁⟩ : ∃ s₁, s.putcRoom junk = some s₁ ∧ s₁.len = s.len ∧ s₁.sp = s.sp ∧
      s.len + 1 < s₁.str.length ∧ s.len + 1 < s₁.maxsize := by
    unfold putcRoom
    split
    · obtain ⟨s₁, hs₁, hmax₁, hlength₁, hlen₁, hsp₁⟩ := setMaxsize_of_pos (n := s.maxsize * 2) s junk (by omega)
      exact ⟨s₁, hs₁, hlen₁, hsp₁, by omega, by omega⟩
    · exact ⟨s, rfl, rfl, rfl, by omega, by omega⟩
  have hb₁ : store s₁.str s₁.sp ch = some (s₁.str.set s₁.sp.toNat ch) := if_pos ⟨by omega, by omega⟩
  have hb₂ : store (s₁.str.set s₁.sp.toNat ch) (s₁.sp + 1) 0 =
      some ((s₁.str.set s₁.sp.toNat ch).set (s₁.sp + 1).toNat 0) :=
    if_pos ⟨by omega, by rw [List.length_set]; omega⟩
  unfold DohString.putc
  dsimp only
  rw [if_pos (by omega), hs₁]
  simp only [Option.bind_eq_bind, Option.bind_some, hb₁, hb₂]
  exact ⟨_, rfl, by dsimp only; omega, by dsimp only; omega⟩

theorem Roomy.roomFor (h : Roomy s) (junk : ℕ → Byte) : HasRoom junk s where
  insert data := ⟨(s.len + data.length).toNat + 2, grow_terminates junk h.maxsize_pos
    (by have := h.maxsize_pos; omega) (by omega)⟩
  append str s' hs := by
    obtain ⟨s₁, -, -, -, -, -, hroom⟩ := append_eq_some hs
    exact hroom
  putc_end ch hsp hone := h.putc_end junk ch hsp hone
  putc_inside ch s' hsp hs := by
    obtain ⟨hlen, hmax, -⟩ := putc_inside_eq_some hsp hs
    exact ⟨hlen, hmax⟩

end DohString

/-! ### Runs -/

variable {h h' : StringHeap} {junk : ℕ → Byte}

/-- A copy keeps the length of the string as the size of its buffer. -/
def StringOp.CopiesBytes (h : StringHeap) : StringOp → Prop
  | .copy so => ∀ s ∈ h[so]?, s.len ≠ 0
  | _ => True

/-- The objects after some operations, all of them allowed. -/
inductive StringHeap.Made (allowed : StringHeap → StringOp → Prop) : StringHeap → Prop
  | empty : Made allowed []
  | step {h h' : StringHeap} (junk : ℕ → Byte) (op : StringOp) (hmade : Made allowed h) (hop : allowed h op)
      (hstep : op.step junk h = some h') : Made allowed h'

namespace StringHeap

def Roomy (h : StringHeap) : Prop := ∀ s ∈ h, s.Roomy

theorem Roomy.get (hh : Roomy h) {i : ℕ} {s : DohString} (hi : h[i]? = some s) : s.Roomy :=
  hh s (List.mem_of_getElem? hi)

theorem Roomy.set (hh : Roomy h) {s : DohString} (hs : s.Roomy) (i : ℕ) : Roomy (h.set i s) := by
  intro t ht
  rcases List.mem_or_eq_of_mem_set ht with ht | rfl
  · exact hh t ht
  · exact hs

theorem Roomy.push (hh : Roomy h) {s : DohString} (hs : s.Roomy) : Roomy (h ++ [s]) := by
  intro t ht
  rcases List.mem_append.mp ht with ht | ht
  · exact hh t ht
  · rw [List.mem_singleton.mp ht]
    exact hs

theorem Roomy.modify (hh : Roomy h) {so : ℕ} {f : DohString → Option DohString}
    (hf : ∀ s s', s.Roomy → f s = some s' → s'.Roomy) (hs : h.modify so f = some h') : Roomy h' := by
  simp only [StringHeap.modify, Option.bind_eq_bind, Option.bind_eq_some_iff] at hs
  obtain ⟨s, hso, s', hs', hs⟩ := hs
  cases hs
  exact hh.set (hf s s' (hh.get hso) hs') so

theorem Roomy.data (hh : Roomy h) {i : ℕ} {s : DohString} (hs : h.data i = some (s, h')) : Roomy h' ∧ s.Roomy := by
  simp only [StringHeap.data, Option.bind_eq_bind, Option.bind_eq_some_iff] at hs
  obtain ⟨s₀, hi, s₁, hs₁, hs⟩ := hs
  cases hs
  have hroomy := (hh.get hi).stringData hs₁
  exact ⟨hh.set hroomy i, hroomy⟩

theorem Roomy.char (hh : Roomy h) {a : Arg} {txt : List Byte} (hs : h.char a = some (txt, h')) : Roomy h' := by
  cases a with
  | cstr c =>
      cases hs
      exact hh
  | obj i =>
      simp only [StringHeap.char, Option.bind_eq_bind, Option.bind_eq_some_iff] at hs
      obtain ⟨⟨s, h₁⟩, hdata, txt, -, hs⟩ := hs
      cases hs
      exact (hh.data hdata).1

theorem Roomy.text (hh : Roomy h) {a : Arg} {txt : List Byte} (hs : h.text a = some (txt, h')) : Roomy h' := by
  cases a with
  | cstr c =>
      cases hs
      exact hh
  | obj i =>
      simp only [StringHeap.text, Option.bind_eq_bind, Option.bind_eq_some_iff] at hs
      obtain ⟨⟨s, h₁⟩, hdata, txt, -, hs⟩ := hs
      cases hs
      exact (hh.data hdata).1

theorem Roomy.newStringSource (hh : Roomy h) {so : Option Arg} {source : Option (List Byte × ℤ × ℤ)}
    (hs : h.newStringSource so = some (source, h')) :
    Roomy h' ∧ ∀ txt l key, source = some (txt, l, key) → 0 ≤ l := by
  match so with
  | none =>
      cases hs
      exact ⟨hh, nofun⟩
  | some (.cstr c) =>
      cases hs
      refine ⟨hh, ?_⟩
      rintro txt l key ⟨⟩
      exact Int.natCast_nonneg _
  | some (.obj i) =>
      simp only [StringHeap.newStringSource, Option.bind_eq_bind, Option.bind_eq_some_iff] at hs
      obtain ⟨⟨s, h₁⟩, hdata, txt, -, hs⟩ := hs
      cases hs
      obtain ⟨hh₁, hroomy⟩ := hh.data hdata
      refine ⟨hh₁, ?_⟩
      rintro txt l key ⟨⟩
      exact hroomy.len_nonneg

theorem Roomy.newStringWithSizeSource (hh : Roomy h) {so : Option Arg} {source : Option (List Byte)}
    (hs : h.newStringWithSizeSource so = some (source, h')) : Roomy h' := by
  cases so with
  | none =>
      cases hs
      exact hh
  | some a =>
      obtain ⟨⟨txt, h₁⟩, hchar, hs⟩ := Option.bind_eq_some_iff.mp hs
      cases hs
      exact hh.char hchar

theorem Roomy.append (hh : Roomy h) {so : ℕ} {str : Arg} (hs : h.append junk so str = some h') : Roomy h' := by
  simp only [StringHeap.append, Option.bind_eq_bind, Option.bind_eq_some_iff] at hs
  obtain ⟨u, -, ⟨newstr, h₁⟩, htext, hs⟩ := hs
  exact (hh.text htext).modify (fun s s' hs h => hs.append h) hs

theorem Roomy.replace (hh : Roomy h) {so flags : ℕ} {token rep : Arg}
    (hs : h.replace junk so token rep flags = some h') : Roomy h' := by
  simp only [StringHeap.replace, Option.bind_eq_bind, Option.bind_eq_some_iff] at hs
  obtain ⟨⟨t, h₁⟩, ht, ⟨r, h₂⟩, hr, s, hso, ⟨rcount, s'⟩, hs', u, -, hs⟩ := hs
  cases hs
  have hh₂ := (hh.char ht).char hr
  exact hh₂.set ((hh₂.get hso).replace hs') so

theorem Roomy.strcmp_char (hh : Roomy h) {a b : Arg} {c : ℤ} (hs : (do
      let (t1, h) ← h.char a
      let (t2, h) ← h.char b
      return (strcmpInt t1 t2, h)) = some (c, h')) : Roomy h' := by
  simp only [Option.bind_eq_bind, Option.bind_eq_some_iff] at hs
  obtain ⟨⟨t1, h₁⟩, ht1, ⟨t2, h₂⟩, ht2, hs⟩ := hs
  cases hs
  exact (hh.char ht1).char ht2

theorem Roomy.dohCmp (hh : Roomy h) {obj1 obj2 : Option Arg} {c : ℤ}
    (hs : h.dohCmp obj1 obj2 = some (c, h')) : Roomy h' := by
  match obj1, obj2 with
  | none, none | none, some _ | some _, none =>
      cases hs
      exact hh
  | some (.obj i), some (.obj j) =>
      simp only [StringHeap.dohCmp, Option.bind_eq_bind, Option.bind_eq_some_iff] at hs
      obtain ⟨s, -, t, -, c, -, hs⟩ := hs
      cases hs
      exact hh
  | some (.obj i), some (.cstr c) | some (.cstr c), some (.obj i) | some (.cstr c), some (.cstr d) =>
      exact hh.strcmp_char hs

theorem Roomy.equalCstr (hh : Roomy h) {i : ℕ} {cobj : List Byte} {e : Bool}
    (hs : h.equalCstr i cobj = some (e, h')) : Roomy h' := by
  obtain ⟨s, -, hs⟩ := Option.bind_eq_some_iff.mp hs
  split at hs
  · simp only [Option.bind_eq_bind, Option.bind_eq_some_iff] at hs
    obtain ⟨⟨s₁, h₁⟩, hdata, c, -, hs⟩ := hs
    cases hs
    exact (hh.data hdata).1
  · cases hs
    exact hh

theorem Roomy.dohEqual (hh : Roomy h) {obj1 obj2 : Option Arg} {e : Bool}
    (hs : h.dohEqual obj1 obj2 = some (e, h')) : Roomy h' := by
  match obj1, obj2 with
  | none, _ | some (.cstr _), none | some (.obj _), none | some (.cstr _), some (.cstr _) =>
      cases hs
      exact hh
  | some (.obj i), some (.obj j) =>
      simp only [StringHeap.dohEqual, Option.bind_eq_bind, Option.bind_eq_some_iff] at hs
      obtain ⟨s, -, t, -, c, -, hs⟩ := hs
      cases hs
      exact hh
  | some (.obj i), some (.cstr c) | some (.cstr c), some (.obj i) => exact hh.equalCstr hs

end StringHeap

open StringHeap

theorem StringOp.step_roomy {op : StringOp} (hh : Roomy h) (hop : op.CopiesBytes h)
    (hs : op.step junk h = some h') : Roomy h' := by
  cases op with
  | newString so =>
      simp only [step, Option.bind_eq_bind, Option.bind_eq_some_iff] at hs
      obtain ⟨⟨source, h₁⟩, hsource, s, hnew, hs⟩ := hs
      cases hs
      obtain ⟨hh₁, hlen⟩ := hh.newStringSource hsource
      exact hh₁.push (DohString.roomy_newString hlen hnew)
  | newStringEmpty =>
      simp only [step, Option.bind_eq_bind, Option.bind_eq_some_iff] at hs
      obtain ⟨s, hnew, hs⟩ := hs
      cases hs
      exact hh.push (DohString.roomy_newStringEmpty hnew)
  | newStringWithSize so len =>
      simp only [step, Option.bind_eq_bind, Option.bind_eq_some_iff] at hs
      obtain ⟨⟨source, h₁⟩, hsource, s, hnew, hs⟩ := hs
      cases hs
      exact (hh.newStringWithSizeSource hsource).push (DohString.roomy_newStringWithSize hnew)
  | copy so =>
      simp only [step, Option.bind_eq_bind, Option.bind_eq_some_iff] at hs
      obtain ⟨s, hso, s', hcopy, hs⟩ := hs
      cases hs
      exact hh.push ((hh.get hso).copyString (hop s hso) hcopy)
  | append so str => exact hh.append hs
  | insert so pos str =>
      rw [step] at hs
      split at hs
      · exact hh.append hs
      · obtain ⟨⟨data, h₁⟩, htext, hs⟩ := Option.bind_eq_some_iff.mp hs
        exact (hh.text htext).modify (fun s s' hs h => hs.insert h) hs
  | delitem so pos => exact hh.modify (fun s s' hs h => hs.delitem h) hs
  | delslice so sindex eindex => exact hh.modify (fun s s' hs h => hs.delslice h) hs
  | replace so token rep flags => exact hh.replace hs
  | chop so => exact hh.modify (fun s s' hs h => hs.chop h) hs
  | clear so => exact hh.modify (fun s s' hs h => hs.clear h) hs
  | seek so offset whence => exact hh.modify (fun s s' hs h => hs.seek h) hs
  | putc so ch => exact hh.modify (fun s s' hs h => hs.putc h) hs
  | getc so =>
      refine hh.modify (fun s s' hs h => ?_) hs
      obtain ⟨⟨c, t⟩, hc, rfl⟩ := Option.map_eq_some_iff.mp h
      exact hs.getc hc
  | ungetc so ch =>
      refine hh.modify (fun s s' hs h => ?_) hs
      cases h
      exact hs.ungetc ch
  | read so len =>
      refine hh.modify (fun s s' hs h => ?_) hs
      obtain ⟨⟨y, t⟩, hy, rfl⟩ := Option.map_eq_some_iff.mp h
      exact hs.read hy
  | write so buffer => exact hh.modify (fun s s' hs h => hs.write h) hs
  | hashval so =>
      refine hh.modify (fun s s' hs h => ?_) hs
      obtain ⟨⟨k, t⟩, ht, rfl⟩ := Option.map_eq_some_iff.mp h
      exact hs.hash ht
  | cmp obj1 obj2 =>
      obtain ⟨⟨c, h₁⟩, hcmp, rfl⟩ := Option.map_eq_some_iff.mp hs
      exact hh.dohCmp hcmp
  | equal obj1 obj2 =>
      obtain ⟨⟨e, h₁⟩, hequal, rfl⟩ := Option.map_eq_some_iff.mp hs
      exact hh.dohEqual hequal

theorem StringHeap.Made.roomy (hmade : Made StringOp.CopiesBytes h) : Roomy h := by
  induction hmade with
  | empty => exact fun s hs => by cases hs
  | step junk op hmade hop hstep ih => exact StringOp.step_roomy ih hop hstep

end Swig.DOH
