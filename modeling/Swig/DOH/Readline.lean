import Swig.DOH.StringRoom

/-!
`DohReadline` (`fio.c`) on a string. It waits for a negative number from `Read`, which a
string gives only from a position behind its end; at the end it gives 0.
-/

namespace Swig.DOH.DohString

open ByteBlock

variable {s s' out : DohString} {junk : ℕ → Byte}

/-- The number `String_read` returns. -/
def readResult (s : DohString) (len : ℤ) : ℤ := if s.sp + len > s.len then s.len - s.sp else len

/-- The loop of `DohReadline`, with the byte last read; a byte that was never read is none. -/
def readlineLoop (junk : ℕ → Byte) : ℕ → DohString → Option Byte → ℕ → DohString →
    Option (Option DohString × DohString)
  | 0, _, _, _, _ => none
  | fuel + 1, s, c, n, out => do
      let (bytes, s') ← s.read 1
      if s.readResult 1 < 0 then return (if n = 0 then none else some out, s')
      let c ← bytes.head?.or c
      if c = chr '\n' then return (some out, s')
      if c = chr '\r' then readlineLoop junk fuel s' c n out
      else do
        let out ← out.putc junk c
        readlineLoop junk fuel s' c (n + 1) out

/-- `DohReadline`: the line, or null, and the string read from. -/
def readline (junk : ℕ → Byte) (fuel : ℕ) (s : DohString) : Option (Option DohString × DohString) := do
  let out ← newStringEmpty junk
  readlineLoop junk fuel s none 0 out

/-- `DohReadline` returns. -/
def Returns (junk : ℕ → Byte) (s : DohString) (r : Option DohString × DohString) : Prop :=
  ∃ fuel, readline junk fuel s = some r

/-- The bytes not read yet. -/
def rest (s : DohString) : List Byte := s.contents.drop s.sp.toNat

/-- The lines of a text, the last one also without a newline. -/
def lines : List Byte → List (List Byte)
  | [] => []
  | c :: cs =>
      if c = chr '\n' then [] :: lines cs
      else match lines cs with
        | [] => [[c]]
        | l :: ls => (c :: l) :: ls

/-- Calls of `DohReadline` return these lines, one after the other, and then null. -/
def ReadsLines (junk : ℕ → Byte) : DohString → List (List Byte) → Prop
  | s, [] => ∃ s', Returns junk s (none, s')
  | s, l :: ls => ∃ out s', Returns junk s (some out, s') ∧ out.contents = l ∧ ReadsLines junk s' ls

/-- The contents are in the buffer, and the position is not negative. -/
structure Readable (s : DohString) : Prop where
  len_nonneg : 0 ≤ s.len
  len_le : s.len ≤ s.str.length
  sp_nonneg : 0 ≤ s.sp

/-! ### One byte -/

theorem read_one (h : Readable s) (hlt : s.sp < s.len) :
    ∃ c cs, s.rest = c :: cs ∧ s.read 1 = some ([c], { s with sp := s.sp + 1 }) ∧ s.readResult 1 = 1 ∧
      rest { s with sp := s.sp + 1 } = cs := by
  have hsp := h.sp_nonneg
  have hlen := h.len_le
  have hnat : s.sp.toNat < s.str.length := by omega
  have hcontents : s.sp.toNat < s.contents.length := by
    rw [contents, List.length_take]
    omega
  have hget : s.contents[s.sp.toNat] = s.str[s.sp.toNat] := List.getElem_take ..
  have hload : loadBytes s.str s.sp 1 = some [s.str[s.sp.toNat]] := by
    unfold loadBytes
    rw [if_neg (by omega), if_pos (by omega), List.drop_eq_getElem_cons hnat]
    rfl
  refine ⟨s.str[s.sp.toNat], s.contents.drop (s.sp.toNat + 1), ?_, ?_, ?_, ?_⟩
  · rw [rest, List.drop_eq_getElem_cons hcontents, hget]
  · unfold DohString.read
    simp only [show ¬s.sp + 1 > s.len by omega, if_false, hload]
    rfl
  · rw [readResult, if_neg (by omega)]
  · rw [rest]
    dsimp only
    rw [show (s.sp + 1).toNat = s.sp.toNat + 1 by omega]
    rfl

/-- At the end nothing is read, and the number of bytes is 0. -/
theorem read_end (h : s.len ≤ s.sp) : s.read 1 = some ([], s) ∧ s.readResult 1 = s.len - s.sp := by
  constructor
  · unfold DohString.read
    simp only [show s.sp + 1 > s.len by omega, if_true, show ¬s.len - s.sp > 0 by omega, if_false]
  · rw [readResult, if_pos (by omega)]

theorem Readable.next (h : Readable s) : Readable { s with sp := s.sp + 1 } :=
  ⟨h.len_nonneg, h.len_le, by have := h.sp_nonneg; dsimp only; omega⟩

theorem rest_eq_nil (hsp : s.len ≤ s.sp) : s.rest = [] := by
  rw [rest, List.drop_eq_nil_iff, contents, List.length_take]
  omega

theorem lt_of_rest {c : Byte} {xs ys : List Byte} (h : s.rest = xs ++ c :: ys) : s.sp < s.len := by
  by_contra hge
  rw [rest_eq_nil (by omega)] at h
  exact absurd (congrArg List.length h) (by simp)

/-! ### What a call that returns has found -/

/-- From a position within the contents the loop returns at a newline only. -/
theorem readlineLoop_eq_some {fuel n : ℕ} {c : Option Byte} {r : Option DohString × DohString}
    (h : Readable s) (hsp : s.sp ≤ s.len) (hc : c ≠ some (chr '\n'))
    (hs : readlineLoop junk fuel s c n out = some r) :
    chr '\n' ∈ s.rest ∧ (∃ line, r.1 = some line) ∧ Readable r.2 ∧ r.2.sp ≤ r.2.len := by
  induction fuel generalizing s c n out with
  | zero => cases hs
  | succ fuel ih =>
      rw [readlineLoop] at hs
      by_cases hlt : s.sp < s.len
      · obtain ⟨d, ds, hrest, hread, hresult, hnext⟩ := read_one h hlt
        rw [hread, hresult] at hs
        simp only [Option.bind_eq_bind, Option.bind_some, List.head?_cons, Option.some_or] at hs
        rw [if_neg (by omega)] at hs
        split at hs
        · rename_i hd
          cases hs
          exact ⟨by rw [hrest, hd]; exact List.mem_cons_self, ⟨_, rfl⟩, h.next, by dsimp only; omega⟩
        · rename_i hd
          have hmem (hin : chr '\n' ∈ rest { s with sp := s.sp + 1 }) : chr '\n' ∈ s.rest := by
            rw [hrest, ← hnext]
            exact List.mem_cons_of_mem d hin
          have hd' : some d ≠ some (chr '\n') := fun heq => hd (Option.some.inj heq)
          split at hs
          · obtain ⟨hin, hr⟩ := ih h.next (by dsimp only; omega) hd' hs
            exact ⟨hmem hin, hr⟩
          · obtain ⟨out', -, hs⟩ := Option.bind_eq_some_iff.mp hs
            obtain ⟨hin, hr⟩ := ih h.next (by dsimp only; omega) hd' hs
            exact ⟨hmem hin, hr⟩
      · -- at the end `Read` gives 0, and the byte is still the last one
        obtain ⟨hread, hresult⟩ := read_end (s := s) (by omega)
        rw [hread, hresult] at hs
        simp only [Option.bind_eq_bind, Option.bind_some, List.head?_nil, Option.none_or] at hs
        rw [if_neg (by omega)] at hs
        obtain ⟨d, hd, hs'⟩ := Option.bind_eq_some_iff.mp hs
        rw [if_neg (fun heq => hc (by rw [hd, heq]))] at hs'
        clear hs
        rw [← hd] at hs'
        split at hs'
        · exact ih h hsp hc hs'
        · obtain ⟨out', -, hs'⟩ := Option.bind_eq_some_iff.mp hs'
          exact ih h hsp hc hs'

theorem Returns.newline {r : Option DohString × DohString} (h : Readable s) (hsp : s.sp ≤ s.len)
    (hr : Returns junk s r) :
    chr '\n' ∈ s.rest ∧ (∃ line, r.1 = some line) ∧ Readable r.2 ∧ r.2.sp ≤ r.2.len := by
  obtain ⟨fuel, hr⟩ := hr
  unfold readline at hr
  obtain ⟨out, -, hr⟩ := Option.bind_eq_some_iff.mp hr
  exact readlineLoop_eq_some h hsp (Option.some_ne_none _).symm hr

/-! ### Calls that return -/

/-- A string that is written at its end, with a size that doubles. -/
structure Growing (s : DohString) : Prop extends Roomy s where
  sp_eq : s.sp = s.len
  two_le : 2 ≤ s.maxsize

theorem growing_newStringEmpty (hs : newStringEmpty junk = some s) : Growing s ∧ s.contents = [] := by
  have hroomy := roomy_newStringEmpty hs
  simp only [newStringEmpty, Option.bind_eq_bind, Option.bind_eq_some_iff] at hs
  obtain ⟨b, hb, b', hb', hs⟩ := hs
  cases hs
  exact ⟨{ hroomy with sp_eq := rfl, two_le := by dsimp only; decide }, rfl⟩

theorem take_putcRoom (h : Growing s) (hs : s.putcRoom junk = some s') :
    s'.str.take s.len.toNat = s.contents := by
  have hlen := h.len_nonneg
  have hlt := h.len_lt
  have hle := h.length_le
  have htwo := h.two_le
  unfold putcRoom at hs
  split at hs
  · obtain ⟨b, hb, hs⟩ := Option.bind_eq_some_iff.mp hs
    cases hs
    apply List.ext_getElem?
    intro k
    rw [contents, List.getElem?_take, List.getElem?_take]
    split
    · exact (realloc_eq_some hb).2 k (by omega) (by omega)
    · rfl
  · cases hs
    rfl

/-- The byte goes behind the contents. -/
theorem Growing.putc (h : Growing s) (junk : ℕ → Byte) (ch : Byte) :
    ∃ s', s.putc junk ch = some s' ∧ Growing s' ∧ s'.contents = s.contents ++ [ch] := by
  have hlen := h.len_nonneg
  have hsp := h.sp_eq
  obtain ⟨s', hs, -, -⟩ := h.toRoomy.putc_end junk ch h.sp_eq (by have := h.two_le; omega)
  refine ⟨s', hs, ?_⟩
  have hroomy := h.toRoomy.putc hs
  unfold DohString.putc at hs
  dsimp only at hs
  rw [if_pos (by omega)] at hs
  simp only [Option.bind_eq_bind, Option.bind_eq_some_iff] at hs
  obtain ⟨s₁, hs₁, b₁, hb₁, b₂, hb₂, hs⟩ := hs
  obtain ⟨hresized, hsp₁⟩ := resized_putcRoom hs₁
  have htake := take_putcRoom h hs₁
  cases hs
  obtain ⟨-, hlt, rfl⟩ := store_eq_some hb₁
  obtain ⟨-, -, rfl⟩ := store_eq_some hb₂
  refine ⟨{ hroomy with sp_eq := rfl, two_le := ?_ }, ?_⟩
  · have htwo := h.two_le
    have := hroomy.maxsize_pos
    dsimp only at this ⊢
    have hlt' := hroomy.len_lt
    rcases hresized with ⟨hmax, -⟩ | ⟨-, hlength⟩
    · omega
    · -- a new buffer has room for a byte and the terminator
      simp only [List.length_set] at hlt'
      omega
  · have hnat : (s₁.sp + 1).toNat = s.len.toNat + 1 := by omega
    have hnat' : s₁.sp.toNat = s.len.toNat := by omega
    have hin : s.len.toNat < s₁.str.length := by omega
    rw [← htake, contents]
    dsimp only
    rw [hnat, hnat', List.take_set_of_le (by omega), List.take_succ_eq_append_getElem (by simpa using hin),
      List.take_set_of_le (Nat.le_refl _)]
    simp

/-- Up to the next newline the loop takes over the bytes, without carriage returns. -/
theorem readlineLoop_line (junk : ℕ → Byte) {line ds : List Byte} {n : ℕ} {c : Option Byte} (h : Readable s)
    (hout : Growing out) (hline : chr '\n' ∉ line) (hrest : s.rest = line ++ chr '\n' :: ds) :
    ∃ fuel out' s', readlineLoop junk fuel s c n out = some (some out', s') ∧
      out'.contents = out.contents ++ line.filter (· != chr '\r') ∧ s'.rest = ds := by
  induction line generalizing s c n out with
  | nil =>
      obtain ⟨d, cs, hcons, hread, hresult, hnext⟩ := read_one h (lt_of_rest hrest)
      rw [hcons, List.nil_append, List.cons.injEq] at hrest
      obtain ⟨rfl, rfl⟩ := hrest
      refine ⟨1, out, { s with sp := s.sp + 1 }, ?_, by simp, hnext⟩
      rw [readlineLoop, hread, hresult]
      rfl
  | cons e line ih =>
      obtain ⟨d, cs, hcons, hread, hresult, hnext⟩ := read_one h (lt_of_rest hrest)
      rw [hcons, List.cons_append, List.cons.injEq] at hrest
      obtain ⟨rfl, rfl⟩ := hrest
      rw [List.mem_cons, not_or] at hline
      have hd : ¬d = chr '\n' := fun heq => hline.1 heq.symm
      have hstep (fuel : ℕ) : readlineLoop junk (fuel + 1) s c n out =
          if d = chr '\r' then readlineLoop junk fuel { s with sp := s.sp + 1 } (some d) n out
          else (out.putc junk d).bind fun out => readlineLoop junk fuel { s with sp := s.sp + 1 } (some d) (n + 1) out := by
        rw [readlineLoop, hread, hresult]
        simp only [Option.bind_eq_bind, Option.bind_some, List.head?_cons, Option.some_or]
        rw [if_neg (by omega), if_neg hd]
      by_cases hcr : d = chr '\r'
      · obtain ⟨fuel, out', s', hloop, hbytes, hds⟩ := ih (c := some d) (n := n) h.next hout hline.2 hnext
        refine ⟨fuel + 1, out', s', by rw [hstep, if_pos hcr, hloop], ?_, hds⟩
        rw [hbytes, List.filter_cons_of_neg (by simp [hcr])]
      · obtain ⟨out₁, hputc, hout₁, hbytes₁⟩ := hout.putc junk d
        obtain ⟨fuel, out', s', hloop, hbytes, hds⟩ := ih (c := some d) (n := n + 1) h.next hout₁ hline.2 hnext
        refine ⟨fuel + 1, out', s', by rw [hstep, if_neg hcr, hputc, Option.bind_some, hloop], ?_, hds⟩
        rw [hbytes, hbytes₁, List.filter_cons_of_pos (by simpa using hcr)]
        simp

/-- A call returns the bytes up to the next newline, without carriage returns. -/
theorem returns_line (junk : ℕ → Byte) {line ds : List Byte} (h : Readable s) (hline : chr '\n' ∉ line)
    (hrest : s.rest = line ++ chr '\n' :: ds) :
    ∃ out s', Returns junk s (some out, s') ∧ out.contents = line.filter (· != chr '\r') ∧ s'.rest = ds := by
  obtain ⟨out, -, -, hout, -⟩ := holds_newStringEmpty junk
  obtain ⟨hgrowing, hempty⟩ := growing_newStringEmpty hout
  obtain ⟨fuel, out', s', hloop, hbytes, hds⟩ := readlineLoop_line junk (n := 0) (c := none) h
    hgrowing hline hrest
  rw [hempty, List.nil_append] at hbytes
  exact ⟨out', s', ⟨fuel, by rw [readline, hout, Option.bind_eq_bind, Option.bind_some, hloop]⟩, hbytes, hds⟩

/-- From a position behind the end a call returns null. -/
theorem returns_null (hsp : s.len < s.sp) : Returns junk s (none, s) := by
  obtain ⟨out, -, -, hout, -⟩ := holds_newStringEmpty junk
  obtain ⟨hread, hresult⟩ := read_end (s := s) hsp.le
  refine ⟨1, ?_⟩
  rw [readline, hout, Option.bind_eq_bind, Option.bind_some, readlineLoop, hread, hresult]
  simp only [Option.bind_eq_bind, Option.bind_some]
  rw [if_pos (by omega)]
  rfl

/-! ### All lines -/

/-- Within the contents the calls never come to null. -/
theorem ReadsLines.behind {ls : List (List Byte)} (h : Readable s) (hr : ReadsLines junk s ls) : s.len < s.sp := by
  induction ls generalizing s with
  | nil =>
      obtain ⟨s', hr⟩ := hr
      by_contra hsp
      obtain ⟨-, ⟨line, hline⟩, -⟩ := hr.newline h (by omega)
      cases hline
  | cons l ls ih =>
      obtain ⟨out, s', hr, -, hnext⟩ := hr
      by_contra hsp
      obtain ⟨-, -, h', hsp'⟩ := hr.newline h (by omega)
      exact absurd (ih h' hnext) (not_lt.mpr hsp')

/-- A call returns if there is a newline left, or from a position behind the end; and the calls
return all lines and then null only from a position behind the end. -/
theorem readline_iff (h : Readable s) (junk : ℕ → Byte) :
    ((∃ r, Returns junk s r) ↔ s.len < s.sp ∨ chr '\n' ∈ s.rest) ∧
      ((∃ r, Returns junk s r) ∧ ReadsLines junk s ((lines s.rest).map (List.filter (· != chr '\r'))) ↔
        s.len < s.sp) := by
  constructor
  · constructor
    · rintro ⟨r, hr⟩
      by_contra hnot
      rw [not_or] at hnot
      exact hnot.2 (hr.newline h (by omega)).1
    · rintro (hsp | hin)
      · exact ⟨_, returns_null hsp⟩
      · obtain ⟨line, ds, hrest, hline⟩ := List.eq_append_cons_of_mem hin
        obtain ⟨out, s', hr, -⟩ := returns_line junk h hline hrest
        exact ⟨_, hr⟩
  · constructor
    · rintro ⟨-, hr⟩
      exact hr.behind h
    · intro hsp
      rw [rest_eq_nil hsp.le]
      exact ⟨⟨_, returns_null hsp⟩, s, returns_null hsp⟩

/-- The string `"a\nb"` at its start: its first line is returned. -/
theorem readline_iff_two_lines :
    ∃ s : DohString, s.contents = [chr 'a', chr '\n', chr 'b'] ∧
      ((∃ r, Returns (fun _ => 0) s r) ↔ s.len < s.sp ∨ chr '\n' ∈ s.rest) ∧
      ((∃ r, Returns (fun _ => 0) s r) ∧
        ReadsLines (fun _ => 0) s ((lines s.rest).map (List.filter (· != chr '\r'))) ↔ s.len < s.sp) :=
  ⟨⟨1, 4, 3, -1, 0, [chr 'a', chr '\n', chr 'b', 0]⟩, rfl,
    readline_iff ⟨by decide, by decide, by decide⟩ _⟩

/-- On the string `"a"` no call returns. -/
theorem readline_hangs :
    ∃ s : DohString, Readable s ∧ s.contents = [chr 'a'] ∧ ∀ r, ¬Returns (fun _ => 0) s r := by
  have h : Readable ⟨1, 16, 1, -1, 0, chr 'a' :: List.replicate 15 0⟩ := ⟨by decide, by decide, by decide⟩
  refine ⟨_, h, rfl, fun r hr => ?_⟩
  exact absurd (hr.newline h (by decide)).1 (by decide)

end Swig.DOH.DohString
