import Swig.Scanner.Reading
import Mathlib.Data.List.Chain
import Mathlib.Data.List.TakeWhile

/-!
`Swig_string_escape` against the string state of the scanner.

The encoder writes a byte outside the printing characters as a backslash and
its octal digits, without padding; `get_escape` reads as many digits as follow.
The text read back is therefore computed by `decoded`, which lets a numeric
escape swallow the digits after it.
-/

namespace Swig

/-- The octal digits `%o` prints. -/
def octal (n : ℕ) : List Byte := (Nat.toDigits 8 n).map chr

/-- What `Swig_string_escape` writes for one byte. -/
def escapeByte (c : Byte) : List Byte :=
  if c = chr '\n' then lit "\\n"
  else if c = chr '\r' then lit "\\r"
  else if c = chr '\t' then lit "\\t"
  else if c = chr '\\' then lit "\\\\"
  else if c = 39 then [chr '\\', 39]
  else if c = 34 then [chr '\\', 34]
  else if c = chr ' ' then [c]
  else if !isgraph c then chr '\\' :: octal c.toNat
  else [c]

/-- `Swig_string_escape`, over the bytes `Getc` delivers up to `EOF`. -/
def swigStringEscape (s : Text) : List Byte := s.rest.flatMap escapeByte

/-- The bytes written as a numeric escape. -/
def numericEscape (c : Byte) : Bool :=
  !isgraph c && c != chr ' ' && c != chr '\n' && c != chr '\r' && c != chr '\t'

/-- One digit read by state 10 of `get_escape`. -/
def octalStep (result : ℕ) (c : Byte) : ℕ := (result * 8 + digitVal c) % 2 ^ 32

/-- The text the scanner reads back from the escaped form of a string. -/
def decoded : List Byte → List Byte
  | [] => []
  | b :: bs =>
      if numericEscape b then
        UInt8.ofNat ((bs.takeWhile isdigit).foldl octalStep b.toNat) ::
          decoded (bs.dropWhile isdigit)
      else b :: decoded bs
  termination_by bs => bs.length
  decreasing_by
    · simpa using Nat.lt_succ_of_le (List.length_dropWhile_le isdigit bs)
    · simp

/-- The first two tokens, and the text of the first, when the quoted escaped
form of `s` is all that is pushed on a cleared scanner. -/
def scanQuoted (sc : Scanner) (s : List Byte) : Option (Token × List Byte × Token) :=
  (sc.clear.push (.ofBytes ([34] ++ swigStringEscape (.ofBytes s) ++ [34]))).token.bind
    fun (tok, sc) => sc.token.map fun (tok', _) => (tok, sc.text, tok')

/-! ### Classes of bytes

The cases of the encoder are told apart by properties of single bytes. -/

theorem octal_spec : ∀ b : Byte, (octal b.toNat).head?.any isdigit ∧
    (octal b.toNat).tail.all isdigit ∧
    (octal b.toNat).tail.foldl octalStep (digitVal ((octal b.toNat).headD 0)) = b.toNat := by
  decide +kernel

/-- All bytes are tried at once. -/
theorem escapeByte_table : ∀ b : Byte,
    (numericEscape b = false → b ≠ 0 → (escapeByte b = [b] ∧ b ≠ 34 ∧ b ≠ chr '\\') ∨
      (escapeByte b = [chr '\\', (escapeByte b).getLastD 0] ∧ (escapeByte b).getLastD 0 ≠ 0 ∧
        Scanner.simpleEscape ((escapeByte b).getLastD 0) = some b)) ∧
    (b ≠ 0 → escapeByte b = (escapeByte b).headD 0 :: (escapeByte b).tail ∧ (escapeByte b).headD 0 ≠ 0 ∧
      isdigit ((escapeByte b).headD 0) = isdigit b) ∧
    (isdigit b = true → escapeByte b = [b] ∧ b ≠ 0 ∧ Scanner.simpleEscape b = none ∧ b ≠ chr '\n') := by
  decide +kernel

/-- A byte not escaped numerically is written so that it reads back at once. -/
theorem escapeByte_plain (b : Byte) (h : numericEscape b = false) (h0 : b ≠ 0) :
    (escapeByte b = [b] ∧ b ≠ 34 ∧ b ≠ chr '\\') ∨
      (escapeByte b = [chr '\\', (escapeByte b).getLastD 0] ∧ (escapeByte b).getLastD 0 ≠ 0 ∧
        Scanner.simpleEscape ((escapeByte b).getLastD 0) = some b) :=
  (escapeByte_table b).1 h h0

theorem escapeByte_numeric (b : Byte) (h : numericEscape b = true) :
    escapeByte b = chr '\\' :: octal b.toNat := by
  have hgraph : isgraph b = false := by
    rw [numericEscape] at h
    grind
  have hplain {c : Byte} (hc : isgraph c = true) : b ≠ c := by
    rintro rfl
    rw [hgraph] at hc
    cases hc
  simp only [numericEscape, Bool.and_eq_true, bne_iff_ne] at h
  obtain ⟨⟨⟨⟨-, hblank⟩, hnl⟩, hcr⟩, htab⟩ := h
  rw [escapeByte, if_neg hnl, if_neg hcr, if_neg htab, if_neg (hplain (by decide)), if_neg (hplain (by decide)),
    if_neg (hplain (by decide)), if_neg hblank, hgraph]
  rfl

/-- An escaped byte starts with a digit only if it is one, written as itself. -/
theorem escapeByte_head (b : Byte) (h0 : b ≠ 0) :
    escapeByte b = (escapeByte b).headD 0 :: (escapeByte b).tail ∧ (escapeByte b).headD 0 ≠ 0 ∧
      isdigit ((escapeByte b).headD 0) = isdigit b :=
  (escapeByte_table b).2.1 h0

theorem escapeByte_digit (b : Byte) (h : isdigit b = true) :
    escapeByte b = [b] ∧ b ≠ 0 ∧ Scanner.simpleEscape b = none ∧ b ≠ chr '\n' :=
  (escapeByte_table b).2.2 h

theorem escape_digits {ds : List Byte} (hd : ∀ d ∈ ds, isdigit d) :
    ds.flatMap escapeByte = ds := by
  induction ds with
  | nil => rfl
  | cons d ds ih =>
      rw [List.flatMap_cons, (escapeByte_digit d (hd d (by simp))).1,
        ih (fun e he => hd e (by simp [he]))]
      rfl

namespace Scanner

/-! ### The decoder on an escape sequence -/

theorem getEscapeLoop_octal {ts : List Text} {ds cs : List Byte} {c : Byte}
    (hds : ∀ d ∈ ds, isdigit d ∧ d ≠ 0) (hc : isdigit c = false) (hc0 : c ≠ 0) :
    ∀ (n r : ℕ) (s : Scanner), ds.length < n → s.Reads ts (ds ++ c :: cs) →
      ∃ s', getEscapeLoop n (.s10 r) s = some s' ∧
        ReadTo s s' ts (c :: cs) [UInt8.ofNat (ds.foldl octalStep r)] := by
  induction ds with
  | nil =>
      intro n r s hn hs
      obtain ⟨m, rfl⟩ : ∃ m, n = m + 1 := ⟨n - 1, by simp at hn; omega⟩
      have hfst := (nextchar_of_reads hs).1
      refine ⟨s.putText [UInt8.ofNat r], ?_, (ReadTo.refl hs).putText _⟩
      simp [getEscapeLoop, hfst, hc0, hc, retract_nextchar hs]
  | cons d ds ih =>
      intro n r s hn hs
      obtain ⟨m, rfl⟩ : ∃ m, n = m + 1 := ⟨n - 1, by simp at hn; omega⟩
      obtain ⟨hd, hd0⟩ := hds d (by simp)
      obtain ⟨hfst, hread⟩ := nextchar_of_reads hs
      have hdrop := hread.dropLastText
      obtain ⟨s', hrun, hs'⟩ := ih (fun e he => hds e (by simp [he])) m (octalStep r d) _
        (by simpa using hn) hdrop.reads
      refine ⟨s', ?_, by simpa using hdrop.trans hs'⟩
      simpa [getEscapeLoop, hfst, hd0, hd, octalStep] using hrun

/-- A numeric escape takes in the digits that follow its own. -/
theorem getEscape_octal {s : Scanner} {ts : List Text} {b c : Byte} {ds cs : List Byte}
    (hds : ∀ d ∈ ds, isdigit d) (hc : isdigit c = false) (hc0 : c ≠ 0)
    (hs : s.Reads ts (octal b.toNat ++ ds ++ c :: cs)) :
    ∃ s', getEscape s = some s' ∧
      ReadTo s s' ts (c :: cs) [UInt8.ofNat (ds.foldl octalStep b.toNat)] := by
  obtain ⟨hhead, htail, hval⟩ := octal_spec b
  cases ho : octal b.toNat with
  | nil => simp [ho] at hhead
  | cons d es =>
      rw [ho] at hhead htail hval hs
      simp only [List.head?_cons, Option.any_some, List.tail_cons, List.headD_cons] at hhead htail hval
      have hlen := remaining_ge_of_reads hs
      have hs' : s.Reads ts (d :: ((es ++ ds) ++ c :: cs)) := by simpa using hs
      obtain ⟨hfst, hread⟩ := nextchar_of_reads hs'
      have hdrop := hread.dropLastText
      have hall : ∀ e ∈ es ++ ds, isdigit e ∧ e ≠ 0 := by
        intro e he
        have hd : isdigit e := by
          rcases List.mem_append.mp he with he | he
          · exact List.all_eq_true.mp htail e he
          · exact hds e he
        exact ⟨hd, (escapeByte_digit e hd).2.1⟩
      obtain ⟨s', hrun, hs'⟩ := getEscapeLoop_octal hall hc hc0 s.remaining (digitVal d) _
        (by simp at hlen ⊢; omega) hdrop.reads
      refine ⟨s', ?_, ?_⟩
      · obtain ⟨-, hd0, hsimple⟩ := escapeByte_digit d hhead
        simpa [getEscape, getEscapeLoop, hfst, hd0, hsimple.1, hsimple.2, hhead] using hrun
      · rw [List.foldl_append, hval] at hs'
        simpa using hdrop.trans hs'

theorem getEscape_simple {s : Scanner} {ts : List Text} {b c : Byte} {cs : List Byte}
    (hc0 : c ≠ 0) (hc : simpleEscape c = some b) (hs : s.Reads ts (c :: cs)) :
    ∃ s', getEscape s = some s' ∧ ReadTo s s' ts cs [b] := by
  obtain ⟨hfst, hread⟩ := nextchar_of_reads hs
  refine ⟨(nextchar s).2.dropLastText.putText [b], ?_, ?_⟩
  · simp [getEscape, getEscapeLoop, hfst, hc0, hc]
  · simpa using hread.dropLastText.putText [b]

/-! ### The string state on a whole escaped string -/

/-- One round in the string state, at the start of an escape sequence. -/
theorem lookStep_string_backslash {s : Scanner} {ts : List Text} {cs : List Byte}
    (hs : s.Reads ts (chr '\\' :: cs)) :
    lookStep .s2 s = (getEscape (nextchar s).2.dropLastText).map (.more .s2) := by
  have h0 : chr '\\' ≠ 0 := by decide
  have h34 : chr '\\' ≠ 34 := by decide
  simp [lookStep, (nextchar_of_reads hs).1, h0, h34]

/-- One round in the string state, on a byte that stands for itself. -/
theorem lookStep_string_plain {s : Scanner} {ts : List Text} {b : Byte} {cs : List Byte}
    (hs : s.Reads ts (b :: cs)) (h0 : b ≠ 0) (h34 : b ≠ 34) (hb : b ≠ chr '\\') :
    lookStep .s2 s = some (.more .s2 (nextchar s).2) := by
  simp [lookStep, (nextchar_of_reads hs).1, h0, h34, hb]

theorem lookStep_string_end {s : Scanner} {ts : List Text} {cs : List Byte}
    (hs : s.Reads ts (34 :: cs)) :
    lookStep .s2 s = some (.done .string (nextchar s).2.dropLastText) := by
  simp [lookStep, (nextchar_of_reads hs).1]

/-- The bytes after the digits of a string start with a non-digit, also once
they are escaped and followed by the closing quote. -/
theorem escape_dropWhile_head {bs : List Byte} (h0 : ∀ b ∈ bs, b ≠ 0) (cs : List Byte) :
    ∃ c rest, (bs.dropWhile isdigit).flatMap escapeByte ++ 34 :: cs = c :: rest ∧
      isdigit c = false ∧ c ≠ 0 := by
  cases hd : bs.dropWhile isdigit with
  | nil => exact ⟨34, cs, rfl, by decide, by decide⟩
  | cons e es =>
      have he : e ∈ bs := (List.dropWhile_sublist isdigit).subset (by simp [hd])
      obtain ⟨heq, hne, hdigit⟩ := escapeByte_head e (h0 e he)
      have hfalse : isdigit e = false := by
        have := List.head?_dropWhile_not isdigit bs
        simpa [hd] using this
      refine ⟨(escapeByte e).headD 0, (escapeByte e).tail ++ es.flatMap escapeByte ++ 34 :: cs,
        ?_, by rw [hdigit, hfalse], hne⟩
      rw [List.flatMap_cons, heq]
      simp

/-- The string state reads an escaped string up to its closing quote and keeps
the text `decoded` describes. -/
theorem lookLoop_escaped (bs : List Byte) (h0 : ∀ b ∈ bs, b ≠ 0) {ts : List Text}
    {cs : List Byte} : ∀ (n : ℕ) (s : Scanner), bs.length < n →
      s.Reads ts (bs.flatMap escapeByte ++ 34 :: cs) →
      ∃ s', lookLoop n .s2 s = some (.string, s') ∧ ReadTo s s' ts cs (decoded bs) := by
  induction bs using decoded.induct with
  | case1 =>
      intro n s hn hs
      obtain ⟨m, rfl⟩ : ∃ m, n = m + 1 := ⟨n - 1, by simp at hn; omega⟩
      refine ⟨_, by rw [lookLoop, lookStep_string_end hs]; rfl, ?_⟩
      simpa [decoded] using (nextchar_of_reads hs).2.dropLastText
  | case2 b bs hnum ih =>
      intro n s hn hs
      obtain ⟨m, rfl⟩ : ∃ m, n = m + 1 := ⟨n - 1, by simp at hn; omega⟩
      have h0' : ∀ e ∈ bs, e ≠ 0 := fun e he => h0 e (List.mem_cons_of_mem _ he)
      obtain ⟨c, rest, hrest, hc, hc0⟩ := escape_dropWhile_head h0' cs
      have hdigits : ∀ d ∈ bs.takeWhile isdigit, isdigit d := fun d hd =>
        List.all_eq_true.mp (List.all_takeWhile (p := isdigit) (l := bs)) d hd
      have hsplit : bs.flatMap escapeByte ++ 34 :: cs =
          bs.takeWhile isdigit ++ c :: rest := by
        conv_lhs => rw [← List.takeWhile_append_dropWhile (p := isdigit) (l := bs)]
        rw [List.flatMap_append, escape_digits hdigits, List.append_assoc, hrest]
      have hs' : s.Reads ts
          (chr '\\' :: (octal b.toNat ++ bs.takeWhile isdigit ++ c :: rest)) := by
        simpa [escapeByte_numeric b hnum, hsplit] using hs
      have hdrop := (nextchar_of_reads hs').2.dropLastText
      obtain ⟨s₁, hesc, hread⟩ := getEscape_octal hdigits hc hc0 hdrop.reads
      have hread₁ := hdrop.trans hread
      obtain ⟨s', hrun, hread'⟩ := ih
        (fun e he => h0' e ((List.dropWhile_sublist isdigit).subset he)) m s₁
        (by have := List.length_dropWhile_le isdigit bs; simp at hn; omega)
        (by rw [hrest]; exact hread₁.reads)
      refine ⟨s', ?_, by simpa [decoded, hnum] using hread₁.trans hread'⟩
      rw [lookLoop, lookStep_string_backslash hs', hesc]
      exact hrun
  | case3 b bs hnum ih =>
      intro n s hn hs
      obtain ⟨m, rfl⟩ : ∃ m, n = m + 1 := ⟨n - 1, by simp at hn; omega⟩
      have h0' : ∀ e ∈ bs, e ≠ 0 := fun e he => h0 e (List.mem_cons_of_mem _ he)
      obtain ⟨s₁, hstep, hread⟩ : ∃ s₁, lookStep .s2 s = some (.more .s2 s₁) ∧
          ReadTo s s₁ ts (bs.flatMap escapeByte ++ 34 :: cs) [b] := by
        rw [List.flatMap_cons, List.append_assoc] at hs
        rcases escapeByte_plain b (by simpa using hnum) (h0 b (by simp)) with h | ⟨heq, hc0, hc⟩
        · obtain ⟨heq, h34, hb⟩ := h
          rw [heq] at hs
          exact ⟨_, lookStep_string_plain hs (h0 b (by simp)) h34 hb, (nextchar_of_reads hs).2⟩
        · rw [heq] at hs
          have hdrop := (nextchar_of_reads hs).2.dropLastText
          obtain ⟨s₁, hesc, hread⟩ := getEscape_simple hc0 hc hdrop.reads
          exact ⟨s₁, by rw [lookStep_string_backslash hs, hesc]; rfl, hdrop.trans hread⟩
      obtain ⟨s', hrun, hread'⟩ := ih h0' m s₁ (by simp at hn; omega) hread.reads
      refine ⟨s', ?_, by simpa [decoded, hnum] using hread.trans hread'⟩
      rw [lookLoop, hstep]
      exact hrun

/-- The opening quote: state 0 gives it back, state 1000 enters the string state. -/
theorem lookLoop_quote {s : Scanner} {ts : List Text} {cs : List Byte}
    (hid : s.idstart.contains 34 = false) (hs : s.Reads ts (34 :: cs)) (n : ℕ) :
    ∃ s', lookLoop (n + 2) .s0 s = lookLoop n .s2 s' ∧ s'.Reads ts cs ∧ s'.text = [] ∧
      s'.nexttoken = s.nexttoken := by
  have hspace : isspace 34 = false ∧ (34 : Byte) ≠ chr '\n' := by decide
  have hfirst : ∀ t : Scanner, t.idstart.contains 34 = false →
      lookFirst 34 t = .more .s2 { t with startLine := t.line, text := [] } := by
    intro t ht
    have hchars : isalpha 34 = false ∧ ((34 : Byte) == chr '_') = false := by decide
    rw [lookFirst, ht, hchars.1, hchars.2]
    simp [chr]
  let s₁ : Scanner := { s with text := [], textLine := s.line }
  have hs₁ : s₁.Reads ts (34 :: cs) := hs
  have hid₁ : (nextchar s₁).2.idstart.contains 34 = false := by
    obtain ⟨t, hobjs, hrest⟩ := hs₁
    rw [nextchar, hobjs]
    simpa [nextcharFrom, Text.getc_of_rest_cons hrest, s₁] using hid
  have hstep₀ : lookStep .s0 s = some (.more .s1000 s₁) := by
    simp [lookStep, (nextchar_of_reads hs).1, hspace, retract_nextchar hs, s₁]
  have hstep₁ : lookStep .s1000 s₁ = some (lookFirst 34 (nextchar s₁).2) := by
    simp [lookStep, (nextchar_of_reads hs₁).1]
  have hread := (nextchar_of_reads hs₁).2
  refine ⟨{ (nextchar s₁).2 with startLine := (nextchar s₁).2.line, text := [] }, ?_,
    hread.reads, rfl, hread.nexttoken⟩
  rw [lookLoop, hstep₀, Option.bind_some]
  simp only [lookLoop, hstep₁, Option.bind_some, hfirst _ hid₁]

theorem length_le_length_escape (bs : List Byte) (h0 : ∀ b ∈ bs, b ≠ 0) :
    bs.length ≤ (bs.flatMap escapeByte).length := by
  induction bs with
  | nil => simp
  | cons b bs ih =>
      have := ih fun e he => h0 e (List.mem_cons_of_mem _ he)
      rw [List.flatMap_cons, (escapeByte_head b (h0 b (by simp))).1]
      simp only [List.length_cons, List.length_append]
      omega

theorem token_of_look {s s' : Scanner} {tok : Token} (hnext : s.nexttoken = none)
    (hlook : look { s with startLine := 0 } = some (tok, s')) :
    s.token = some (tok,
      { s' with textLine := if s'.startLine = 0 then s'.line else s'.startLine }) := by
  rw [token]
  split
  · simp_all
  · rw [hlook]
    rfl

theorem look_escaped (bs : List Byte) (h0 : ∀ b ∈ bs, b ≠ 0) {s : Scanner}
    (hid : s.idstart.contains 34 = false)
    (hs : s.Reads [] (34 :: (bs.flatMap escapeByte ++ [34]))) :
    ∃ s', s.look = some (.string, s') ∧ s'.text = decoded bs ∧ s'.nexttoken = s.nexttoken ∧
      s'.Reads [] [] := by
  let s₀ : Scanner := { s with text := [], startLine := s.line }
  have hs₀ : s₀.Reads [] (34 :: (bs.flatMap escapeByte ++ [34])) := hs
  have hfuel : bs.length < s₀.remaining := by
    have hlen := remaining_ge_of_reads hs₀
    have hesc := length_le_length_escape bs h0
    simp only [List.length_cons, List.length_append] at hlen
    omega
  obtain ⟨s₁, hquote, hread₁, htext₁, hnext₁⟩ :=
    lookLoop_quote (s := s₀) hid hs₀ s₀.remaining
  obtain ⟨s₂, hloop, hread₂⟩ := lookLoop_escaped bs h0 s₀.remaining s₁ hfuel hread₁
  exact ⟨s₂, hquote.trans hloop, by simpa [htext₁] using hread₂.text,
    hread₂.nexttoken.trans hnext₁, hread₂.reads⟩

/-- A scanner that holds one quoted escaped string returns it as a string
token whose text is `decoded`, and leaves nothing to read. -/
theorem token_escaped (bs : List Byte) (h0 : ∀ b ∈ bs, b ≠ 0) {s : Scanner}
    (hid : s.idstart.contains 34 = false) (hnext : s.nexttoken = none)
    (hs : s.Reads [] (34 :: (bs.flatMap escapeByte ++ [34]))) :
    ∃ s', s.token = some (.string, s') ∧ s'.text = decoded bs ∧ s'.nexttoken = none ∧
      s'.Reads [] [] := by
  obtain ⟨s', hlook, htext, hnext', hreads⟩ :=
    look_escaped bs h0 (s := { s with startLine := 0 }) hid hs
  exact ⟨_, token_of_look hnext hlook, htext, hnext'.trans hnext, hreads⟩

theorem token_eof {s : Scanner} (hnext : s.nexttoken = none) (hs : s.Reads [] []) :
    ∃ s', s.token = some (.eof, s') := by
  let s₀ : Scanner := { { s with startLine := 0 } with text := [], startLine := s.line }
  have hs₀ : s₀.Reads [] [] := hs
  have hlook : look { s with startLine := 0 } = some (.eof, (nextchar s₀).2) := by
    show (lookStep .s0 s₀).bind _ = _
    simp [lookStep, nextchar_of_reads_nil hs₀]
  exact ⟨_, token_of_look hnext hlook⟩

end Scanner

/-! ### What comes back -/

/-- Exactly what the scanner makes of an escaped string. -/
theorem scanQuoted_eq (sc : Scanner) (hid : sc.idstart.contains 34 = false) (s : List Byte)
    (h0 : ∀ b ∈ s, b ≠ 0) : scanQuoted sc s = some (.string, decoded s, .eof) := by
  let txt : Text := .ofBytes ([34] ++ swigStringEscape (.ofBytes s) ++ [34])
  have hreads : (sc.clear.push txt).Reads [] (34 :: (s.flatMap escapeByte ++ [34])) :=
    ⟨txt, rfl, by simp [txt, Text.ofBytes, Text.rest, swigStringEscape]⟩
  obtain ⟨s₁, htok₁, htext₁, hnext₁, hreads₁⟩ :=
    Scanner.token_escaped s h0 (s := sc.clear.push txt) hid rfl hreads
  obtain ⟨s₂, htok₂⟩ := Scanner.token_eof hnext₁ hreads₁
  show (sc.clear.push txt).token.bind _ = _
  rw [htok₁, Option.bind_some]
  simp [htok₂, htext₁]

theorem length_decoded_le (s : List Byte) : (decoded s).length ≤ s.length := by
  induction s using decoded.induct with
  | case1 => simp [decoded]
  | case2 b bs hnum ih =>
      have := List.length_dropWhile_le isdigit bs
      simp only [decoded, hnum, if_true, List.length_cons]
      omega
  | case3 b bs hnum ih => simpa [decoded, hnum] using ih

/-- No numeric escape is followed by a digit. -/
def DigitFreeEscapes (s : List Byte) : Prop :=
  s.IsChain fun b c => numericEscape b = true → isdigit c = false

instance (s : List Byte) : Decidable (DigitFreeEscapes s) :=
  inferInstanceAs (Decidable (s.IsChain _))

/-- The text survives exactly when no numeric escape swallows a digit: one that
does makes the result shorter. -/
theorem decoded_eq_self_iff (s : List Byte) : decoded s = s ↔ DigitFreeEscapes s := by
  induction s using decoded.induct with
  | case1 => simp [decoded, DigitFreeEscapes]
  | case2 b bs hnum ih =>
      simp only [decoded, hnum, if_true]
      cases bs with
      | nil => simp [decoded, DigitFreeEscapes]
      | cons c cs =>
          by_cases hc : isdigit c
          · have hlen : (decoded ((c :: cs).dropWhile isdigit)).length ≤ cs.length := by
              refine (length_decoded_le _).trans ?_
              simpa [List.dropWhile_cons, hc] using List.length_dropWhile_le isdigit cs
            constructor
            · intro h
              have := congrArg List.length h
              simp only [List.length_cons] at this
              omega
            · intro h
              have := (List.isChain_cons_cons.mp h).1 hnum
              simp [hc] at this
          · rw [List.takeWhile_cons_of_neg hc, List.dropWhile_cons_of_neg hc] at *
            simp [DigitFreeEscapes, List.isChain_cons_cons, hc, ih]
  | case3 b bs hnum ih =>
      simp only [decoded, hnum, Bool.false_eq_true, if_false, List.cons.injEq, true_and, ih]
      cases bs with
      | nil => simp [DigitFreeEscapes]
      | cons c cs => simp [DigitFreeEscapes, List.isChain_cons_cons, hnum]

/-- A NUL-free string comes back from the scanner as one string token with the
same text, and nothing after it, if and only if no byte written as a numeric
escape is directly followed by a digit. -/
theorem scanQuoted_roundtrip_iff (sc : Scanner) (hid : sc.idstart.contains 34 = false)
    (s : List Byte) (h0 : ∀ b ∈ s, b ≠ 0) :
    scanQuoted sc s = some (.string, s, .eof) ↔ DigitFreeEscapes s := by
  rw [scanQuoted_eq sc hid s h0, ← decoded_eq_self_iff]
  simp

theorem scanQuoted_roundtrip_iff_newline_bell :
    Scanner.newScanner.idstart.contains 34 = false ∧ (∀ b ∈ [10, 7, 65, 49], b ≠ (0 : Byte)) ∧
      (scanQuoted .newScanner [10, 7, 65, 49] = some (.string, [10, 7, 65, 49], .eof) ↔
        DigitFreeEscapes [10, 7, 65, 49]) :=
  ⟨by decide, by simp, scanQuoted_roundtrip_iff .newScanner (by decide) _ (by simp)⟩

/-- The bytes 1 and `'1'`: the encoder writes `\11`, which is read as a tab. -/
theorem scanQuoted_one_digit_one :
    (∀ b ∈ [1, chr '1'], b ≠ 0) ∧
      scanQuoted .newScanner [1, chr '1'] ≠ some (.string, [1, chr '1'], .eof) := by
  refine ⟨by simp [chr], ?_⟩
  decide +kernel

end Swig
