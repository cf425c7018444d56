import Swig.Scanner.Look

/-!
Reading characters one by one. `Reads s ts cs` says that the string being
scanned still holds the bytes `cs`, with `ts` stacked below it; under it
`nextchar` takes the first of these bytes and `retract` undoes it.
-/

namespace Swig.Scanner

/-- The string being scanned holds `cs` and `ts` are below it on the stack. -/
def Reads (s : Scanner) (ts : List Text) (cs : List Byte) : Prop :=
  ∃ t, s.scanobjs = t :: ts ∧ t.rest = cs

/-- `s'` comes from `s` by reading on to `cs` and adding `out` to the text. -/
structure ReadTo (s s' : Scanner) (ts : List Text) (cs out : List Byte) : Prop where
  reads : s'.Reads ts cs
  text : s'.text = s.text ++ out
  nexttoken : s'.nexttoken = s.nexttoken

theorem ReadTo.trans {s₁ s₂ s₃ : Scanner} {ts : List Text} {cs₂ cs₃ o₁ o₂ : List Byte}
    (h₁ : ReadTo s₁ s₂ ts cs₂ o₁) (h₂ : ReadTo s₂ s₃ ts cs₃ o₂) :
    ReadTo s₁ s₃ ts cs₃ (o₁ ++ o₂) where
  reads := h₂.reads
  text := by rw [h₂.text, h₁.text, List.append_assoc]
  nexttoken := h₂.nexttoken.trans h₁.nexttoken

theorem remaining_ge_of_reads {s : Scanner} {ts : List Text} {cs : List Byte}
    (h : s.Reads ts cs) : cs.length ≤ s.remaining := by
  obtain ⟨t, hobjs, hrest⟩ := h
  simp [remaining, hobjs, hrest]

theorem nextchar_of_reads {s : Scanner} {ts : List Text} {c : Byte} {cs : List Byte}
    (h : s.Reads ts (c :: cs)) :
    (nextchar s).1 = c ∧ ReadTo s (nextchar s).2 ts cs [c] := by
  obtain ⟨t, hobjs, hrest⟩ := h
  rw [nextchar, hobjs]
  simp only [nextcharFrom, Text.getc_of_rest_cons hrest, true_and]
  exact ⟨⟨_, rfl, Text.rest_succ hrest _⟩, rfl, rfl⟩

/-- A string read to its end with nothing below it: `nextchar` returns 0. -/
theorem nextchar_of_reads_nil {s : Scanner} (h : s.Reads [] []) : (nextchar s).1 = 0 := by
  obtain ⟨t, hobjs, hrest⟩ := h
  rw [nextchar, hobjs]
  simp [nextcharFrom, Text.getc_of_rest_nil hrest]

theorem retract_nextchar {s : Scanner} {ts : List Text} {c : Byte} {cs : List Byte}
    (h : s.Reads ts (c :: cs)) : (nextchar s).2.retract 1 = some s := by
  obtain ⟨t, hobjs, hrest⟩ := h
  rw [nextchar, hobjs]
  have hback := Text.seek_back_getc hrest
  rw [Text.getc_of_rest_cons hrest] at hback
  simp only [nextcharFrom, Text.getc_of_rest_cons hrest]
  have hlast : (s.text ++ [c]).getD (s.text.length + 1 - 1) 0 = c := by simp
  simp only [retract, retractLoop, retractStep, List.length_append, List.length_singleton, hlast,
    List.dropLast_concat]
  have hline (P : Prop) [Decidable P] (l : ℤ) :
      (if P then (if P then l + 1 else l) - 1 else (if P then l + 1 else l)) = l := by
    split <;> simp
  rw [if_pos (by omega), hback]
  simp only [Option.bind_some, hline, ← hobjs]

/-- Dropping the character just read from the text. -/
theorem ReadTo.dropLastText {s s' : Scanner} {ts : List Text} {cs : List Byte} {c : Byte}
    (h : ReadTo s s' ts cs [c]) : ReadTo s s'.dropLastText ts cs [] where
  reads := h.reads
  text := by rw [Scanner.dropLastText, h.text, List.dropLast_concat, List.append_nil]
  nexttoken := h.nexttoken

theorem ReadTo.putText {s s' : Scanner} {ts : List Text} {cs out : List Byte}
    (h : ReadTo s s' ts cs out) (bs : List Byte) : ReadTo s (s'.putText bs) ts cs (out ++ bs) where
  reads := h.reads
  text := by rw [Scanner.putText, h.text, List.append_assoc]
  nexttoken := h.nexttoken

theorem ReadTo.refl {s : Scanner} {ts : List Text} {cs : List Byte} (h : s.Reads ts cs) :
    ReadTo s s ts cs [] where
  reads := h
  text := by simp
  nexttoken := rfl

end Swig.Scanner
