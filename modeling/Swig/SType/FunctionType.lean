import Swig.SType.TypeStr

/-!
Function declarators as texts: taking the function off a type, and the text of a
parameter list.
-/

namespace Swig.SType

open ByteBlock

/-- `SwigType_pop`: the first element and the rest. -/
def pop (t : SwigType) : SwigType × SwigType :=
  let r := elementSplit 0 t
  (r.1, if r.2.head? = some (chr '.') then r.2.tail else r.2)

/-- `SwigType_pop_function`: the function, with the qualifier before it, and the rest.
The function is fatal for another type. -/
def popFunction (t : SwigType) : Option (SwigType × SwigType) :=
  if isqualifier t then
    let f := pop t
    if (lit "f(").isPrefixOf f.2 then
      let g := pop f.2
      some (push g.1 f.1, g.2)
    else none
  else if (lit "f(").isPrefixOf t then some (pop t) else none

/-- `SwigType_issimple`; `nest` angle brackets are open. -/
def issimpleAux : ℕ → SwigType → Bool
  | _, [] => true
  | 0, c :: cs => if c = chr '<' then issimpleAux 1 cs else c != chr '.' && issimpleAux 0 cs
  | nest + 1, c :: cs =>
      if c = chr '<' then issimpleAux (nest + 2) cs
      else if c = chr '>' then issimpleAux nest cs
      -- the search for the bracket stops at the end, and the byte before it is looked at
      else if cs = [] then c != chr '.'
      else issimpleAux (nest + 1) cs

def issimple (t : SwigType) : Bool := issimpleAux 0 t

/-- `SwigType_isconst`; `const` tells for a name whether its typedef is const. -/
def isconst (const : SwigType → Bool) (t : SwigType) : Bool :=
  (isqualifier t && ((parm t).bind (indexOf (lit "const"))).isSome) || (issimple t && const t)

/-- The names of const types. A name in a typedef is an identifier. -/
structure ConstNames where
  const : SwigType → Bool
  const_function : ∀ t, const (lit "f(" ++ t) = false

/-! ### Types as parts of a parameter list -/

/-- The parentheses open behind a text, where no comma stands outside of parentheses. -/
def scan : ℕ → List Byte → Option ℕ
  | depth, [] => some depth
  | depth, c :: cs =>
      if c = chr '(' then scan (depth + 1) cs
      else if c = chr ')' then (if depth = 0 then none else scan (depth - 1) cs)
      else if c = chr ',' ∧ depth = 0 then none
      else scan depth cs

/-- The encoding of a type can be told from what stands beside it in a list. -/
def IsType (t : SwigType) : Prop := t ≠ [] ∧ scan 0 t = some 0

theorem scan_append {d d' : ℕ} {t : List Byte} (h : scan d t = some d') (rest : List Byte) :
    scan d (t ++ rest) = scan d' rest := by
  induction t generalizing d with
  | nil =>
      cases h
      rfl
  | cons c cs ih =>
      rw [scan] at h
      rw [List.cons_append, scan]
      split_ifs at h ⊢ <;> exact ih h

/-- Parentheses around a text hide its commas and change nothing else. -/
theorem scan_add {d d' : ℕ} {t : List Byte} (h : scan d t = some d') (k : ℕ) :
    scan (d + k) t = some (d' + k) := by
  induction t generalizing d with
  | nil =>
      cases h
      rfl
  | cons c cs ih =>
      rw [scan] at h ⊢
      by_cases hopen : c = chr '('
      · rw [if_pos hopen] at h ⊢
        rw [show d + k + 1 = d + 1 + k by omega]
        exact ih h
      rw [if_neg hopen] at h ⊢
      by_cases hclose : c = chr ')'
      · rw [if_pos hclose] at h ⊢
        obtain ⟨hd, h⟩ : d ≠ 0 ∧ scan (d - 1) cs = some d' := by simpa using h
        rw [if_neg (by omega), show d + k - 1 = d - 1 + k by omega]
        exact ih h
      rw [if_neg hclose] at h ⊢
      obtain ⟨hcomma, h⟩ : (c = chr ',' → d ≠ 0) ∧ scan d cs = some d' := by simpa using h
      rw [if_neg fun hc => hcomma hc.1 (by omega)]
      exact ih h

theorem elementSplit_scan {d d' : ℕ} {t : List Byte} (h : scan d t = some d') (rest : List Byte) :
    elementSplit (d + 1) (t ++ rest) =
      (t ++ (elementSplit (d' + 1) rest).1, (elementSplit (d' + 1) rest).2) := by
  induction t generalizing d with
  | nil =>
      cases h
      rfl
  | cons c cs ih =>
      rw [scan] at h
      rw [List.cons_append, elementSplit]
      split at h
      · rw [if_pos ‹_›, ih h, List.cons_append]
      · rw [if_neg ‹_›]
        split at h
        · rw [if_pos ‹_›]
          cases d with
          | zero => cases h
          | succ d =>
              rw [if_neg (Nat.succ_ne_zero d), Nat.add_sub_cancel] at h
              rw [ih h, List.cons_append]
        · rw [if_neg ‹_›]
          split at h
          · cases h
          · rw [ih h, List.cons_append]

theorem parmItems_scan {d d' : ℕ} {t : List Byte} (h : scan d t = some d') (item rest : List Byte) :
    parmItems d item (t ++ rest) = parmItems d' (item ++ t) rest := by
  induction t generalizing d item with
  | nil =>
      cases h
      rw [List.nil_append, List.append_nil]
  | cons c cs ih =>
      have happend : item ++ c :: cs = (item ++ [c]) ++ cs := by rw [List.append_assoc, List.singleton_append]
      rw [scan] at h
      rw [List.cons_append, happend]
      cases d with
      | zero =>
          rw [parmItems]
          split at h
          · have hne : c ≠ chr ',' ∧ c ≠ chr ')' := by rw [‹c = chr '('›]; decide
            rw [if_neg hne.1, if_neg hne.2, if_pos ‹_›, ih h]
          · split at h
            · rw [if_pos rfl] at h
              cases h
            · split at h
              · cases h
              · rw [if_neg fun hc => ‹¬ (c = chr ',' ∧ 0 = 0)› ⟨hc, rfl⟩, if_neg ‹_›, if_neg ‹_›, ih h]
      | succ d =>
          rw [parmItems]
          split at h
          · rw [if_pos ‹_›, ih h]
          · rw [if_neg ‹_›]
            split at h
            · rw [if_neg (Nat.succ_ne_zero d), Nat.add_sub_cancel] at h
              rw [if_pos ‹_›, ih h]
            · rw [if_neg ‹_›]
              split at h
              · cases h
              · rw [ih h]

/-! ### Parameter lists -/

theorem intercalate_cons_cons (t u : SwigType) (ts : List SwigType) :
    (lit ",").intercalate (t :: u :: ts) = t ++ chr ',' :: (lit ",").intercalate (u :: ts) := by
  simp [List.intercalate, lit]

/-- The text of a list of types, with its closing parenthesis. -/
theorem parmItems_intercalate {ts : List SwigType} (h : ∀ t ∈ ts, IsType t) (rest : List Byte) :
    parmItems 0 [] ((lit ",").intercalate ts ++ chr ')' :: rest) = ts := by
  induction ts with
  | nil => rfl
  | cons t ts ih =>
      obtain ⟨hne, hscan⟩ := h t List.mem_cons_self
      cases ts with
      | nil =>
          have hone : (lit ",").intercalate [t] = t := by simp [List.intercalate]
          rw [hone, parmItems_scan hscan, List.nil_append, parmItems, if_neg (by decide), if_pos rfl, if_neg hne]
      | cons u ts =>
          rw [intercalate_cons_cons, List.append_assoc, parmItems_scan hscan, List.nil_append, List.cons_append,
            parmItems, if_pos rfl, ih fun v hv => h v (List.mem_cons_of_mem _ hv)]

theorem elementSplit_intercalate {ts : List SwigType} (h : ∀ t ∈ ts, IsType t) (rest : List Byte) :
    elementSplit 1 ((lit ",").intercalate ts ++ chr ')' :: rest) =
      ((lit ",").intercalate ts ++ chr ')' :: (elementSplit 0 rest).1, (elementSplit 0 rest).2) := by
  induction ts with
  | nil => rfl
  | cons t ts ih =>
      obtain ⟨hne, hscan⟩ := h t List.mem_cons_self
      cases ts with
      | nil =>
          have hone : (lit ",").intercalate [t] = t := by simp [List.intercalate]
          rw [hone, elementSplit_scan hscan]
          rfl
      | cons u ts =>
          have hcomma (s : List Byte) : elementSplit 1 (chr ',' :: s) =
              (chr ',' :: (elementSplit 1 s).1, (elementSplit 1 s).2) := rfl
          rw [intercalate_cons_cons, List.append_assoc, elementSplit_scan hscan, List.cons_append, hcomma,
            ih fun v hv => h v (List.mem_cons_of_mem _ hv), List.append_assoc, List.cons_append]

/-- A function type is its function element and what it returns. -/
theorem elementSplit_function {ts : List SwigType} (h : ∀ t ∈ ts, IsType t) (rest : SwigType) :
    elementSplit 0 (addFunction rest ts) = (addFunction [] ts, rest) := by
  have hhead (s : List Byte) :
      elementSplit 0 (lit "f(" ++ s) = (lit "f(" ++ (elementSplit 1 s).1, (elementSplit 1 s).2) := rfl
  have hclose (s : SwigType) : lit ")." ++ s = chr ')' :: (lit "." ++ s) := rfl
  have hdot : elementSplit 0 (lit "." ++ rest) = (lit ".", rest) := rfl
  rw [addFunction, List.append_assoc, List.append_assoc, hhead, hclose, elementSplit_intercalate h, hdot, addFunction]
  simp [lit, chr]

/-- Different lists of types have different function texts. -/
theorem addFunction_injective {ts us : List SwigType} (ht : ∀ t ∈ ts, IsType t) (hu : ∀ u ∈ us, IsType u)
    (h : addFunction [] ts = addFunction [] us) : ts = us := by
  have hclose (ts : List SwigType) : addFunction [] ts = lit "f(" ++ ((lit ",").intercalate ts ++ chr ')' :: lit ".") := by
    simp [addFunction, lit, chr]
  rw [hclose, hclose] at h
  have heq := List.append_cancel_left h
  calc ts = parmItems 0 [] ((lit ",").intercalate ts ++ chr ')' :: lit ".") := (parmItems_intercalate ht _).symm
    _ = parmItems 0 [] ((lit ",").intercalate us ++ chr ')' :: lit ".") := by rw [heq]
    _ = us := parmItems_intercalate hu _

/-! ### The encodings of types -/

/-- A constructor with an argument in front of a type, or of nothing. -/
theorem isType_constructor (name : List Byte) {arg t : List Byte} (hname : scan 0 name = some 0) (harg : scan 1 arg = some 1)
    (ht : t = [] ∨ IsType t) : IsType (name ++ chr '(' :: (arg ++ chr ')' :: chr '.' :: t)) := by
  refine ⟨by simp, ?_⟩
  have hopen (s : List Byte) : scan 0 (chr '(' :: s) = scan 1 s := rfl
  have hclose (s : List Byte) : scan 1 (chr ')' :: chr '.' :: s) = scan 0 s := rfl
  rw [scan_append hname, hopen, scan_append harg, hclose]
  obtain rfl | ht := ht
  · rfl
  · exact ht.2

theorem IsType.addPointer {t : SwigType} (h : IsType t) : IsType (addPointer t) := ⟨by simp [SType.addPointer, lit], h.2⟩

theorem IsType.addReference {t : SwigType} (h : IsType t) : IsType (addReference t) :=
  ⟨by simp [SType.addReference, lit], h.2⟩

theorem IsType.addMemberpointer {t name : SwigType} (h : IsType t) (hname : IsType name) :
    IsType (addMemberpointer t name) := by
  have hm := isType_constructor (lit "m") rfl (scan_add hname.2 1) (.inr h)
  simpa [SType.addMemberpointer, lit, chr] using hm

theorem IsType.addQualifier {t q : SwigType} {qual : List Byte} (h : IsType t) (hqual : scan 1 qual = some 1)
    (hq : addQualifier t qual = some q) : IsType q := by
  rw [SType.addQualifier] at hq
  split at hq
  · dsimp only at hq
    split at hq
    · cases hq
      exact h
    · cases hq
  · cases hq
    have hm := isType_constructor (lit "q") rfl hqual (.inr h)
    simpa [lit, chr] using hm

theorem IsType.addArray {t a : SwigType} {size : List Byte} (h : IsType t) (hsize : scan 1 size = some 1)
    (ha : addArray t size = some a) : IsType a := by
  rw [SType.addArray] at ha
  split at ha
  · cases ha
    have hm := isType_constructor (lit "a") rfl hsize (.inr h)
    simpa [lit, chr] using hm
  · cases ha

theorem scan_intercalate {ts : List SwigType} (h : ∀ t ∈ ts, IsType t) : scan 1 ((lit ",").intercalate ts) = some 1 := by
  induction ts with
  | nil => rfl
  | cons t ts ih =>
      have ht : scan 1 t = some 1 := scan_add (h t List.mem_cons_self).2 1
      cases ts with
      | nil => simpa [List.intercalate] using ht
      | cons u ts =>
          rw [intercalate_cons_cons, scan_append ht]
          exact ih fun v hv => h v (List.mem_cons_of_mem _ hv)

theorem IsType.addFunction {t : SwigType} {ts : List SwigType} (h : t = [] ∨ IsType t) (hts : ∀ u ∈ ts, IsType u) :
    IsType (addFunction t ts) := by
  have hm := isType_constructor (lit "f") rfl (scan_intercalate hts) h
  simpa [SType.addFunction, lit, chr] using hm

/-! ### Declarators -/

/-- The type a function declarator gives its name; `rest` is the declarator around it. -/
def declarator (const : Bool) (rest : SwigType) (ts : List SwigType) : SwigType :=
  if const then lit "q(const)." ++ addFunction rest ts else addFunction rest ts

variable {ts us : List SwigType} {rest : SwigType} {c d : Bool}

theorem pop_function (h : ∀ t ∈ ts, IsType t) (hrest : rest.head? ≠ some (chr '.')) :
    pop (addFunction rest ts) = (addFunction [] ts, rest) := by
  rw [pop, elementSplit_function h, if_neg hrest]

theorem pop_const (ts : List SwigType) (rest : SwigType) :
    pop (lit "q(const)." ++ addFunction rest ts) = (lit "q(const).", addFunction rest ts) := rfl

theorem popFunction_declarator (h : ∀ t ∈ ts, IsType t) (hrest : rest.head? ≠ some (chr '.')) :
    popFunction (declarator c rest ts) = some (declarator c [] ts, rest) := by
  have hfunction : (lit "f(").isPrefixOf (addFunction rest ts) := by simp [addFunction, lit]
  cases c with
  | false => rw [declarator, if_neg (by decide), popFunction, if_neg (by simp [isqualifier, addFunction, lit]; decide),
      if_pos hfunction, pop_function h hrest]; rfl
  | true =>
      rw [declarator, if_pos rfl, popFunction, if_pos (by simp [isqualifier, lit]), pop_const]
      dsimp only
      rw [if_pos hfunction, pop_function h hrest]
      rfl

theorem isconst_declarator (names : ConstNames) : isconst names.const (declarator c rest ts) = c := by
  cases c with
  | false =>
      have hconst : names.const (addFunction rest ts) = false := by
        rw [addFunction, List.append_assoc, List.append_assoc]
        exact names.const_function _
      have hqualifier : isqualifier (addFunction rest ts) = false := rfl
      rw [declarator, if_neg (by decide), isconst, hconst, hqualifier, Bool.and_false]
      rfl
  | true => rfl

theorem addQualifier_function :
    (if c then addQualifier (addFunction rest ts) (lit "const") else some (addFunction rest ts)) =
      some (declarator c rest ts) := by
  cases c with
  | false => rfl
  | true => rfl

theorem declarator_injective (ht : ∀ t ∈ ts, IsType t) (hu : ∀ u ∈ us, IsType u)
    (h : declarator c [] ts = declarator d [] us) : ts = us := by
  cases c <;> cases d
  · exact addFunction_injective ht hu h
  · cases List.cons.inj h
    contradiction
  · cases List.cons.inj h
    contradiction
  · exact addFunction_injective ht hu (List.append_cancel_left h)

end Swig.SType
