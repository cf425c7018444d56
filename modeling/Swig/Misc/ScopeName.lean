import Swig.DOH.CType
import Swig.Lib.ByteBlock

/-!
The scope functions (`misc.c`): `Swig_scopename_split`, `Swig_scopename_prefix`,
`Swig_scopename_last`, `Swig_scopename_first`, `Swig_scopename_suffix` and
`Swig_scopename_check`.

Pointers into the name are positions in it, and a null pointer is `none`.
-/

namespace Swig.Misc

open ByteBlock (indexOf Occurs indexOf_spec)

/-! ### The functions -/

/-- `NewStringWithSize`; a negative size has no meaning. -/
def newStringWithSize (s : List Byte) (size : ℤ) : Option (List Byte) :=
  if 0 ≤ size then some (s.take size.toNat) else none

/-- `level` behind a character of the template arguments. -/
def angleLevel (level : ℕ) (c : Byte) : ℕ :=
  if c = chr '<' then level + 1 else if c = chr '>' then level - 1 else level

/-- The loop of the first three functions: the position `cc` of the last `::` outside of
template arguments. `level` is the number of angle brackets open. -/
def lastScope : ℕ → ℕ → List Byte → ℕ → ℕ
  | _, _, [], cc => cc
  | level + 1, c, b :: s, cc => lastScope (angleLevel (level + 1) b) (c + 1) s cc
  | 0, c, [b], cc => if b = chr '<' then lastScope 1 (c + 1) [] cc else lastScope 0 (c + 1) [] cc
  | 0, c, b :: d :: s, cc =>
      if b = chr ':' ∧ d = chr ':' then lastScope 0 (c + 2) s c
      else if b = chr '<' then lastScope 1 (c + 1) (d :: s) cc
      else lastScope 0 (c + 1) (d :: s) cc

/-- The loop of the others: it stops at the first `::` outside of template arguments, at
`co`, or at the end. -/
def firstScope (co : ℕ) : ℕ → ℕ → List Byte → ℕ
  | _, c, [] => c
  | level + 1, c, b :: s => firstScope co (angleLevel (level + 1) b) (c + 1) s
  | 0, c, b :: s =>
      if c = co then c
      else if b = chr ':' ∧ s.head? = some (chr ':') then c
      else if b = chr '<' then firstScope co 1 (c + 1) s
      else firstScope co 0 (c + 1) s

/-- `Swig_scopename_split`. What it sets when there is no `::` is set again. -/
def scopenameSplit (s : List Byte) : Option (Option (List Byte) × List Byte) :=
  match indexOf (lit "operator ") s with
  | some co =>
      if co = 0 then some (none, s)
      else (newStringWithSize s (co - 0 - 2)).map fun rprefix => (some rprefix, s.drop co)
  | none =>
      let cc := lastScope 0 0 s 0
      if cc ≠ 0 then some (some (s.take cc), s.drop (cc + 2)) else some (none, s)

/-- `Swig_scopename_prefix`. -/
def scopenamePrefix (s : List Byte) : Option (Option (List Byte)) :=
  if indexOf (lit "::") s = none then some none
  else
    match indexOf (lit "operator ") s with
    | some co => if co = 0 then some none else (newStringWithSize s (co - 0 - 2)).map some
    | none =>
        let cc := lastScope 0 0 s 0
        if cc ≠ 0 then some (some (s.take cc)) else some none

/-- `Swig_scopename_last`. -/
def scopenameLast (s : List Byte) : List Byte :=
  if indexOf (lit "::") s = none then s
  else
    match indexOf (lit "operator ") s with
    | some co => s.drop co
    | none => s.drop (lastScope 0 0 s 0 + 2)

/-- `Swig_scopename_first`. -/
def scopenameFirst (s : List Byte) : Option (List Byte) :=
  if indexOf (lit "::") s = none then none
  else
    match indexOf (lit "operator ") s with
    | some 0 => none
    | co =>
        let c := firstScope (co.getD s.length) 0 0 s
        if c < s.length ∧ c ≠ 0 then some (s.take c) else none

/-- `Swig_scopename_suffix`. -/
def scopenameSuffix (s : List Byte) : Option (List Byte) :=
  if indexOf (lit "::") s = none then none
  else if indexOf (lit "operator ") s = some 0 then none
  else
    let c := firstScope s.length 0 0 s
    if c < s.length ∧ c ≠ 0 then some (s.drop (c + 2)) else none

/-- `Swig_scopename_check`. -/
def scopenameCheck (s : List Byte) : Bool :=
  if indexOf (lit "operator ") s = some 0 then false
  else if indexOf (lit "::") s = none then false
  else decide (firstScope s.length 0 0 s < s.length)

/-! ### Qualified names -/

/-- Template arguments: angle brackets are balanced. -/
inductive Arguments : List Byte → Prop
  | nil : Arguments []
  | char {c : Byte} {s : List Byte} (hc : c ≠ chr '<' ∧ c ≠ chr '>') (h : Arguments s) : Arguments (c :: s)
  | group {u s : List Byte} (hu : Arguments u) (h : Arguments s) : Arguments (chr '<' :: (u ++ chr '>' :: s))

/-- A component: an identifier with template arguments, in which there may be a `::`. -/
inductive Component : List Byte → Prop
  | nil : Component []
  | char {c : Byte} {s : List Byte} (hc : c ≠ chr '<' ∧ c ≠ chr '>' ∧ c ≠ chr ':') (h : Component s) :
      Component (c :: s)
  | group {u s : List Byte} (hu : Arguments u) (h : Component s) : Component (chr '<' :: (u ++ chr '>' :: s))

/-- A qualified name by its components. The first of `scopes` is empty for a leading `::`. Only
the last component may be the name of an operator. -/
structure QualifiedName where
  scopes : List (List Byte)
  last : List Byte
  isOperator : Bool
  scope : ∀ c ∈ scopes, Component c ∧ ¬ lit "operator " <+: c
  named : ∀ c ∈ scopes.tail, c ≠ []
  final : if isOperator then lit "operator " <+: last
    else Component last ∧ last ≠ [] ∧ ¬ lit "operator " <+: last

/-- The components with `::` between them. -/
def path : List (List Byte) → List Byte
  | [] => []
  | [c] => c
  | c :: d :: cs => c ++ lit "::" ++ path (d :: cs)

namespace QualifiedName

variable (k : QualifiedName)

def text : List Byte := path (k.scopes ++ [k.last])

/-- What is before the last `::` outside of template arguments. -/
def qualifier : Option (List Byte) := if k.scopes = [] then none else some (path k.scopes)

/-- What is behind the first one. -/
def behindFirst : Option (List Byte) := if k.scopes = [] then none else some (path (k.scopes.tail ++ [k.last]))

/-- The functions agree with the components of the name. -/
structure Agrees : Prop where
  split : scopenameSplit k.text = some (k.qualifier, k.last)
  scope : scopenamePrefix k.text = some k.qualifier
  last : scopenameLast k.text = k.last
  first : scopenameFirst k.text = k.scopes.head?
  suffix : scopenameSuffix k.text = k.behindFirst
  check : scopenameCheck k.text = true ↔ k.scopes ≠ []

/-- No leading `::`; a `::` between components, the name of an operator, or no `::` at all; and
no `operator` with a blank behind it but at the beginning of the name of an operator. -/
def Regular : Prop :=
  k.scopes.head? ≠ some [] ∧ (k.scopes ≠ [] ∨ k.isOperator = true ∨ indexOf (lit "::") k.last = none) ∧
    indexOf (lit "operator ") k.text = if k.isOperator then some (k.text.length - k.last.length) else none

end QualifiedName

/-! ### Scanning components -/

variable {co level c cc : ℕ} {b : Byte} {u s w : List Byte}

theorem lastScope_level (level c cc : ℕ) (b : Byte) (s : List Byte) :
    lastScope (level + 1) c (b :: s) cc = lastScope (angleLevel (level + 1) b) (c + 1) s cc := by
  cases s <;> rfl

theorem lastScope_open (c cc : ℕ) (s : List Byte) : lastScope 0 c (chr '<' :: s) cc = lastScope 1 (c + 1) s cc := by
  cases s with
  | nil => rfl
  | cons d s => exact (if_neg fun h => absurd h.1 (by decide)).trans (if_pos rfl)

theorem lastScope_char (hb : b ≠ chr '<') (hb' : b ≠ chr ':') (c cc : ℕ) (s : List Byte) :
    lastScope 0 c (b :: s) cc = lastScope 0 (c + 1) s cc := by
  cases s with
  | nil => exact if_neg hb
  | cons d s => exact (if_neg fun h => hb' h.1).trans (if_neg hb)

theorem lastScope_scope (c cc : ℕ) (s : List Byte) : lastScope 0 c (lit "::" ++ s) cc = lastScope 0 (c + 2) s c :=
  if_pos ⟨rfl, rfl⟩

theorem Arguments.lastScope_append (h : Arguments u) (level c cc : ℕ) (s : List Byte) :
    lastScope (level + 1) c (u ++ s) cc = lastScope (level + 1) (c + u.length) s cc := by
  induction h generalizing level c s with
  | nil => rfl
  | char hc _ ih =>
      rw [List.cons_append, lastScope_level, angleLevel, if_neg hc.1, if_neg hc.2, ih, List.length_cons,
        Nat.add_right_comm, Nat.add_assoc]
  | @group u v _ _ ihu ih =>
      rw [List.cons_append, List.append_assoc, List.cons_append, lastScope_level, angleLevel, if_pos rfl, ihu,
        lastScope_level, angleLevel, if_neg (by decide), if_pos rfl, Nat.add_sub_cancel, ih]
      congr 1
      simp only [List.length_cons, List.length_append]
      omega

theorem Component.lastScope_append (h : Component u) (c cc : ℕ) (s : List Byte) :
    lastScope 0 c (u ++ s) cc = lastScope 0 (c + u.length) s cc := by
  induction h generalizing c s with
  | nil => rfl
  | char hc _ ih =>
      rw [List.cons_append, lastScope_char hc.1 hc.2.2, ih, List.length_cons, Nat.add_right_comm, Nat.add_assoc]
  | @group u v hu _ ih =>
      rw [List.cons_append, List.append_assoc, List.cons_append, lastScope_open, hu.lastScope_append, lastScope_level,
        angleLevel, if_neg (by decide), if_pos rfl, Nat.sub_self, ih]
      congr 1
      simp only [List.length_cons, List.length_append]
      omega

theorem Component.lastScope_self (h : Component u) (c cc : ℕ) : lastScope 0 c u cc = cc := by
  have hscan := h.lastScope_append c cc []
  rw [List.append_nil] at hscan
  rw [hscan, lastScope]

theorem Arguments.firstScope_append (h : Arguments u) (co level c : ℕ) (s : List Byte) :
    firstScope co (level + 1) c (u ++ s) = firstScope co (level + 1) (c + u.length) s := by
  induction h generalizing level c s with
  | nil => rfl
  | char hc _ ih =>
      rw [List.cons_append, firstScope, angleLevel, if_neg hc.1, if_neg hc.2, ih, List.length_cons,
        Nat.add_right_comm, Nat.add_assoc]
  | @group u v _ _ ihu ih =>
      rw [List.cons_append, List.append_assoc, List.cons_append, firstScope, angleLevel, if_pos rfl, ihu, firstScope,
        angleLevel, if_neg (by decide), if_pos rfl, Nat.add_sub_cancel, ih]
      congr 1
      simp only [List.length_cons, List.length_append]
      omega

/-- A component is scanned if `co` is not in it. -/
theorem Component.firstScope_append (h : Component u) {co c : ℕ} (hco : c + u.length ≤ co) (s : List Byte) :
    firstScope co 0 c (u ++ s) = firstScope co 0 (c + u.length) s := by
  induction h generalizing c s with
  | nil => rfl
  | char hc _ ih =>
      rw [List.length_cons] at hco
      rw [List.cons_append, firstScope, if_neg (by omega), if_neg fun h => hc.2.2 h.1, if_neg hc.1, ih (by omega),
        List.length_cons, Nat.add_right_comm, Nat.add_assoc]
  | @group u v hu _ ih =>
      simp only [List.length_cons, List.length_append] at hco
      rw [List.cons_append, List.append_assoc, List.cons_append, firstScope, if_neg (by omega),
        if_neg fun h => absurd h.1 (by decide), if_pos rfl, hu.firstScope_append, firstScope,
        angleLevel, if_neg (by decide), if_pos rfl, Nat.sub_self, ih (by omega)]
      congr 1
      simp only [List.length_cons, List.length_append]
      omega

theorem firstScope_scope (co c : ℕ) (s : List Byte) : firstScope co 0 c (lit "::" ++ s) = c := by
  have h : lit "::" ++ s = chr ':' :: chr ':' :: s := rfl
  rw [h, firstScope]
  split
  · rfl
  · rw [if_pos ⟨rfl, rfl⟩]

/-! ### Names by their components -/

theorem length_colons : (lit "::").length = 2 := rfl

theorem path_cons (c : List Byte) {cs : List (List Byte)} (h : cs ≠ []) : path (c :: cs) = c ++ lit "::" ++ path cs := by
  cases cs with
  | nil => exact absurd rfl h
  | cons d cs => rfl

theorem path_snoc {cs : List (List Byte)} (h : cs ≠ []) (l : List Byte) :
    path (cs ++ [l]) = path cs ++ lit "::" ++ l := by
  induction cs with
  | nil => exact absurd rfl h
  | cons c cs ih =>
      by_cases hcs : cs = []
      · subst hcs
        rfl
      · rw [List.cons_append, path_cons c (by simp), ih hcs, path_cons c hcs]
        simp only [List.append_assoc]

theorem lastScope_path {cs : List (List Byte)} (hcs : ∀ c ∈ cs, Component c) {l : List Byte} (hl : Component l) (c cc : ℕ) :
    lastScope 0 c (path (cs ++ [l])) cc = if cs = [] then cc else c + (path cs).length := by
  induction cs generalizing c cc with
  | nil => exact hl.lastScope_self c cc
  | cons d cs ih =>
      obtain ⟨hd, hcs⟩ := List.forall_mem_cons.mp hcs
      rw [List.cons_append, path_cons d (by simp), List.append_assoc, hd.lastScope_append, lastScope_scope, ih hcs,
        if_neg (List.cons_ne_nil d cs)]
      split
      · next h => rw [h, path]
      · next h =>
          rw [path_cons d h]
          rw [List.length_append, List.length_append, length_colons]
          omega

namespace QualifiedName

variable (k : QualifiedName)

theorem text_eq (h : k.scopes ≠ []) : k.text = path k.scopes ++ lit "::" ++ k.last := path_snoc h k.last

theorem text_of_nil (h : k.scopes = []) : k.text = k.last := by
  rw [text, h]
  rfl

/-- The first component and what is behind it. -/
theorem text_first {c : List Byte} {cs : List (List Byte)} (h : k.scopes = c :: cs) :
    k.text = c ++ lit "::" ++ path (cs ++ [k.last]) := by
  rw [text, h, List.cons_append]
  exact path_cons c (by simp)

/-- What the functions give makes up the name. -/
theorem qualifier_append (p : List Byte) (hp : k.qualifier = some p) : p ++ lit "::" ++ k.last = k.text := by
  rw [qualifier] at hp
  split at hp
  · cases hp
  · next h =>
      cases hp
      exact (k.text_eq h).symm

theorem first_append (c u : List Byte) (hc : k.scopes.head? = some c) (hu : k.behindFirst = some u) :
    c ++ lit "::" ++ u = k.text := by
  obtain ⟨cs, hcs⟩ : ∃ cs, k.scopes = c :: cs := by
    cases hs : k.scopes with
    | nil => rw [hs] at hc; cases hc
    | cons d cs => rw [hs] at hc; cases hc; exact ⟨cs, rfl⟩
  rw [behindFirst, hcs, if_neg (List.cons_ne_nil c cs)] at hu
  cases hu
  exact (k.text_first hcs).symm

theorem length_text (h : k.scopes ≠ []) : k.text.length = (path k.scopes).length + 2 + k.last.length := by
  rw [k.text_eq h, List.length_append, List.length_append, length_colons]

theorem occurs_colons (h : k.scopes ≠ []) : indexOf (lit "::") k.text ≠ none := by
  intro hnone
  refine (indexOf_spec (lit "::") k.text).2 hnone (path k.scopes).length ?_
  rw [Occurs, k.text_eq h, List.append_assoc, List.drop_left]
  exact List.prefix_append ..

theorem drop_text (h : k.scopes ≠ []) : k.text.drop ((path k.scopes).length + 2) = k.last := by
  rw [k.text_eq h, ← length_colons, ← List.length_append, List.drop_left]

theorem take_text (h : k.scopes ≠ []) : k.text.take (path k.scopes).length = path k.scopes := by
  rw [k.text_eq h, List.append_assoc, List.take_left]

/-- The position of a name without the name of an operator. -/
theorem lastScope_text (h : k.isOperator = false) :
    lastScope 0 0 k.text 0 = if k.scopes = [] then 0 else (path k.scopes).length := by
  have hfinal := k.final
  rw [h] at hfinal
  have hscan := lastScope_path (fun c hc => (k.scope c hc).1) hfinal.1 0 0
  rwa [Nat.zero_add] at hscan

theorem firstScope_text {c : List Byte} {cs : List (List Byte)} (h : k.scopes = c :: cs) {co : ℕ} (hco : c.length ≤ co) :
    firstScope co 0 0 k.text = c.length := by
  have hc := (k.scope c (h ▸ List.mem_cons_self ..)).1
  rw [k.text_first h, List.append_assoc, hc.firstScope_append (by omega), firstScope_scope, Nat.zero_add]

theorem length_first_le {c : List Byte} {cs : List (List Byte)} (h : k.scopes = c :: cs) :
    c.length ≤ (path k.scopes).length := by
  rw [h]
  cases cs with
  | nil => exact le_rfl
  | cons d cs =>
      rw [path_cons c (List.cons_ne_nil d cs), List.length_append, List.length_append]
      omega

theorem path_ne_nil (hfirst : k.scopes.head? ≠ some []) (h : k.scopes ≠ []) : (path k.scopes).length ≠ 0 := by
  obtain ⟨c, cs, hcs⟩ := List.exists_cons_of_ne_nil h
  have hle := k.length_first_le hcs
  have hc : c ≠ [] := fun hnil => hfirst (by rw [hcs, hnil]; rfl)
  have := List.length_pos_iff.mpr hc
  omega

/-- A name of one component: there is nothing to split. -/
theorem agrees_of_nil (hscopes : k.scopes = []) (hany : k.isOperator = true ∨ indexOf (lit "::") k.last = none)
    (hop : indexOf (lit "operator ") k.text = if k.isOperator then some 0 else none) : k.Agrees := by
  have htext := k.text_of_nil hscopes
  cases hk : k.isOperator with
  | true =>
      rw [hk, if_pos rfl] at hop
      constructor
      · rw [scopenameSplit, hop, qualifier, if_pos hscopes, htext]
        rfl
      · rw [scopenamePrefix, hop, qualifier, if_pos hscopes]
        exact ite_self _
      · rw [scopenameLast, hop, htext]
        exact ite_self _
      · rw [scopenameFirst, hop, hscopes]
        exact ite_self _
      · rw [scopenameSuffix, if_pos hop, behindFirst, if_pos hscopes]
        exact ite_self _
      · rw [scopenameCheck, if_pos hop]
        exact iff_of_false Bool.false_ne_true fun h => h hscopes
  | false =>
      rw [hk] at hop hany
      have hno : indexOf (lit "::") k.text = none := htext ▸ hany.resolve_left nofun
      have hcc := k.lastScope_text hk
      rw [if_pos hscopes] at hcc
      constructor
      · rw [scopenameSplit, hop, hcc, qualifier, if_pos hscopes, htext]
        rfl
      · rw [scopenamePrefix, if_pos hno, qualifier, if_pos hscopes]
      · rw [scopenameLast, if_pos hno, htext]
      · rw [scopenameFirst, if_pos hno, hscopes]
        rfl
      · rw [scopenameSuffix, if_pos hno, behindFirst, if_pos hscopes]
      · rw [scopenameCheck, if_pos hno, ite_self]
        exact iff_of_false Bool.false_ne_true fun h => h hscopes

/-- A name of several components: it is split at the last `::`, and at the first one. -/
theorem agrees_of_scopes (hscopes : k.scopes ≠ []) (hfirst : k.scopes.head? ≠ some [])
    (hop : indexOf (lit "operator ") k.text =
      if k.isOperator then some ((path k.scopes).length + 2) else none) : k.Agrees := by
  obtain ⟨c, cs, hcs⟩ := List.exists_cons_of_ne_nil hscopes
  have hcolons := k.occurs_colons hscopes
  have hpath := k.path_ne_nil hfirst hscopes
  have hlen := k.length_text hscopes
  have hle := k.length_first_le hcs
  have hc : c.length ≠ 0 := fun h => hfirst (by rw [hcs, List.length_eq_zero_iff.mp h]; rfl)
  have hzero : indexOf (lit "operator ") k.text ≠ some 0 := by
    rw [hop]
    split
    · exact fun h => absurd (Option.some.inj h) (by omega)
    · exact nofun
  have hstop : firstScope k.text.length 0 0 k.text = c.length := k.firstScope_text hcs (by omega)
  have htake : k.text.take c.length = c := by rw [k.text_first hcs, List.append_assoc, List.take_left]
  have hdrop : k.text.drop (c.length + 2) = path (cs ++ [k.last]) := by
    rw [k.text_first hcs, ← length_colons, ← List.length_append, List.drop_left]
  have hinside : c.length < k.text.length ∧ c.length ≠ 0 := ⟨by omega, hc⟩
  have hsplit : scopenameSplit k.text = some (some (path k.scopes), k.last) ∧
      scopenamePrefix k.text = some (some (path k.scopes)) ∧ scopenameLast k.text = k.last := by
    rw [scopenameSplit, scopenamePrefix, if_neg hcolons, scopenameLast, if_neg hcolons, hop]
    cases hk : k.isOperator with
    | true =>
        have hsize : newStringWithSize k.text (((path k.scopes).length + 2 : ℕ) - 0 - 2) = some (path k.scopes) := by
          rw [newStringWithSize, if_pos (by omega), show ((((path k.scopes).length + 2 : ℕ) : ℤ) - 0 - 2).toNat =
            (path k.scopes).length by omega, k.take_text hscopes]
        rw [if_pos rfl]
        dsimp only
        rw [if_neg (Nat.succ_ne_zero _), if_neg (Nat.succ_ne_zero _), hsize, k.drop_text hscopes]
        exact ⟨rfl, rfl, rfl⟩
    | false =>
        have hcc := k.lastScope_text hk
        rw [if_neg hscopes] at hcc
        dsimp only
        rw [if_neg Bool.false_ne_true]
        dsimp only
        rw [hcc, if_pos hpath, if_pos hpath, k.take_text hscopes, k.drop_text hscopes]
        exact ⟨rfl, rfl, rfl⟩
  have hqualifier : k.qualifier = some (path k.scopes) := if_neg hscopes
  refine ⟨by rw [hqualifier]; exact hsplit.1, by rw [hqualifier]; exact hsplit.2.1, hsplit.2.2, ?_, ?_, ?_⟩
  · rw [scopenameFirst, if_neg hcolons]
    have hco : firstScope ((indexOf (lit "operator ") k.text).getD k.text.length) 0 0 k.text = c.length := by
      refine k.firstScope_text hcs ?_
      rw [hop]
      split
      · exact hle.trans (Nat.le_add_right _ 2)
      · exact hinside.1.le
    split
    · next h => exact absurd h hzero
    · dsimp only
      rw [hco, if_pos hinside, htake, hcs]
      rfl
  · rw [scopenameSuffix, if_neg hcolons, if_neg hzero]
    dsimp only
    rw [hstop, if_pos hinside, hdrop, behindFirst, if_neg hscopes, hcs]
    rfl
  · rw [scopenameCheck, if_neg hzero, if_neg hcolons, hstop]
    exact iff_of_true (decide_eq_true hinside.1) hscopes

/-- The functions on a regular name. -/
theorem Regular.agrees {k : QualifiedName} (h : k.Regular) : k.Agrees := by
  obtain ⟨hfirst, hany, hop⟩ := h
  by_cases hscopes : k.scopes = []
  · refine k.agrees_of_nil hscopes (hany.resolve_left fun h => h hscopes) ?_
    rwa [congrArg List.length (k.text_of_nil hscopes), Nat.sub_self] at hop
  · refine k.agrees_of_scopes hscopes hfirst ?_
    rwa [k.length_text hscopes, Nat.add_sub_cancel] at hop

/-- The name of an operator is seen in the text. -/
theorem occurs_operator (h : k.isOperator = true) :
    Occurs (lit "operator ") k.text (k.text.length - k.last.length) := by
  have hfinal := k.final
  rw [if_pos h] at hfinal
  rw [Occurs]
  by_cases hscopes : k.scopes = []
  · rwa [k.text_of_nil hscopes, Nat.sub_self, List.drop_zero]
  · rwa [k.length_text hscopes, Nat.add_sub_cancel, k.drop_text hscopes]

/-- A last component that begins like the name of an operator is one. -/
theorem isOperator_of_last (h : lit "operator " <+: k.last) : k.isOperator = true := by
  by_contra hk
  have hfinal := k.final
  rw [if_neg hk] at hfinal
  exact hfinal.2.2 h

theorem last_ne_nil : k.last ≠ [] := by
  have hfinal := k.final
  split at hfinal
  · intro h
    rw [h] at hfinal
    exact absurd hfinal.length_le (by decide)
  · exact hfinal.2.1

theorem scopenameFirst_ne_nil {s p : List Byte} (h : scopenameFirst s = some p) : p ≠ [] := by
  rw [scopenameFirst] at h
  split at h
  · cases h
  · split at h
    · cases h
    · dsimp only at h
      split at h
      · next hc =>
          cases h
          rw [← List.length_pos_iff, List.length_take]
          omega
      · cases h

/-- The functions agree with the components of the regular names only. -/
theorem Agrees.regular {k : QualifiedName} (h : k.Agrees) : k.Regular := by
  have hlast := List.length_pos_iff.mpr k.last_ne_nil
  refine ⟨fun hhead => scopenameFirst_ne_nil (h.first.trans hhead) rfl, ?_, ?_⟩
  · by_contra hnone
    rw [not_or, not_or, not_not] at hnone
    obtain ⟨hscopes, hk, hcolons⟩ := hnone
    have hdrop := h.last
    rw [k.text_of_nil hscopes, scopenameLast, if_neg hcolons] at hdrop
    -- something is left out of a name that is its own last component
    split at hdrop
    · next co hco =>
        obtain rfl : co = 0 := by
          have := congrArg List.length hdrop
          rw [List.length_drop] at this
          omega
        exact hk (k.isOperator_of_last ((indexOf_spec _ _).1 0 hco).1)
    · have := congrArg List.length hdrop
      rw [List.length_drop] at this
      omega
  · have hsplit := h.split
    rw [scopenameSplit] at hsplit
    cases hop : indexOf (lit "operator ") k.text with
    | none =>
        have hk : ¬ k.isOperator = true := fun hk => (indexOf_spec _ _).2 hop _ (k.occurs_operator hk)
        rw [if_neg hk]
    | some co =>
        have hoccurs := ((indexOf_spec _ _).1 co hop).1
        have hle := hoccurs.le_length (by decide)
        rw [hop] at hsplit
        dsimp only at hsplit
        have hdrop : k.text.drop co = k.last := by
          split at hsplit
          · next hco =>
              rw [hco, List.drop_zero]
              exact (Prod.mk.inj (Option.some.inj hsplit)).2
          · obtain ⟨p, -, hp⟩ := Option.map_eq_some_iff.mp hsplit
            exact (Prod.mk.inj hp).2
        rw [Occurs, hdrop] at hoccurs
        rw [if_pos (k.isOperator_of_last hoccurs), ← hdrop, List.length_drop, Option.some.injEq]
        omega

/-- Not of a name with a leading `::`, not of one whose only `::` is in its template
arguments, and not of one with an identifier that ends in `operator` before a blank. -/
theorem agrees_iff (k : QualifiedName) : k.Agrees ↔ k.Regular := ⟨Agrees.regular, Regular.agrees⟩

/-- A template with qualified arguments. -/
def template : QualifiedName where
  scopes := []
  last := lit "A<B::C>"
  isOperator := false
  scope := nofun
  named := nofun
  final := by
    refine ⟨.char (by decide) (.group (u := lit "B::C") ?_ .nil), by decide, by decide⟩
    exact .char (by decide) (.char (by decide) (.char (by decide) (.char (by decide) .nil)))

/-- The last component of `A<B::C>` is given without its first two characters. -/
theorem template_disagrees : ¬ template.Agrees :=
  fun h => absurd h.last (by decide)

end QualifiedName

end Swig.Misc
