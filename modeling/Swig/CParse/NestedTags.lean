import Swig.CParse.NestedComments
import Swig.DOH.ReplaceWords
import Swig.Lib.Fuel

/-!
The loops of `dump_nested` (`parser.y`) that blank the tag names in the text of a nested class.
-/

namespace Swig.CParse.Nested

open ByteBlock DOH

/-! ### The loops -/

/-- `strchr`. -/
def strchr (s : List Byte) (c : Byte) : Option ℕ := s.findIdx? (· == c)

/-- `open_bracket_pos`, if there is no semicolon in front of it. -/
def openBracket (s : List Byte) : Option ℕ :=
  match strchr s (chr '{') with
  | none => none
  | some pos =>
      match strchr s (chr ';') with
      | none => some pos
      | some semi => if semi < pos then none else some pos

/-- The loop for one of `types_array`, from `code_ptr` on; `none` where the rounds do not
suffice. -/
def tagLoop (type : List Byte) : ℕ → List Byte → Option (List Byte)
  | 0, _ => none
  | n + 1, s =>
      match indexOf type s with
      | none => some s
      | some i =>
          let front := s.take (i + type.length)
          let rest := s.drop (i + type.length)
          match openBracket rest with
          | none => (tagLoop type n rest).map (front ++ ·)
          | some pos => (tagLoop type n (rest.drop pos)).map (front ++ List.replicate pos (chr ' ') ++ ·)

/-! ### Tags -/

def Mark.isSpace (m : Mark) : Bool := isspace m.1 && !m.2

def Mark.isIdent (m : Mark) : Bool := DOH.isIdent m.1 && !m.2

/-- A token of the text, outside of literals. -/
def token (s : List Byte) : List Mark := s.map (·, false)

/-- What stands between the keyword and the opening brace. -/
structure Tag where
  before : List Mark
  name : List Mark
  behind : List Mark

/-- A keyword with a tag name and an opening brace; `prev` says whether a byte of an identifier
stands in front of it. -/
def tagAt (type : List Byte) (prev : Bool) (ms : List Mark) : Option Tag :=
  let rest := ms.drop type.length
  let before := rest.takeWhile Mark.isSpace
  let rest := rest.dropWhile Mark.isSpace
  let name := rest.takeWhile Mark.isIdent
  let rest := rest.dropWhile Mark.isIdent
  let behind := rest.takeWhile Mark.isSpace
  let rest := rest.dropWhile Mark.isSpace
  if prev = false ∧ token type <+: ms ∧ before ≠ [] ∧ name ≠ [] ∧ rest.head? = some (chr '{', false) then
    some { before, name, behind }
  else none

/-- The text without its tag names: `copy` bytes are left as they are, and the `cut` bytes behind
them are blanked. -/
def tagsFrom (type : List Byte) : (copy cut : ℕ) → (prev : Bool) → List Mark → List Mark
  | _, _, _, [] => []
  | copy + 1, cut, _, m :: ms => m :: tagsFrom type copy cut (DOH.isIdent m.1) ms
  | 0, cut + 1, _, m :: ms => blank :: tagsFrom type 0 cut (DOH.isIdent m.1) ms
  | 0, 0, prev, m :: ms =>
      match tagAt type prev (m :: ms) with
      | some t => m :: tagsFrom type (type.length + t.before.length - 1) t.name.length (DOH.isIdent m.1) ms
      | none => m :: tagsFrom type 0 0 (DOH.isIdent m.1) ms

def tags (type : List Byte) (ms : List Mark) : List Mark := tagsFrom type 0 0 false ms

/-! ### What the search comes upon -/

/-- Between the keyword and the brace there are spaces and at most a tag name. -/
def OnlyTag (type : List Byte) (prev : Bool) (ms : List Mark) (pos : ℕ) : Prop :=
  match tagAt type prev ms with
  | some t => ∀ c ∈ bytes (t.before ++ t.behind), c = chr ' '
  | none => ∀ c ∈ bytes ((ms.drop type.length).take pos), c = chr ' '

/-- At every place with the bytes of the keyword and an opening brace behind it; the search goes on
at the brace. -/
def Tagged (type : List Byte) : (skip : ℕ) → (prev : Bool) → List Mark → Prop
  | _, _, [] => True
  | skip + 1, _, m :: ms => Tagged type skip (DOH.isIdent m.1) ms
  | 0, prev, m :: ms =>
      if type <+: bytes (m :: ms) then
        match openBracket (bytes ((m :: ms).drop type.length)) with
        | none => Tagged type (type.length - 1) (DOH.isIdent m.1) ms
        | some pos => OnlyTag type prev (m :: ms) pos ∧ Tagged type (type.length + pos - 1) (DOH.isIdent m.1) ms
      else Tagged type 0 (DOH.isIdent m.1) ms


variable {type s rest x y r : List Byte} {c : Byte} {ms : List Mark} {m : Mark} {n pos : ℕ} {prev : Bool}

/-! ### The rounds -/

theorem indexOf_prefix (hs : type <+: s) : indexOf type s = some 0 := by
  cases s with
  | nil =>
      obtain rfl := List.prefix_nil.mp hs
      rfl
  | cons c s => rw [indexOf, if_pos (List.isPrefixOf_iff_prefix.mpr hs)]

theorem indexOf_skip (h : ¬type <+: c :: s) : indexOf type (c :: s) = (indexOf type s).map (· + 1) := by
  rw [indexOf, if_neg (by rwa [List.isPrefixOf_iff_prefix])]

theorem cons_injective (c : Byte) : Function.Injective (c :: · : List Byte → List Byte) := List.cons_injective

theorem append_injective (x : List Byte) : Function.Injective (x ++ · : List Byte → List Byte) :=
  fun _ _ h => List.append_cancel_left h

theorem tagLoop_skip (h : ¬type <+: c :: s) (n : ℕ) : tagLoop type n (c :: s) = (tagLoop type n s).map (c :: ·) := by
  cases n with
  | zero => rfl
  | succ n =>
      rw [tagLoop, indexOf_skip h, tagLoop]
      cases indexOf type s with
      | none => rfl
      | some i =>
          have hpos : i + 1 + type.length = i + type.length + 1 := by omega
          dsimp only [Option.map_some]
          rw [hpos, List.take_succ_cons, List.drop_succ_cons]
          cases openBracket (s.drop (i + type.length)) with
          | none =>
              dsimp only
              rw [Option.map_map]
              rfl
          | some pos =>
              dsimp only
              rw [Option.map_map]
              rfl

theorem tagLoop_front (type rest : List Byte) (n : ℕ) : tagLoop type (n + 1) (type ++ rest) =
    match openBracket rest with
    | none => (tagLoop type n rest).map (type ++ ·)
    | some pos => (tagLoop type n (rest.drop pos)).map (type ++ List.replicate pos (chr ' ') ++ ·) := by
  rw [tagLoop, indexOf_prefix (List.prefix_append type rest)]
  dsimp only
  rw [Nat.zero_add, List.take_left, List.drop_left]

theorem returns_nil (h : type ≠ []) : Fuel.Returns (fun n => tagLoop type n []) r ↔ r = [] := by
  have hnone : indexOf type [] = none := by
    obtain ⟨c, type, rfl⟩ := List.exists_cons_of_ne_nil h
    rfl
  have hloop (n : ℕ) : tagLoop type (n + 1) [] = some [] := by rw [tagLoop, hnone]
  rw [← Fuel.returns_succ_iff, Fuel.returns_congr_iff hloop]
  exact ⟨fun hr => hr.unique (.const []), fun hr => hr ▸ .const []⟩

theorem returns_skip (h : ¬type <+: c :: s) :
    Fuel.Returns (fun n => tagLoop type n (c :: s)) r ↔
      ∃ r', r = c :: r' ∧ Fuel.Returns (fun n => tagLoop type n s) r' := by
  rw [Fuel.returns_congr_iff (tagLoop_skip h)]
  exact Fuel.returns_map_iff (cons_injective c)

theorem returns_keep (h : openBracket rest = none) :
    Fuel.Returns (fun n => tagLoop type n (type ++ rest)) r ↔
      ∃ r', r = type ++ r' ∧ Fuel.Returns (fun n => tagLoop type n rest) r' := by
  have hloop (n : ℕ) : tagLoop type (n + 1) (type ++ rest) = (tagLoop type n rest).map (type ++ ·) := by
    rw [tagLoop_front, h]
  rw [← Fuel.returns_succ_iff, Fuel.returns_congr_iff hloop]
  exact Fuel.returns_map_iff (append_injective type)

theorem returns_cut (h : openBracket rest = some pos) :
    Fuel.Returns (fun n => tagLoop type n (type ++ rest)) r ↔
      ∃ r', r = type ++ List.replicate pos (chr ' ') ++ r' ∧
        Fuel.Returns (fun n => tagLoop type n (rest.drop pos)) r' := by
  have hloop (n : ℕ) : tagLoop type (n + 1) (type ++ rest) =
      (tagLoop type n (rest.drop pos)).map (type ++ List.replicate pos (chr ' ') ++ ·) := by
    rw [tagLoop_front, h]
  rw [← Fuel.returns_succ_iff, Fuel.returns_congr_iff hloop]
  exact Fuel.returns_map_iff (append_injective _)

/-! ### The opening brace -/

theorem strchr_append (hx : c ∉ x) (s : List Byte) : strchr (x ++ c :: s) c = some x.length := by
  have hnone : x.findIdx? (· == c) = none :=
    List.findIdx?_eq_none_iff.mpr fun d hd => beq_false_of_ne fun heq => hx (heq ▸ hd)
  rw [strchr, List.findIdx?_append, hnone, List.findIdx?_cons, beq_self_eq_true]
  simp

theorem strchr_eq_none : strchr s c = none ↔ c ∉ s := by
  rw [strchr, List.findIdx?_eq_none_iff]
  exact ⟨fun h hc => by simpa using h c hc, fun h d hd => beq_false_of_ne fun heq => h (heq ▸ hd)⟩

theorem strchr_eq_some (h : strchr s c = some pos) : ∃ x y, s = x ++ c :: y ∧ c ∉ x ∧ x.length = pos := by
  obtain ⟨hlt, hpos, hbefore⟩ := List.findIdx?_eq_some_iff_getElem.mp h
  refine ⟨s.take pos, s.drop (pos + 1), ?_, fun hmem => ?_, List.length_take_of_le (by omega)⟩
  · rw [← beq_iff_eq.mp hpos, ← List.drop_eq_getElem_cons hlt, List.take_append_drop]
  · obtain ⟨i, hi, hget⟩ := List.getElem_of_mem hmem
    rw [List.length_take] at hi
    rw [List.getElem_take] at hget
    exact hbefore i (by omega) (beq_iff_eq.mpr hget)

theorem openBracket_append (hopen : chr '{' ∉ x) (hsemi : chr ';' ∉ x) (s : List Byte) :
    openBracket (x ++ chr '{' :: s) = some x.length := by
  rw [openBracket, strchr_append hopen]
  dsimp only
  cases hpos : strchr (x ++ chr '{' :: s) (chr ';') with
  | none => rfl
  | some semi =>
      obtain ⟨y, z, heq, hy, rfl⟩ := strchr_eq_some hpos
      refine if_neg fun hlt => hsemi ?_
      have hget : (x ++ chr '{' :: s)[y.length]? = some (chr ';') := by
        rw [heq, List.getElem?_append_right (Nat.le_refl _), Nat.sub_self]
        rfl
      rw [List.getElem?_append_left hlt] at hget
      exact List.mem_of_getElem? hget

theorem openBracket_eq_some (h : openBracket s = some pos) :
    ∃ x y, s = x ++ chr '{' :: y ∧ chr '{' ∉ x ∧ chr ';' ∉ x ∧ x.length = pos := by
  rw [openBracket] at h
  split at h
  · cases h
  · rename_i pos' hopen
    obtain ⟨x, y, rfl, hx, rfl⟩ := strchr_eq_some hopen
    split at h
    · rename_i hsemi
      cases h
      exact ⟨x, y, rfl, hx, fun hmem => strchr_eq_none.mp hsemi (List.mem_append_left _ hmem), rfl⟩
    · rename_i semi hsemi
      split at h
      · cases h
      · rename_i hlt
        cases h
        refine ⟨x, y, rfl, hx, fun hmem => hlt ?_, rfl⟩
        obtain ⟨u, v, rfl⟩ := List.append_of_mem hmem
        obtain ⟨w, z, heq, hw, rfl⟩ := strchr_eq_some hsemi
        rw [List.length_append, List.length_cons]
        by_contra hle
        have hget : (w ++ chr ';' :: z)[u.length]? = some (chr ';') := by
          rw [← heq, List.append_assoc, List.getElem?_append_right (Nat.le_refl _), Nat.sub_self]
          rfl
        rw [List.getElem?_append_left (by omega)] at hget
        exact hw (List.mem_of_getElem? hget)

/-! ### Keywords and tags -/

theorem bytes_append (x y : List Mark) : bytes (x ++ y) = bytes x ++ bytes y := List.map_append

theorem bytes_cons (m : Mark) (ms : List Mark) : bytes (m :: ms) = m.1 :: bytes ms := rfl

theorem length_bytes (ms : List Mark) : (bytes ms).length = ms.length := List.length_map _

theorem bytes_token (s : List Byte) : bytes (token s) = s := by
  rw [bytes, token, List.map_map]
  exact List.map_id s

theorem of_mem_takeWhile {p : Mark → Bool} (h : m ∈ ms.takeWhile p) : p m = true :=
  List.all_eq_true.mp List.all_takeWhile m h

theorem tagAt_eq_some {t : Tag} (h : tagAt type prev ms = some t) :
    prev = false ∧ (∃ tail, ms = token type ++ (t.before ++ (t.name ++ (t.behind ++ (chr '{', false) :: tail)))) ∧
      (∀ m ∈ t.before, m.isSpace = true) ∧ (∀ m ∈ t.name, m.isIdent = true) ∧ ∀ m ∈ t.behind, m.isSpace = true := by
  rw [tagAt] at h
  split at h
  · rename_i hif
    obtain ⟨hprev, ⟨rest, rfl⟩, -, -, hhead⟩ := hif
    have hdrop : (token type ++ rest).drop type.length = rest := by
      have hlen : (token type).length = type.length := List.length_map _
      rw [← hlen]
      exact List.drop_left
    rw [hdrop] at h hhead
    obtain ⟨tail, htail⟩ := List.head?_eq_some_iff.mp hhead
    cases h
    refine ⟨hprev, ⟨tail, ?_⟩, fun _ => of_mem_takeWhile, fun _ => of_mem_takeWhile, fun _ => of_mem_takeWhile⟩
    rw [← htail, List.takeWhile_append_dropWhile, List.takeWhile_append_dropWhile, List.takeWhile_append_dropWhile]
  · cases h

theorem tagAt_prev (ms : List Mark) : tagAt type true ms = none := by
  cases h : tagAt type true ms with
  | none => rfl
  | some t => cases (tagAt_eq_some h).1

theorem tagAt_eq_none (h : ¬type <+: bytes ms) : tagAt type prev ms = none := by
  cases hat : tagAt type prev ms with
  | none => rfl
  | some t =>
      obtain ⟨-, ⟨tail, rfl⟩, -⟩ := tagAt_eq_some hat
      rw [bytes_append, bytes_token] at h
      exact absurd (List.prefix_append _ _) h

/-- The byte before the next one is one of an identifier. -/
def lastIdent (prev : Bool) (x : List Mark) : Bool := x.foldl (fun _ m => DOH.isIdent m.1) prev

variable {x y z : List Mark}

theorem tagsFrom_copy (type : List Byte) (cut : ℕ) (prev : Bool) (x y : List Mark) :
    tagsFrom type x.length cut prev (x ++ y) = x ++ tagsFrom type 0 cut (lastIdent prev x) y := by
  induction x generalizing prev with
  | nil => rfl
  | cons m x ih => exact congrArg (m :: ·) (ih _)

theorem tagsFrom_cut (type : List Byte) (prev : Bool) (x y : List Mark) :
    tagsFrom type 0 x.length prev (x ++ y) =
      List.replicate x.length blank ++ tagsFrom type 0 0 (lastIdent prev x) y := by
  induction x generalizing prev with
  | nil => rfl
  | cons m x ih => exact congrArg (blank :: ·) (ih _)

theorem tagged_skip (type : List Byte) (prev : Bool) (x y : List Mark) :
    Tagged type x.length prev (x ++ y) ↔ Tagged type 0 (lastIdent prev x) y := by
  induction x generalizing prev with
  | nil => rfl
  | cons m x ih => exact ih _

theorem tagsFrom_none (h : tagAt type prev (m :: ms) = none) :
    tagsFrom type 0 0 prev (m :: ms) = m :: tagsFrom type 0 0 (DOH.isIdent m.1) ms := by
  rw [tagsFrom, h]

theorem lastIdent_word (hx : ∀ m ∈ x, DOH.isIdent m.1 = true) : lastIdent true x = true := by
  induction x with
  | nil => rfl
  | cons m x ih =>
      obtain ⟨hm, hx⟩ := List.forall_mem_cons.mp hx
      rw [lastIdent, List.foldl_cons, hm]
      exact ih hx

theorem tagsFrom_word (hx : ∀ m ∈ x, DOH.isIdent m.1 = true) (y : List Mark) :
    tagsFrom type 0 0 true (x ++ y) = x ++ tagsFrom type 0 0 true y := by
  induction x with
  | nil => rfl
  | cons m x ih =>
      obtain ⟨hm, hx⟩ := List.forall_mem_cons.mp hx
      rw [List.cons_append, tagsFrom_none (tagAt_prev _), hm, ih hx, List.cons_append]

section Keyword

variable (hword : IsWord type)
include hword

/-- No keyword begins with such a byte. -/
theorem not_prefix_bytes (hm : DOH.isIdent m.1 = false) : ¬type <+: bytes (m :: ms) := by
  obtain ⟨c, type, rfl⟩ := List.exists_cons_of_ne_nil hword.1
  intro h
  obtain ⟨rfl, -⟩ := List.cons_prefix_cons.mp h
  rw [hword.2 _ List.mem_cons_self] at hm
  cases hm

theorem tagsFrom_other (prev : Bool) (hm : DOH.isIdent m.1 = false) (ms : List Mark) :
    tagsFrom type 0 0 prev (m :: ms) = m :: tagsFrom type 0 0 false ms := by
  rw [tagsFrom_none (tagAt_eq_none (not_prefix_bytes hword hm)), hm]

theorem tagsFrom_others (prev : Bool) (hx : ∀ m ∈ x, DOH.isIdent m.1 = false) (hm : DOH.isIdent m.1 = false)
    (ms : List Mark) :
    tagsFrom type 0 0 prev (x ++ m :: ms) = x ++ m :: tagsFrom type 0 0 false ms := by
  induction x generalizing prev with
  | nil => exact tagsFrom_other hword prev hm ms
  | cons d x ih =>
      obtain ⟨hd, hx⟩ := List.forall_mem_cons.mp hx
      rw [List.cons_append, tagsFrom_other hword prev hd, ih false hx, List.cons_append]

theorem tagged_other (prev : Bool) (hm : DOH.isIdent m.1 = false) (ms : List Mark) :
    Tagged type 0 prev (m :: ms) ↔ Tagged type 0 false ms := by
  rw [Tagged, if_neg (not_prefix_bytes hword hm), hm]

/-- A region of which the tags leave only spaces has only spaces. -/
theorem tagsFrom_spaces {r : List Byte} (prev : Bool) (y : List Mark)
    (h : bytes (tagsFrom type 0 0 prev (x ++ y)) = List.replicate x.length (chr ' ') ++ r) :
    ∀ c ∈ bytes x, c = chr ' ' := by
  induction x generalizing prev with
  | nil => exact nofun
  | cons m x ih =>
      have hhead : ∃ ms', tagsFrom type 0 0 prev (m :: (x ++ y)) = m :: ms' := by
        rw [tagsFrom]
        split <;> exact ⟨_, rfl⟩
      have hm : m.1 = chr ' ' := by
        obtain ⟨ms', hms⟩ := hhead
        rw [List.cons_append, hms] at h
        exact (List.cons.inj h).1
      have hident : DOH.isIdent m.1 = false := by rw [hm]; rfl
      rw [List.cons_append, tagsFrom_other hword prev hident] at h
      exact List.forall_mem_cons.mpr ⟨hm, ih false (List.cons.inj h).2⟩

end Keyword

/-! ### The loop and the tags -/

theorem digit_le_of_isIdent (h : DOH.isIdent c = true) : chr '0' ≤ c := by
  simp only [DOH.isIdent, isalnum, isalpha, isupper, islower, isdigit, Bool.or_eq_true, Bool.and_eq_true,
    decide_eq_true_eq, beq_iff_eq] at h
  obtain ((⟨h, -⟩ | ⟨h, -⟩) | ⟨h, -⟩) | rfl := h
  · exact UInt8.le_trans (by decide) h
  · exact UInt8.le_trans (by decide) h
  · exact h
  · decide

theorem isSpace_not_ident (h : m.isSpace = true) : DOH.isIdent m.1 = false := by
  obtain ⟨h, -⟩ := Bool.and_eq_true_iff.mp h
  refine Bool.eq_false_iff.mpr fun hident => ?_
  have hle := UInt8.le_iff_toNat_le.mp (digit_le_of_isIdent hident)
  have hdigit : (chr '0').toNat = 48 := rfl
  simp only [isspace, Bool.or_eq_true, Bool.and_eq_true, decide_eq_true_eq, beq_iff_eq] at h
  obtain heq | ⟨-, hspace⟩ := h
  · have hval : m.1.toNat = 32 := congrArg UInt8.toNat heq
    omega
  · have hval : m.1.toNat ≤ 13 := UInt8.le_iff_toNat_le.mp hspace
    omega

theorem eq_replicate_iff {s : List Byte} {n : ℕ} (hs : s.length = n) :
    s = List.replicate n (chr ' ') ↔ ∀ c ∈ s, c = chr ' ' := by
  rw [List.eq_replicate_iff]
  exact ⟨fun h => h.2, fun h => ⟨hs, h⟩⟩

/-- The loop leaves what the tags leave of the text from here on. -/
def Settled (type : List Byte) (prev : Bool) (ms : List Mark) : Prop :=
  Fuel.Returns (fun n => tagLoop type n (bytes ms)) (bytes (tagsFrom type 0 0 prev ms)) ↔ Tagged type 0 prev ms

theorem Settled.skip (h : ¬type <+: bytes (m :: ms)) (hms : Settled type (DOH.isIdent m.1) ms) :
    Settled type prev (m :: ms) := by
  rw [Settled, tagsFrom_none (tagAt_eq_none h), Tagged, if_neg h]
  refine (returns_skip h).trans (Iff.trans ?_ hms)
  constructor
  · rintro ⟨r, hr, hret⟩
    obtain ⟨-, rfl⟩ := List.cons.inj hr
    exact hret
  · exact fun hret => ⟨_, rfl, hret⟩

theorem isIdent_bytes (hword : IsWord type) (hx : bytes x = type) : ∀ m ∈ x, DOH.isIdent m.1 = true := by
  intro m hm
  exact hword.2 _ (hx ▸ List.mem_map_of_mem hm)

/-- The keyword at the beginning of a text, as one of words. -/
theorem exists_keyword (h : type <+: bytes ms) : ∃ x y, ms = x ++ y ∧ bytes x = type := by
  obtain ⟨rest, hrest⟩ := h
  obtain ⟨x, y, rfl, hx, -⟩ := List.map_eq_append_iff.mp hrest.symm
  exact ⟨x, y, rfl, hx⟩

theorem tagsFrom_keyword (hword : IsWord type) (hx : bytes x = type) (h : tagAt type prev (x ++ y) = none) :
    tagsFrom type 0 0 prev (x ++ y) = x ++ tagsFrom type 0 0 true y := by
  have hident := isIdent_bytes hword hx
  cases x with
  | nil => exact absurd hx.symm hword.1
  | cons m x =>
      obtain ⟨hm, hrest⟩ := List.forall_mem_cons.mp hident
      rw [List.cons_append] at h ⊢
      rw [tagsFrom_none h, hm, tagsFrom_word hrest, List.cons_append]

theorem length_keyword (hx : bytes x = type) : x.length = type.length := by rw [← hx, length_bytes]

/-- What is asked of the text behind the bytes of a keyword. -/
theorem tagged_keyword (hword : IsWord type) (hx : bytes x = type) (z y : List Mark) :
    Tagged type (type.length + z.length - 1) (DOH.isIdent (x.headD blank).1) (x.tail ++ (z ++ y)) ↔
      Tagged type 0 (lastIdent true z) y := by
  have hident := isIdent_bytes hword hx
  have hlen := length_keyword hx
  cases x with
  | nil => exact absurd hx.symm hword.1
  | cons m x =>
      obtain ⟨hm, hrest⟩ := List.forall_mem_cons.mp hident
      have hskip : type.length + z.length - 1 = (x ++ z).length := by
        rw [List.length_cons] at hlen
        rw [List.length_append]
        omega
      have hlast : lastIdent true (x ++ z) = lastIdent true z := by
        rw [lastIdent, List.foldl_append]
        exact congrArg (lastIdent · z) (lastIdent_word hrest)
      rw [List.headD_cons, List.tail_cons, hm, hskip, ← List.append_assoc, tagged_skip, hlast]

theorem isIdent_delim (h : DOH.isIdent c = true) : c ≠ chr '{' ∧ c ≠ chr ';' := by
  constructor
  · rintro rfl
    cases h
  · rintro rfl
    cases h

theorem isSpace_delim (h : m.isSpace = true) : m.1 ≠ chr '{' ∧ m.1 ≠ chr ';' := by
  obtain ⟨h, -⟩ := Bool.and_eq_true_iff.mp h
  constructor
  · intro heq
    rw [heq] at h
    cases h
  · intro heq
    rw [heq] at h
    cases h

theorem drop_cut (hx : bytes x = type) (y : List Mark) : (x ++ y).drop type.length = y := by
  rw [← length_keyword hx]
  exact List.drop_left

namespace Tag

variable {t : Tag}

/-- What stands between the keyword and the brace. -/
def between (t : Tag) : List Mark := t.before ++ (t.name ++ t.behind)

theorem split (h : tagAt type prev ms = some t) :
    ∃ tail, ms = token type ++ (t.between ++ (chr '{', false) :: tail) := by
  obtain ⟨-, ⟨tail, hms⟩, -⟩ := tagAt_eq_some h
  refine ⟨tail, hms.trans ?_⟩
  rw [between, List.append_assoc, List.append_assoc]

theorem openBracket (h : tagAt type prev ms = some t) :
    openBracket (bytes (ms.drop type.length)) = some t.between.length := by
  obtain ⟨-, -, hbefore, hname, hbehind⟩ := tagAt_eq_some h
  obtain ⟨tail, rfl⟩ := split h
  have hdelim : ∀ m ∈ t.between, m.1 ≠ chr '{' ∧ m.1 ≠ chr ';' := by
    intro m hm
    rcases List.mem_append.mp hm with hm | hm
    · exact isSpace_delim (hbefore m hm)
    · rcases List.mem_append.mp hm with hm | hm
      · exact isIdent_delim (Bool.and_eq_true_iff.mp (hname m hm)).1
      · exact isSpace_delim (hbehind m hm)
  have hnone {c : Byte} (hc : ∀ m ∈ t.between, m.1 ≠ c) : c ∉ bytes t.between := by
    intro hmem
    obtain ⟨m, hm, rfl⟩ := List.mem_map.mp hmem
    exact hc m hm rfl
  have hopen := openBracket_append (hnone fun m hm => (hdelim m hm).1) (hnone fun m hm => (hdelim m hm).2) (bytes tail)
  rw [drop_cut (bytes_token type), bytes_append, bytes_cons, hopen, length_bytes]

end Tag

/-- A keyword without an opening brace. -/
theorem Settled.keep (hword : IsWord type) (hx : bytes x = type) (hopen : openBracket (bytes y) = none)
    (hy : Settled type true y) : Settled type prev (x ++ y) := by
  have hbytes : bytes (x ++ y) = type ++ bytes y := by rw [bytes_append, hx]
  have hat : tagAt type prev (x ++ y) = none := by
    cases hat : tagAt type prev (x ++ y) with
    | none => rfl
    | some t =>
        have hsome := Tag.openBracket hat
        rw [drop_cut hx, hopen] at hsome
        cases hsome
  have htagged : Tagged type 0 prev (x ++ y) ↔ Tagged type 0 true y := by
    have hskip := tagged_keyword hword hx [] y
    obtain ⟨m, x, rfl⟩ : ∃ m x', x = m :: x' := by
      cases x with
      | nil => exact absurd hx.symm hword.1
      | cons m x => exact ⟨m, x, rfl⟩
    have hdrop : (m :: (x ++ y)).drop type.length = y := drop_cut hx y
    have hprefix : type <+: bytes (m :: (x ++ y)) := by
      rw [← List.cons_append, hbytes]
      exact List.prefix_append _ _
    rw [List.cons_append, Tagged, if_pos hprefix, hdrop, hopen]
    exact hskip
  rw [Settled, htagged, hbytes, tagsFrom_keyword hword hx hat, bytes_append, hx]
  refine (returns_keep hopen).trans (Iff.trans ?_ hy)
  constructor
  · rintro ⟨r, hr, hret⟩
    rwa [List.append_cancel_left hr]
  · exact fun hret => ⟨_, rfl, hret⟩

/-- The text with the tag name blanked. -/
theorem tagsFrom_tag (hword : IsWord type) {t : Tag} {tail : List Mark}
    (hat : tagAt type prev (token type ++ (t.between ++ (chr '{', false) :: tail)) = some t) :
    tagsFrom type 0 0 prev (token type ++ (t.between ++ (chr '{', false) :: tail)) =
      token type ++ (t.before ++ (List.replicate t.name.length blank ++
        (t.behind ++ (chr '{', false) :: tagsFrom type 0 0 false tail))) := by
  have hident := isIdent_bytes hword (bytes_token type)
  have hlen := length_keyword (bytes_token type)
  have hbehind : ∀ m ∈ t.behind, DOH.isIdent m.1 = false := fun m hm =>
    isSpace_not_ident ((tagAt_eq_some hat).2.2.2.2 m hm)
  have hbrace : DOH.isIdent (chr '{', false).1 = false := rfl
  cases hx : token type with
  | nil => exact absurd (bytes_token type).symm (by rw [hx]; exact hword.1)
  | cons m x =>
      rw [hx] at hlen hat
      rw [List.cons_append] at hat
      have hcopy : type.length + t.before.length - 1 = (x ++ t.before).length := by
        rw [List.length_cons] at hlen
        rw [List.length_append]
        omega
      have hsplit : x ++ (t.between ++ (chr '{', false) :: tail) =
          (x ++ t.before) ++ (t.name ++ (t.behind ++ (chr '{', false) :: tail)) := by
        rw [Tag.between, List.append_assoc, List.append_assoc, List.append_assoc]
      rw [List.cons_append, tagsFrom, hat]
      dsimp only
      rw [hcopy, hsplit, tagsFrom_copy, tagsFrom_cut, tagsFrom_others hword _ hbehind hbrace, List.append_assoc,
        List.cons_append]

/-- What is asked of a keyword with an opening brace. -/
theorem tagged_cut {m : Mark} {tail : List Mark} (hword : IsWord type) (hx : bytes x = type) (hm : m.1 = chr '{')
    (hopen : openBracket (bytes (z ++ m :: tail)) = some z.length) :
    Tagged type 0 prev (x ++ (z ++ m :: tail)) ↔
      OnlyTag type prev (x ++ (z ++ m :: tail)) z.length ∧ Tagged type 0 false tail := by
  have hident : DOH.isIdent m.1 = false := by rw [hm]; rfl
  have hbytes : bytes (x ++ (z ++ m :: tail)) = type ++ bytes (z ++ m :: tail) := by rw [bytes_append, hx]
  have hdrop := drop_cut hx (z ++ m :: tail)
  have hskip := (tagged_keyword hword hx z (m :: tail)).trans (tagged_other hword _ hident tail)
  rw [← hskip]
  cases x with
  | nil => exact absurd hx.symm hword.1
  | cons d x =>
      have hprefix : type <+: bytes (d :: (x ++ (z ++ m :: tail))) := by
        rw [← List.cons_append, hbytes]
        exact List.prefix_append _ _
      rw [List.cons_append] at hdrop ⊢
      rw [Tagged, if_pos hprefix, hdrop, hopen]
      exact Iff.rfl

/-- A keyword with an opening brace. -/
theorem Settled.cut {m : Mark} {tail : List Mark} (hword : IsWord type) (hx : bytes x = type) (hm : m.1 = chr '{')
    (hopen : openBracket (bytes (z ++ m :: tail)) = some z.length) (htail : Settled type false tail) :
    Settled type prev (x ++ (z ++ m :: tail)) := by
  have hbytes : bytes (x ++ (z ++ m :: tail)) = type ++ bytes (z ++ m :: tail) := by rw [bytes_append, hx]
  have hident : DOH.isIdent m.1 = false := by rw [hm]; rfl
  have hdrop := drop_cut hx (z ++ m :: tail)
  have hbehind : (bytes (z ++ m :: tail)).drop z.length = m.1 :: bytes tail := by
    rw [bytes_append, ← length_bytes z, List.drop_left, bytes_cons]
  -- the loop and the tags agree up to the brace, and from there on
  have hloop {u : List Byte} {r : List Mark} (hu : u.length = z.length)
      (hr : bytes (tagsFrom type 0 0 prev (x ++ (z ++ m :: tail))) = type ++ (u ++ m.1 :: bytes r)) :
      Fuel.Returns (fun n => tagLoop type n (type ++ bytes (z ++ m :: tail))) (type ++ (u ++ m.1 :: bytes r)) ↔
        (∀ c ∈ u, c = chr ' ') ∧ Fuel.Returns (fun n => tagLoop type n (bytes tail)) (bytes r) := by
    have hbrace {r' : List Byte} : Fuel.Returns (fun n => tagLoop type n (m.1 :: bytes tail)) (m.1 :: r') ↔
        Fuel.Returns (fun n => tagLoop type n (bytes tail)) r' := by
      have hprefix : ¬type <+: m.1 :: bytes tail := not_prefix_bytes hword hident
      rw [returns_skip hprefix]
      constructor
      · rintro ⟨r'', hr'', hret⟩
        rwa [(List.cons.inj hr'').2]
      · exact fun hret => ⟨r', rfl, hret⟩
    rw [returns_cut hopen, hbehind, ← eq_replicate_iff hu]
    constructor
    · rintro ⟨r', hr', hret⟩
      rw [List.append_assoc] at hr'
      obtain ⟨hspaces, rfl⟩ := List.append_inj (List.append_cancel_left hr') (by rw [hu, List.length_replicate])
      exact ⟨hspaces, hbrace.mp hret⟩
    · rintro ⟨hspaces, hret⟩
      exact ⟨m.1 :: bytes r, by rw [hspaces, List.append_assoc], hbrace.mpr hret⟩
  rw [Settled, tagged_cut hword hx hm hopen, hbytes]
  cases hat : tagAt type prev (x ++ (z ++ m :: tail)) with
  | none =>
      have honly : OnlyTag type prev (x ++ (z ++ m :: tail)) z.length ↔ ∀ c ∈ bytes z, c = chr ' ' := by
        rw [OnlyTag, hat, hdrop, List.take_left]
      have htags := congrArg bytes (tagsFrom_keyword hword hx hat)
      rw [bytes_append, hx] at htags
      by_cases hspaces : ∀ c ∈ bytes z, c = chr ' '
      · have hz : ∀ d ∈ z, DOH.isIdent d.1 = false := by
          intro d hd
          rw [hspaces d.1 (List.mem_map_of_mem hd)]
          rfl
        rw [tagsFrom_others hword true hz hident, bytes_append, bytes_cons] at htags
        rw [honly, htags]
        exact (hloop (length_bytes z) htags).trans (and_congr_right fun _ => htail)
      · refine iff_of_false (fun hret => hspaces ?_) fun h => hspaces (honly.mp h.1)
        rw [htags] at hret
        obtain ⟨r', hr', -⟩ := (returns_cut hopen).mp hret
        rw [List.append_assoc] at hr'
        exact tagsFrom_spaces hword true (m :: tail) (List.append_cancel_left hr')
  | some t =>
      obtain ⟨tail', hms⟩ := Tag.split hat
      have hlen : z.length = t.between.length := by
        have hsome := Tag.openBracket hat
        rw [hdrop, hopen] at hsome
        exact Option.some.inj hsome
      have hkeyword : x.length = (token type).length := by rw [length_keyword hx, length_keyword (bytes_token type)]
      obtain ⟨rfl, hrest⟩ := List.append_inj hms hkeyword
      obtain ⟨rfl, hbrace⟩ := List.append_inj hrest hlen
      obtain ⟨rfl, rfl⟩ := List.cons.inj hbrace
      have htags := congrArg bytes (tagsFrom_tag hword hat)
      have hregion : bytes (token type ++ (t.before ++ (List.replicate t.name.length blank ++
            (t.behind ++ (chr '{', false) :: tagsFrom type 0 0 false tail)))) =
          type ++ ((bytes t.before ++ (List.replicate t.name.length (chr ' ') ++ bytes t.behind)) ++
            chr '{' :: bytes (tagsFrom type 0 0 false tail)) := by
        have hblank : bytes (List.replicate t.name.length blank) = List.replicate t.name.length (chr ' ') :=
          List.map_replicate
        simp only [bytes_append, bytes_cons, bytes_token, hblank, List.append_assoc]
      rw [hregion] at htags
      have honly : OnlyTag type prev (token type ++ (t.between ++ (chr '{', false) :: tail)) t.between.length ↔
          ∀ c ∈ bytes t.before ++ (List.replicate t.name.length (chr ' ') ++ bytes t.behind), c = chr ' ' := by
        rw [OnlyTag, hat]
        simp only [bytes_append, List.mem_append, List.mem_replicate]
        constructor
        · rintro h c (hc | ⟨-, rfl⟩ | hc)
          · exact h c (.inl hc)
          · rfl
          · exact h c (.inr hc)
        · rintro h c (hc | hc)
          · exact h c (.inl hc)
          · exact h c (.inr (.inr hc))
      have hu : (bytes t.before ++ (List.replicate t.name.length (chr ' ') ++ bytes t.behind)).length =
          t.between.length := by
        simp only [Tag.between, List.length_append, length_bytes, List.length_replicate]
      rw [honly, htags]
      exact (hloop hu htags).trans (and_congr_right fun _ => htail)

/-- The loop blanks the tag names if nothing else stands between a keyword's bytes and a brace. -/
theorem settled (hword : IsWord type) (prev : Bool) (ms : List Mark) : Settled type prev ms := by
  obtain ⟨n, hn⟩ : ∃ n, ms.length = n := ⟨_, rfl⟩
  induction n using Nat.strong_induction_on generalizing prev ms with
  | _ n ih =>
      cases ms with
      | nil =>
          refine iff_of_true ?_ trivial
          exact (returns_nil hword.1).mpr rfl
      | cons m ms =>
          by_cases hprefix : type <+: bytes (m :: ms)
          · obtain ⟨x, y, hms, hx⟩ := exists_keyword hprefix
            have hpos := List.length_pos_of_ne_nil hword.1
            have hlen : n = type.length + y.length := by rw [← hn, hms, List.length_append, length_keyword hx]
            rw [hms]
            cases hopen : openBracket (bytes y) with
            | none => exact .keep hword hx hopen (ih y.length (by omega) true y rfl)
            | some pos =>
                obtain ⟨u, v, huv, -, -, rfl⟩ := openBracket_eq_some hopen
                obtain ⟨z, tail, rfl, rfl, htail⟩ := List.map_eq_append_iff.mp huv
                obtain ⟨d, tail, rfl, hd, rfl⟩ := List.map_eq_cons_iff.mp htail
                rw [List.length_append, List.length_cons] at hlen
                have hz : openBracket (bytes (z ++ d :: tail)) = some z.length := by
                  rw [hopen, List.length_map]
                exact .cut hword hx hd hz (ih tail.length (by omega) false tail rfl)
          · exact .skip hprefix (ih ms.length (by rw [← hn]; exact Nat.lt_succ_self _) _ ms rfl)

end Swig.CParse.Nested
