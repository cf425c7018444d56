import Swig.Lib.Watched
import Swig.Runtime.TypeQuery
import Mathlib.Data.Int.Notation
import Mathlib.Data.List.TakeWhile
import Mathlib.Algebra.Group.Nat.Defs

/-!
Equivalence of human readable type names: `SWIG_TypeNameComp`, `SWIG_TypeEquiv`
and `SWIG_TypeQueryModule`.

A pointer into a string is the memory from it on, together with its distance to
the end pointer it is compared with. A read outside the memory is a fault; a read
at or past the end pointer is the watched event.
-/

namespace Swig.Runtime

open Watched

structure Cursor where
  mem : List Byte
  left : ℤ

def blank : Byte := chr ' '

/-- `++f`. -/
def Cursor.next (f : Cursor) : Cursor := { mem := f.mem.tail, left := f.left - 1 }

/-- `while ((*f == ' ') && (f != l)) ++f;`, with the byte read last. -/
def skipBlanks : List Byte → ℤ → Watched (Byte × Cursor)
  | [], _ => fault
  | c :: m, left => do
      let c ← noting c (left ≤ 0)
      if c = blank ∧ left ≠ 0 then skipBlanks m (left - 1) else return (c, { mem := c :: m, left })

/-- The loop of `SWIG_TypeNameComp`. -/
def nameCompLoop : ℕ → Cursor → Cursor → Watched ℤ
  | 0, _, _ => fault
  | n + 1, f₁, f₂ =>
      if f₁.left ≠ 0 ∧ f₂.left ≠ 0 then do
        let (c₁, f₁) ← skipBlanks f₁.mem f₁.left
        let (c₂, f₂) ← skipBlanks f₂.mem f₂.left
        if c₁ ≠ c₂ then return (if c₁.toInt8 > c₂.toInt8 then 1 else -1)
        else nameCompLoop n f₁.next f₂.next
      else return ((f₁.left - f₂.left).bmod (2 ^ 32))

/-- `SWIG_TypeNameComp`. Every round goes on by a byte, so there are no more
rounds than bytes in the memory. -/
def typeNameComp (f₁ f₂ : Cursor) : Watched ℤ := nameCompLoop (f₁.mem.length + 1) f₁ f₂

/-- The number of bytes in front of the first one that passes the test. -/
def distance (p : Byte → Bool) : List Byte → Watched ℕ
  | [] => fault
  | c :: m => if p c then return 0 else do return (← distance p m) + 1

/-- The loop of `SWIG_TypeEquiv` from `ne` on. -/
def typeEquivLoop (tb : Cursor) : ℕ → List Byte → Watched Bool
  | 0, _ => fault
  | _ + 1, [] => fault
  | n + 1, c :: m =>
      if c = 0 then return false
      else do
        let k ← distance (fun c => c == 0 || c == chr '|') (c :: m)
        if (← typeNameComp { mem := c :: m, left := k } tb) = 0 then return true
        else
          match (c :: m).drop k with
          | [] => fault
          | d :: ne => typeEquivLoop tb n (if d ≠ 0 then ne else d :: ne)

/-- `SWIG_TypeEquiv`. -/
def typeEquiv (nb tb : List Byte) : Watched Bool := do
  let te ← distance (· == 0) tb
  typeEquivLoop { mem := tb, left := te } (nb.length + 1) nb

/-! ### Names without their blanks -/

def blankless (a : List Byte) : List Byte := a.filter (· ≠ blank)

/-- What is left of a name behind `n` characters that are no blanks. -/
def behind : ℕ → List Byte → List Byte
  | 0, a => a
  | n + 1, a => behind n (a.dropWhile (· = blank)).tail

/-- One of the names, without the blanks, begins with the other one. -/
def Aligned (a t : List Byte) : Prop := blankless a <+: blankless t ∨ blankless t <+: blankless a

/-- What is left of `a` behind the characters it has in common with an aligned `t`. -/
def leftOf (a t : List Byte) : List Byte := behind (min (blankless a).length (blankless t).length) a

/-- Both names end in blanks where the shorter one ends. -/
def Overruns (a t : List Byte) : Prop := Aligned a t ∧ leftOf a t ≠ [] ∧ leftOf t a ≠ []

/-- As many bytes are left of both names, counted as an `int`. -/
def Meets (a t : List Byte) : Prop :=
  Aligned a t ∧ (((leftOf a t).length : ℤ) - (leftOf t a).length).bmod (2 ^ 32) = 0

instance (a t : List Byte) : Decidable (Aligned a t) := inferInstanceAs (Decidable (_ ∨ _))

instance (a t : List Byte) : Decidable (Overruns a t) := inferInstanceAs (Decidable (_ ∧ _))

instance (a t : List Byte) : Decidable (Meets a t) := inferInstanceAs (Decidable (_ ∧ _))

theorem blankless_cons {a p : List Byte} {c : Byte} (h : blankless a = c :: p) :
    ∃ r, a.dropWhile (· = blank) = c :: r ∧ blankless r = p := by
  induction a with
  | nil => cases h
  | cons d a ih =>
      by_cases hd : d = blank
      · rw [blankless, List.filter_cons_of_neg (by simpa using hd)] at h
        rw [List.dropWhile_cons_of_pos (by simpa using hd)]
        exact ih h
      · rw [blankless, List.filter_cons_of_pos (by simpa using hd)] at h
        rw [List.dropWhile_cons_of_neg (by simpa using hd)]
        obtain ⟨rfl, htail⟩ := List.cons.inj h
        exact ⟨a, rfl, htail⟩

theorem behind_cons {a r : List Byte} {c : Byte} (h : a.dropWhile (· = blank) = c :: r) (n : ℕ) :
    behind (n + 1) a = behind n r := by
  rw [behind, h, List.tail_cons]

theorem aligned_cons {a t r s : List Byte} {c d : Byte} (ha : blankless a = c :: blankless r)
    (ht : blankless t = d :: blankless s) : Aligned a t ↔ c = d ∧ Aligned r s := by
  rw [Aligned, ha, ht, List.cons_prefix_cons, List.cons_prefix_cons, Aligned, eq_comm (a := d), and_or_left]

theorem leftOf_cons {a t r s : List Byte} {c d : Byte} (hr : a.dropWhile (· = blank) = c :: r)
    (ha : blankless a = c :: blankless r) (ht : blankless t = d :: blankless s) :
    leftOf a t = leftOf r s := by
  rw [leftOf, ha, ht, List.length_cons, List.length_cons, Nat.add_min_add_right, behind_cons hr, leftOf]

theorem leftOf_nil {a t : List Byte} (h : blankless a = [] ∨ blankless t = []) : leftOf a t = a := by
  have hmin : min (blankless a).length (blankless t).length = 0 := by
    rcases h with h | h <;> rw [h, List.length_nil]
    · exact Nat.zero_min _
    · exact Nat.min_zero _
  rw [leftOf, hmin, behind]

theorem aligned_nil {a t : List Byte} (h : blankless a = [] ∨ blankless t = []) : Aligned a t := by
  rcases h with h | h
  · exact .inl (h ▸ List.nil_prefix)
  · exact .inr (h ▸ List.nil_prefix)

/-! ### `SWIG_TypeNameComp` -/

theorem skipBlanks_cons {a r : List Byte} {c : Byte} (m : List Byte)
    (h : a.dropWhile (· = blank) = c :: r) :
    Clean (skipBlanks (a ++ m) a.length) (c, { mem := c :: r ++ m, left := (r.length : ℤ) + 1 }) := by
  induction a with
  | nil => cases h
  | cons d a ih =>
      rw [List.cons_append, skipBlanks, List.length_cons]
      rw [Clean.bind_iff (clean_noting.mpr ⟨rfl, by simp⟩)]
      by_cases hd : d = blank
      · rw [List.dropWhile_cons_of_pos (by simpa using hd)] at h
        rw [if_pos ⟨hd, by omega⟩]
        have hlen : ((a.length + 1 : ℕ) : ℤ) - 1 = a.length := by omega
        rw [hlen]
        exact ih h
      · rw [List.dropWhile_cons_of_neg (by simpa using hd)] at h
        obtain ⟨rfl, rfl⟩ := List.cons.inj h
        rw [if_neg fun h => hd h.1, clean_pure]
        rfl

/-- Where only blanks are left, the byte at the end pointer is read. -/
theorem skipBlanks_blanks {a : List Byte} (m : List Byte) (h : blankless a = []) (r : Byte × Cursor) :
    ¬ Clean (skipBlanks (a ++ m) a.length) r := by
  induction a with
  | nil =>
      cases m with
      | nil => exact not_clean_fault
      | cons d m =>
          rw [List.nil_append, skipBlanks, clean_bind]
          rintro ⟨c, hc, -⟩
          cases (clean_noting.mp hc).2
  | cons d a ih =>
      have hd : d = blank := by
        by_contra hd
        rw [blankless, List.filter_cons_of_pos (by simpa using hd)] at h
        cases h
      rw [blankless, List.filter_cons_of_neg (by simpa using hd)] at h
      rw [List.cons_append, skipBlanks, List.length_cons]
      rw [Clean.bind_iff (clean_noting.mpr ⟨rfl, by simp⟩), if_pos ⟨hd, by omega⟩]
      have hlen : ((a.length + 1 : ℕ) : ℤ) - 1 = a.length := by omega
      rw [hlen]
      exact ih h

theorem length_pos_of_blankless {a p : List Byte} {c : Byte} (h : blankless a = c :: p) : a ≠ [] := by
  rintro rfl
  cases h

theorem length_ne_zero {a : List Byte} (h : a ≠ []) : (a.length : ℤ) ≠ 0 :=
  Int.natCast_ne_zero.mpr fun hlen => h (List.length_eq_zero_iff.mp hlen)

/-- The loop at the end of one of the names. -/
theorem nameCompLoop_end {n : ℕ} {a t : List Byte} (m₁ m₂ : List Byte) (h : a = [] ∨ t = []) :
    nameCompLoop (n + 1) { mem := a ++ m₁, left := a.length } { mem := t ++ m₂, left := t.length } =
      pure (((a.length : ℤ) - t.length).bmod (2 ^ 32)) := by
  rw [nameCompLoop, if_neg]
  rintro ⟨ha, ht⟩
  rcases h with rfl | rfl
  · exact ha rfl
  · exact ht rfl

/-- A round that finds a character in both names. -/
theorem nameCompLoop_cons {n : ℕ} {a t r s : List Byte} {c d : Byte} (m₁ m₂ : List Byte) (ha : a ≠ []) (ht : t ≠ [])
    (hr : a.dropWhile (· = blank) = c :: r) (hs : t.dropWhile (· = blank) = d :: s) {v : ℤ} :
    Clean (nameCompLoop (n + 1) { mem := a ++ m₁, left := a.length } { mem := t ++ m₂, left := t.length }) v ↔
      Clean (if c ≠ d then pure (if c.toInt8 > d.toInt8 then 1 else -1)
        else nameCompLoop n { mem := r ++ m₁, left := r.length } { mem := s ++ m₂, left := s.length }) v := by
  rw [nameCompLoop, if_pos ⟨length_ne_zero ha, length_ne_zero ht⟩, (skipBlanks_cons m₁ hr).bind_iff]
  dsimp only
  rw [(skipBlanks_cons m₂ hs).bind_iff]
  dsimp only
  simp only [Cursor.next, List.cons_append, List.tail_cons, Int.add_sub_cancel]

/-- The comparison once a name has only blanks left. -/
theorem nameCompLoop_nil {a t : List Byte} (n : ℕ) (m₁ m₂ : List Byte) (h : blankless a = [] ∨ blankless t = []) :
    (¬ Overruns a t → ∃ v, Clean (nameCompLoop (n + 1) { mem := a ++ m₁, left := a.length }
      { mem := t ++ m₂, left := t.length }) v ∧ (v = 0 ↔ Meets a t)) ∧
    (Overruns a t → ∀ v, ¬ Clean (nameCompLoop (n + 1) { mem := a ++ m₁, left := a.length }
      { mem := t ++ m₂, left := t.length }) v) := by
  have haligned := aligned_nil h
  have hleft := leftOf_nil h
  have hleft' := leftOf_nil h.symm
  by_cases hend : a = [] ∨ t = []
  · rw [nameCompLoop_end m₁ m₂ hend, Overruns, Meets, hleft, hleft']
    exact ⟨fun _ => ⟨_, clean_pure.mpr rfl, (and_iff_right haligned).symm⟩,
      fun hover => (hend.elim hover.2.1 hover.2.2).elim⟩
  · obtain ⟨ha, ht⟩ := not_or.mp hend
    refine ⟨fun hover => absurd ⟨haligned, by rwa [hleft], by rwa [hleft']⟩ hover, fun _ v hv => ?_⟩
    rw [nameCompLoop, if_pos ⟨length_ne_zero ha, length_ne_zero ht⟩, clean_bind] at hv
    obtain ⟨⟨c₁, f₁⟩, hfirst, hv⟩ := hv
    dsimp only at hv
    obtain ⟨⟨c₂, f₂⟩, hsecond, -⟩ := clean_bind.mp hv
    rcases h with h | h
    · exact skipBlanks_blanks m₁ h _ hfirst
    · exact skipBlanks_blanks m₂ h _ hsecond

/-- A comparison reads in front of the end pointers unless both names end in blanks
where the shorter one ends. -/
theorem nameCompLoop_spec {n : ℕ} {a t : List Byte} (m₁ m₂ : List Byte) (hn : (blankless a).length < n) :
    (¬ Overruns a t → ∃ v, Clean (nameCompLoop n { mem := a ++ m₁, left := a.length }
      { mem := t ++ m₂, left := t.length }) v ∧ (v = 0 ↔ Meets a t)) ∧
    (Overruns a t → ∀ v, ¬ Clean (nameCompLoop n { mem := a ++ m₁, left := a.length }
      { mem := t ++ m₂, left := t.length }) v) := by
  obtain ⟨n, rfl⟩ : ∃ k, n = k + 1 := ⟨n - 1, by omega⟩
  generalize hp : blankless a = p at hn
  induction p generalizing n a t with
  | nil => exact nameCompLoop_nil n m₁ m₂ (.inl hp)
  | cons c p ih =>
      obtain ⟨r, hr, hrp⟩ := blankless_cons hp
      cases hq : blankless t with
      | nil => exact nameCompLoop_nil n m₁ m₂ (.inr hq)
      | cons d q =>
          obtain ⟨s, hs, hsq⟩ := blankless_cons hq
          obtain ⟨n, rfl⟩ : ∃ k, n = k + 1 := ⟨n - 1, by rw [List.length_cons] at hn; omega⟩
          have hround (v : ℤ) := nameCompLoop_cons (n := n + 1) m₁ m₂ (length_pos_of_blankless hp)
            (length_pos_of_blankless hq) hr hs (v := v)
          subst hrp hsq
          have haligned := aligned_cons hp hq
          by_cases hcd : c = d
          · obtain ⟨hclean, hover⟩ := ih (t := s) n rfl (by rw [List.length_cons] at hn; omega)
            have hleft := leftOf_cons hr hp hq
            have hleft' := leftOf_cons hs hq hp
            simp only [hround, Overruns, Meets, haligned, hleft, hleft', hcd, true_and, ne_eq, not_true_eq_false,
              if_false]
            exact ⟨hclean, hover⟩
          · have hne : ¬ Aligned a t := fun h => hcd (haligned.mp h).1
            simp only [hround, if_pos hcd, clean_pure, Overruns, Meets, hne, false_and]
            refine ⟨fun _ => ⟨_, rfl, ?_⟩, nofun⟩
            split <;> simp

theorem typeNameComp_clean {a t : List Byte} (m₁ m₂ : List Byte) (h : ¬ Overruns a t) :
    ∃ v, Clean (typeNameComp { mem := a ++ m₁, left := a.length } { mem := t ++ m₂, left := t.length }) v ∧
      (v = 0 ↔ Meets a t) := by
  refine (nameCompLoop_spec m₁ m₂ ?_).1 h
  have hfilter := List.length_filter_le (· ≠ blank) a
  rw [← blankless] at hfilter
  simp only [List.length_append]
  omega

theorem typeNameComp_overruns {a t : List Byte} (m₁ m₂ : List Byte) (h : Overruns a t) (v : ℤ) :
    ¬ Clean (typeNameComp { mem := a ++ m₁, left := a.length } { mem := t ++ m₂, left := t.length }) v := by
  refine (nameCompLoop_spec m₁ m₂ ?_).2 h v
  have hfilter := List.length_filter_le (· ≠ blank) a
  rw [← blankless] at hfilter
  simp only [List.length_append]
  omega

/-! ### `SWIG_TypeEquiv` -/

/-- The names of a list that stand between the separators. -/
def alternatives (nb : List Byte) : List (List Byte) := nb.splitOn (chr '|')

/-- The alternatives `SWIG_TypeEquiv` gets to: not an empty one at the end. -/
def visited (nb : List Byte) : List (List Byte) :=
  if (alternatives nb).getLast? = some [] then (alternatives nb).dropLast else alternatives nb

/-- The elements of a list up to the first one with a property. -/
def upTo {α : Type*} (p : α → Prop) [DecidablePred p] : List α → List α
  | [] => []
  | x :: xs => x :: if p x then [] else upTo p xs

theorem forall_upTo_cons {α : Type*} {p q : α → Prop} [DecidablePred p] {x : α} {xs : List α} :
    (∀ y ∈ upTo p (x :: xs), q y) ↔ q x ∧ (¬ p x → ∀ y ∈ upTo p xs, q y) := by
  rw [upTo, List.forall_mem_cons]
  by_cases hx : p x
  · simp [hx]
  · simp [hx]

theorem mem_of_mem_upTo {α : Type*} {p : α → Prop} [DecidablePred p] {x : α} {xs : List α} (h : x ∈ upTo p xs) :
    x ∈ xs := by
  induction xs with
  | nil => cases h
  | cons y ys ih =>
      rcases List.mem_cons.mp h with rfl | h
      · exact List.mem_cons_self
      · split at h
        · cases h
        · exact List.mem_cons_of_mem _ (ih h)

theorem visited_nil : visited [] = [] := by
  rw [visited, alternatives, List.splitOn_nil]
  rfl

theorem alternatives_single {a : List Byte} (ha : chr '|' ∉ a) : alternatives a = [a] :=
  List.splitOn_eq_singleton ha

theorem alternatives_append {a : List Byte} (ha : chr '|' ∉ a) (w : List Byte) :
    alternatives (a ++ chr '|' :: w) = a :: alternatives w := by
  rw [alternatives, List.splitOn_append_cons_of_beq a w (beq_self_eq_true _), List.splitOn_eq_singleton ha]
  rfl

theorem visited_single {a : List Byte} (ha : chr '|' ∉ a) (hne : a ≠ []) : visited a = [a] := by
  rw [visited, alternatives_single ha, if_neg]
  simpa using hne

theorem visited_append {a : List Byte} (ha : chr '|' ∉ a) (w : List Byte) :
    visited (a ++ chr '|' :: w) = a :: visited w := by
  have hne : alternatives w ≠ [] := List.splitOn_ne_nil (chr '|') w
  rw [visited, alternatives_append ha, visited, List.getLast?_cons_of_ne_nil hne, List.dropLast_cons_of_ne_nil hne]
  by_cases hlast : (alternatives w).getLast? = some []
  · rw [if_pos hlast, if_pos hlast]
  · rw [if_neg hlast, if_neg hlast]

theorem distance_append {p : Byte → Bool} {a : List Byte} (ha : ∀ c ∈ a, p c = false) {c : Byte} (hc : p c = true)
    (m : List Byte) : Clean (distance p (a ++ c :: m)) a.length := by
  induction a with
  | nil =>
      rw [List.nil_append, distance, if_pos hc]
      rfl
  | cons d a ih =>
      obtain ⟨hd, ha⟩ := List.forall_mem_cons.mp ha
      rw [List.cons_append, distance, if_neg (by simp [hd]), (ih ha).bind_iff, clean_pure]
      rfl

/-- The text up to the first separator, and what the loop goes on with. -/
theorem exists_alternative {u : List Byte} (hu : u ≠ []) : ∃ a w, chr '|' ∉ a ∧
    (u = a ∧ w = [] ∨ u = a ++ chr '|' :: w) ∧ visited u = a :: visited w := by
  have hsplit := List.takeWhile_append_dropWhile (p := (· != chr '|')) (l := u)
  have ha : chr '|' ∉ u.takeWhile (· != chr '|') := fun hmem => by
    have := List.mem_takeWhile_imp hmem
    simp at this
  cases hrest : u.dropWhile (· != chr '|') with
  | nil =>
      rw [hrest, List.append_nil] at hsplit
      rw [hsplit] at ha
      refine ⟨u, [], ha, .inl ⟨rfl, rfl⟩, ?_⟩
      rw [visited_single ha hu, visited_nil]
  | cons d w =>
      have hd := List.head?_dropWhile_not (· != chr '|') u
      rw [hrest] at hd hsplit
      obtain rfl : d = chr '|' := by simpa using hd
      refine ⟨u.takeWhile (· != chr '|'), w, ha, .inr hsplit.symm, ?_⟩
      rw [← visited_append ha, hsplit]

/-- A round of the loop. -/
theorem typeEquivLoop_round {n : ℕ} {tb : Cursor} {a ne : List Byte} {e : Byte} (hfirst : (a ++ [e]).head? ≠ some 0)
    (ha : ∀ c ∈ a, c ≠ 0) (hbar : chr '|' ∉ a) (he : e = 0 ∨ e = chr '|') (r : Bool) :
    Clean (typeEquivLoop tb (n + 1) (a ++ e :: ne)) r ↔
      ∃ v, Clean (typeNameComp { mem := a ++ e :: ne, left := a.length } tb) v ∧
        Clean (if v = 0 then pure true else typeEquivLoop tb n (if e ≠ 0 then ne else e :: ne)) r := by
  have hdistance : Clean (distance (fun c => c == 0 || c == chr '|') (a ++ e :: ne)) a.length := by
    apply distance_append
    · intro c hc
      have hne : c ≠ chr '|' := fun heq => hbar (heq ▸ hc)
      simp [ha c hc, hne]
    · simpa using he
  have hdrop : (a ++ e :: ne).drop a.length = e :: ne := List.drop_left
  obtain ⟨c, m, hmem⟩ : ∃ c m, a ++ e :: ne = c :: m := by
    cases a with
    | nil => exact ⟨e, ne, rfl⟩
    | cons c a => exact ⟨c, a ++ e :: ne, rfl⟩
  have hc : c ≠ 0 := by
    rintro rfl
    cases a with
    | nil => exact hfirst (congrArg some (List.cons.inj hmem).1)
    | cons d a => exact hfirst (congrArg some (List.cons.inj hmem).1)
  rw [hmem] at hdistance hdrop ⊢
  rw [typeEquivLoop, if_neg hc, hdistance.bind_iff, hdrop, clean_bind]

/-- The loop from the text `u` on. -/
theorem typeEquivLoop_clean_iff {n : ℕ} {u t : List Byte} (m₁ m₂ : List Byte) (hu : ∀ c ∈ u, c ≠ 0) (hn : u.length < n)
    (r : Bool) :
    Clean (typeEquivLoop { mem := t ++ m₂, left := t.length } n (u ++ 0 :: m₁)) r ↔
      (∀ a ∈ upTo (Meets · t) (visited u), ¬ Overruns a t) ∧ r = decide (∃ a ∈ visited u, Meets a t) := by
  induction n generalizing u with
  | zero => omega
  | succ n ih =>
      by_cases hempty : u = []
      · subst hempty
        rw [List.nil_append, typeEquivLoop, if_pos rfl, clean_pure, visited_nil]
        simp [upTo, eq_comm]
      · obtain ⟨a, w, ha, hcase, hvisited⟩ := exists_alternative hempty
        have hsub : (∀ c ∈ a, c ≠ 0) ∧ (∀ c ∈ w, c ≠ 0) ∧ w.length < n := by
          rcases hcase with ⟨rfl, rfl⟩ | rfl
          · exact ⟨hu, nofun, Nat.lt_of_lt_of_le (List.length_pos_of_ne_nil hempty) (Nat.le_of_lt_succ hn)⟩
          · refine ⟨fun c hc => hu c (List.mem_append_left _ hc),
              fun c hc => hu c (List.mem_append_right _ (List.mem_cons_of_mem _ hc)), ?_⟩
            simp only [List.length_append, List.length_cons] at hn
            omega
        obtain ⟨hanul, hwnul, hw⟩ := hsub
        obtain ⟨m, hround⟩ : ∃ m, Clean (typeEquivLoop { mem := t ++ m₂, left := t.length } (n + 1) (u ++ 0 :: m₁)) r ↔
            ∃ v, Clean (typeNameComp { mem := a ++ m, left := a.length } { mem := t ++ m₂, left := t.length }) v ∧
              Clean (if v = 0 then pure true
                else typeEquivLoop { mem := t ++ m₂, left := t.length } n (w ++ 0 :: m₁)) r := by
          have hhead (e : Byte) (he : e ≠ 0 ∨ a ≠ []) : (a ++ [e]).head? ≠ some 0 := by
            cases a with
            | nil => simpa using he
            | cons c a => simpa using hanul c List.mem_cons_self
          rcases hcase with ⟨rfl, rfl⟩ | rfl
          · exact ⟨0 :: m₁, typeEquivLoop_round (hhead 0 (.inr hempty)) hanul ha (.inl rfl) r⟩
          · refine ⟨chr '|' :: (w ++ 0 :: m₁), ?_⟩
            rw [List.append_assoc]
            exact typeEquivLoop_round (hhead _ (.inl (by decide))) hanul ha (.inr rfl) r
        rw [hvisited, forall_upTo_cons, hround]
        by_cases hover : Overruns a t
        · constructor
          · rintro ⟨v, hv, -⟩
            exact absurd hv (typeNameComp_overruns m m₂ hover v)
          · exact fun h => absurd hover h.1.1
        · obtain ⟨v, hv, hzero⟩ := typeNameComp_clean m m₂ hover
          have hround' : (∃ v', Clean (typeNameComp { mem := a ++ m, left := a.length }
                { mem := t ++ m₂, left := t.length }) v' ∧
              Clean (if v' = 0 then pure true
                else typeEquivLoop { mem := t ++ m₂, left := t.length } n (w ++ 0 :: m₁)) r) ↔
              Clean (if v = 0 then pure true
                else typeEquivLoop { mem := t ++ m₂, left := t.length } n (w ++ 0 :: m₁)) r :=
            ⟨fun ⟨v', hv', hr⟩ => hv.unique hv' ▸ hr, fun hr => ⟨v, hv, hr⟩⟩
          rw [hround', and_iff_right hover]
          by_cases hmeets : Meets a t
          · rw [if_pos (hzero.mpr hmeets), clean_pure]
            simp [hmeets, eq_comm]
          · rw [if_neg fun h => hmeets (hzero.mp h), ih hwnul hw]
            simp [hmeets]

/-- `SWIG_TypeEquiv` on two strings in memory. -/
theorem typeEquiv_clean_iff {nb tb : List Byte} (hnb : ∀ c ∈ nb, c ≠ 0) (htb : ∀ c ∈ tb, c ≠ 0) (m₁ m₂ : List Byte)
    (r : Bool) :
    Clean (typeEquiv (nb ++ 0 :: m₁) (tb ++ 0 :: m₂)) r ↔
      (∀ a ∈ upTo (Meets · tb) (visited nb), ¬ Overruns a tb) ∧ r = decide (∃ a ∈ visited nb, Meets a tb) := by
  have hte : Clean (distance (· == 0) (tb ++ 0 :: m₂)) tb.length :=
    distance_append (fun c hc => by simpa using htb c hc) rfl m₂
  rw [typeEquiv, hte.bind_iff]
  refine typeEquivLoop_clean_iff m₁ (0 :: m₂) hnb ?_ r
  rw [List.length_append]
  omega

/-- Some alternative is the name, blanks aside. -/
def Equivalent (nb tb : List Byte) : Prop := ∃ a ∈ alternatives nb, blankless a = blankless tb

instance (nb tb : List Byte) : Decidable (Equivalent nb tb) := inferInstanceAs (Decidable (∃ a ∈ _, _))

/-- No comparison made overruns, and an alternative meets the name where one is
equivalent to it. -/
structure Answers (nb tb : List Byte) : Prop where
  inside : ∀ a ∈ upTo (Meets · tb) (visited nb), ¬ Overruns a tb
  meets : (∃ a ∈ visited nb, Meets a tb) ↔ Equivalent nb tb

theorem typeEquiv_iff {nb tb : List Byte} (hnb : ∀ c ∈ nb, c ≠ 0) (htb : ∀ c ∈ tb, c ≠ 0) (m₁ m₂ : List Byte) :
    Clean (typeEquiv (nb ++ 0 :: m₁) (tb ++ 0 :: m₂)) (decide (Equivalent nb tb)) ↔ Answers nb tb := by
  rw [typeEquiv_clean_iff hnb htb, decide_eq_decide]
  exact ⟨fun ⟨h, h'⟩ => ⟨h, h'.symm⟩, fun h => ⟨h.inside, h.meets.symm⟩⟩

/-! ### Names shorter than an `int` can count -/

theorem getLast?_of_dropWhile {a r : List Byte} {c : Byte} (h : a.dropWhile (· = blank) = c :: r) :
    a.getLast? = some blank ↔ r.getLast? = some blank := by
  have hsplit := List.takeWhile_append_dropWhile (p := (· = blank)) (l := a)
  have hc := List.head?_dropWhile_not (· = blank) a
  rw [h] at hsplit hc
  rw [← hsplit, List.getLast?_append_of_ne_nil _ (List.cons_ne_nil c r)]
  cases r with
  | nil => simpa using hc
  | cons d r => rw [List.getLast?_cons_cons]

/-- Nothing is left of a name behind its last character unless it ends in a blank. -/
theorem behind_eq_nil_iff {n : ℕ} {a : List Byte} (hn : n ≤ (blankless a).length) :
    behind n a = [] ↔ (blankless a).length = n ∧ a.getLast? ≠ some blank := by
  induction n generalizing a with
  | zero =>
      rw [behind]
      constructor
      · rintro rfl
        exact ⟨rfl, nofun⟩
      · rintro ⟨hlen, hlast⟩
        by_contra hne
        have hmem := List.getLast_mem hne
        have hblank : a.getLast hne = blank := by
          by_contra hc
          have : a.getLast hne ∈ blankless a := List.mem_filter.mpr ⟨hmem, by simpa using hc⟩
          rw [List.length_eq_zero_iff.mp hlen] at this
          cases this
        exact hlast (by rw [List.getLast?_eq_some_getLast hne, hblank])
  | succ n ih =>
      obtain ⟨c, p, hp⟩ : ∃ c p, blankless a = c :: p := List.exists_cons_of_length_pos (by omega)
      obtain ⟨r, hr, rfl⟩ := blankless_cons hp
      rw [hp, List.length_cons] at hn ⊢
      rw [behind_cons hr, ih (by omega), ne_eq, ne_eq, getLast?_of_dropWhile hr, Nat.add_right_cancel_iff]

theorem leftOf_eq_nil_iff {a t : List Byte} :
    leftOf a t = [] ↔ (blankless a).length ≤ (blankless t).length ∧ a.getLast? ≠ some blank := by
  rw [leftOf, behind_eq_nil_iff (Nat.min_le_left _ _)]
  exact and_congr_left fun _ => by omega

theorem length_behind_le (n : ℕ) (a : List Byte) : (behind n a).length ≤ a.length := by
  induction n generalizing a with
  | zero => exact Nat.le_refl _
  | succ n ih =>
      calc
        (behind (n + 1) a).length ≤ (a.dropWhile (· = blank)).tail.length := ih _
        _ ≤ (a.dropWhile (· = blank)).length := by rw [List.length_tail]; omega
        _ ≤ a.length := (List.dropWhile_sublist _).length_le

/-- Two names that do not end in blanks are compared as the documentation says. -/
theorem meets_iff_of_trimmed {a t : List Byte} (ha : a.getLast? ≠ some blank) (ht : t.getLast? ≠ some blank)
    (hashort : a.length < 2 ^ 32) (htshort : t.length < 2 ^ 32) :
    ¬ Overruns a t ∧ (Meets a t ↔ blankless a = blankless t) := by
  have hleft : leftOf a t = [] ↔ (blankless a).length ≤ (blankless t).length := by
    rw [leftOf_eq_nil_iff, and_iff_left ha]
  have hleft' : leftOf t a = [] ↔ (blankless t).length ≤ (blankless a).length := by
    rw [leftOf_eq_nil_iff, and_iff_left ht]
  refine ⟨fun h => ?_, fun h => ?_, fun h => ?_⟩
  · rcases Nat.le_total (blankless a).length (blankless t).length with hle | hle
    · exact h.2.1 (hleft.mpr hle)
    · exact h.2.2 (hleft'.mpr hle)
  · have hbound := length_behind_le (min (blankless a).length (blankless t).length) a
    have hbound' := length_behind_le (min (blankless t).length (blankless a).length) t
    rw [← leftOf] at hbound hbound'
    -- one of them is empty, so the other one is shorter than the modulus
    have hzero : (leftOf a t).length = (leftOf t a).length := by
      have hmod := Int.dvd_of_bmod_eq_zero h.2
      rcases Nat.le_total (blankless a).length (blankless t).length with hle | hle
      · rw [hleft.mpr hle, List.length_nil] at hmod ⊢
        omega
      · rw [hleft'.mpr hle, List.length_nil] at hmod ⊢
        omega
    have hlen : (blankless a).length = (blankless t).length := by
      rcases Nat.le_total (blankless a).length (blankless t).length with hle | hle
      · rw [hleft.mpr hle, List.length_nil, eq_comm, List.length_eq_zero_iff] at hzero
        exact Nat.le_antisymm hle (hleft'.mp hzero)
      · rw [hleft'.mpr hle, List.length_nil, List.length_eq_zero_iff] at hzero
        exact Nat.le_antisymm (hleft.mp hzero) hle
    exact h.1.elim (fun hpre => hpre.eq_of_length hlen) fun hpre => (hpre.eq_of_length hlen.symm).symm
  · refine ⟨.inl (h ▸ List.prefix_rfl), ?_⟩
    rw [hleft.mpr (by rw [h]), hleft'.mpr (by rw [h])]
    rfl

/-- The answer is right where no name ends in blanks and no empty alternative ends
the list. -/
theorem answers_of_trimmed {nb tb : List Byte} (hnb : ∀ a ∈ alternatives nb, a.getLast? ≠ some blank ∧ a.length < 2 ^ 32)
    (htb : tb.getLast? ≠ some blank) (hshort : tb.length < 2 ^ 32) (hlast : (alternatives nb).getLast? ≠ some []) :
    Answers nb tb := by
  have hvisited : visited nb = alternatives nb := if_neg hlast
  have hpair (a : List Byte) (ha : a ∈ alternatives nb) := meets_iff_of_trimmed (hnb a ha).1 htb (hnb a ha).2 hshort
  refine ⟨fun a ha => (hpair a ?_).1, ?_⟩
  · rw [← hvisited]
    exact mem_of_mem_upTo ha
  · rw [hvisited, Equivalent]
    exact exists_congr fun a => and_congr_right fun ha => (hpair a ha).2

end Swig.Runtime
