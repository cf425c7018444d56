import Swig.CParse.NestedTags

/-!
`dump_nested` (`parser.y`): the text of a nested class is cleaned up before it goes back to the
scanner.
-/

namespace Swig.CParse.Nested

open ByteBlock DOH

/-! ### The function -/

/-- The loop for `%constant`. -/
def constantLoop : ℕ → List Byte → Option (List Byte)
  | 0, _ => none
  | n + 1, s =>
      match indexOf (lit "%constant") s with
      | none => some s
      | some i =>
          let front := s.take i
          let rest := s.drop i
          match strchr rest (chr ';') with
          -- `code_ptr` stays where it is
          | none => (constantLoop n rest).map (front ++ ·)
          | some pos => (constantLoop n (rest.drop (pos + 1))).map (front ++ List.replicate (pos + 1) (chr ' ') ++ ·)

/-- The texts that `strip_comments` and the loops of `dump_nested` leave, with the number of rounds a
loop may take. -/
def dumpNested (code : List Byte) (n : ℕ) : Option (List (List Byte)) := do
  let stripped := stripComments code
  let structs ← tagLoop (lit "struct") n stripped
  let unions ← tagLoop (lit "union") n structs
  let classes ← tagLoop (lit "class") n unions
  let constants ← constantLoop n classes
  return [stripped, structs, unions, classes, constants]

/-! ### Directives -/

/-- The length of a complete `%constant` directive. -/
def directiveAt (ms : List Mark) : Option ℕ :=
  if token (lit "%constant") <+: ms ∧ (ms.drop 9).head?.any Mark.isIdent = false then
    (ms.findIdx? (· == (chr ';', false))).map (· + 1)
  else none

/-- The text without its `%constant` directives. -/
def constantsFrom : (cut : ℕ) → List Mark → List Mark
  | _, [] => []
  | cut + 1, _ :: ms => blank :: constantsFrom cut ms
  | 0, m :: ms =>
      match directiveAt (m :: ms) with
      | some n => blank :: constantsFrom (n - 1) ms
      | none => m :: constantsFrom 0 ms

def constants (ms : List Mark) : List Mark := constantsFrom 0 ms

/-- The texts without comments, and then without each kind of tag names and without directives. -/
def cleaned (code : List Byte) : List (List Byte) :=
  let stripped := lexed .code code
  let structs := tags (lit "struct") stripped
  let unions := tags (lit "union") structs
  let classes := tags (lit "class") unions
  [stripped, structs, unions, classes, constants classes].map bytes

/-! ### What the search comes upon -/

/-- Each semicolon of the text ends a `%constant`, from one to the next with nothing but spaces
between. -/
inductive Chunks : List Byte → Prop
  | nil : Chunks []
  | space {s : List Byte} (h : Chunks s) : Chunks (chr ' ' :: s)
  | constant {x s : List Byte} (hx : chr ';' ∉ x) (h : Chunks s) : Chunks (lit "%constant" ++ x ++ chr ';' :: s)

/-- At every place with the bytes of `%constant`, there is a complete directive. -/
def Directed : (skip : ℕ) → List Mark → Prop
  | _, [] => True
  | skip + 1, _ :: ms => Directed skip ms
  | 0, m :: ms =>
      if lit "%constant" <+: bytes (m :: ms) then
        match directiveAt (m :: ms) with
        | some n => Chunks (bytes ((m :: ms).take n)) ∧ Directed (n - 1) ms
        | none => False
      else Directed 0 ms

variable {s x v r : List Byte} {c : Byte} {ms : List Mark} {m : Mark} {n : ℕ}

/-! ### The rounds -/

theorem constantLoop_skip (h : ¬lit "%constant" <+: c :: s) (n : ℕ) :
    constantLoop n (c :: s) = (constantLoop n s).map (c :: ·) := by
  cases n with
  | zero => rfl
  | succ n =>
      rw [constantLoop, indexOf_skip h, constantLoop]
      cases indexOf (lit "%constant") s with
      | none => rfl
      | some i =>
          dsimp only [Option.map_some]
          rw [List.take_succ_cons, List.drop_succ_cons]
          cases strchr (s.drop i) (chr ';') with
          | none =>
              dsimp only
              rw [Option.map_map]
              rfl
          | some pos =>
              dsimp only
              rw [Option.map_map]
              rfl

theorem constantLoop_front (h : lit "%constant" <+: s) (n : ℕ) : constantLoop (n + 1) s =
    match strchr s (chr ';') with
    | none => (constantLoop n s).map ([] ++ ·)
    | some pos => (constantLoop n (s.drop (pos + 1))).map (List.replicate (pos + 1) (chr ' ') ++ ·) := by
  rw [constantLoop, indexOf_prefix h]
  rfl

theorem constants_skip (h : ¬lit "%constant" <+: c :: s) :
    Fuel.Returns (fun n => constantLoop n (c :: s)) r ↔
      ∃ r', r = c :: r' ∧ Fuel.Returns (fun n => constantLoop n s) r' := by
  rw [Fuel.returns_congr_iff (constantLoop_skip h)]
  exact Fuel.returns_map_iff (cons_injective c)

theorem constants_cut (h : lit "%constant" <+: x ++ chr ';' :: s) (hx : chr ';' ∉ x) :
    Fuel.Returns (fun n => constantLoop n (x ++ chr ';' :: s)) r ↔
      ∃ r', r = List.replicate (x.length + 1) (chr ' ') ++ r' ∧ Fuel.Returns (fun n => constantLoop n s) r' := by
  have hdrop : (x ++ chr ';' :: s).drop (x.length + 1) = s := by
    rw [← List.drop_drop, List.drop_left, List.drop_one, List.tail_cons]
  have hloop (n : ℕ) : constantLoop (n + 1) (x ++ chr ';' :: s) =
      (constantLoop n s).map (List.replicate (x.length + 1) (chr ' ') ++ ·) := by
    rw [constantLoop_front h, strchr_append hx]
    dsimp only
    rw [hdrop]
  rw [← Fuel.returns_succ_iff, Fuel.returns_congr_iff hloop]
  exact Fuel.returns_map_iff (append_injective _)

/-- Without a semicolon, the loop does not end. -/
theorem constants_hangs (h : lit "%constant" <+: s) (hs : chr ';' ∉ s) (r : List Byte) :
    ¬Fuel.Returns (fun n => constantLoop n s) r := by
  have hnone (n : ℕ) : constantLoop n s = none := by
    induction n with
    | zero => rfl
    | succ n ih => rw [constantLoop_front h, strchr_eq_none.mpr hs, ih, Option.map_none]
  rintro ⟨N, hN⟩
  cases (hnone N).symm.trans (hN N (Nat.le_refl N))

/-- Neither does it where `%constant` comes later. -/
theorem constants_never {u v : List Byte} (hs : chr ';' ∉ u ++ (lit "%constant" ++ v)) (r : List Byte) :
    ¬Fuel.Returns (fun n => constantLoop n (u ++ (lit "%constant" ++ v))) r := by
  induction u generalizing r with
  | nil => exact constants_hangs (List.prefix_append _ v) hs r
  | cons c u ih =>
      rw [List.cons_append] at hs ⊢
      by_cases hpre : lit "%constant" <+: c :: (u ++ (lit "%constant" ++ v))
      · exact constants_hangs hpre hs r
      · intro hret
        obtain ⟨r', -, hret⟩ := (constants_skip hpre).mp hret
        exact ih (fun hmem => hs (List.mem_cons_of_mem c hmem)) r' hret

/-- `%constant` is found where the text begins with it, or not. -/
theorem constants_found (h : lit "%constant" <+: s) (hret : Fuel.Returns (fun n => constantLoop n s) r) :
    ∃ r', r = chr ' ' :: r' := by
  cases hpos : strchr s (chr ';') with
  | none => exact absurd hret (constants_hangs h (strchr_eq_none.mp hpos) r)
  | some pos =>
      obtain ⟨x, y, rfl, hx, -⟩ := strchr_eq_some hpos
      obtain ⟨r', rfl, -⟩ := (constants_cut h hx).mp hret
      exact ⟨_, rfl⟩

/-! ### Semicolons of a directive -/

theorem notMem_constant : chr ';' ∉ lit "%constant" := by decide

/-- Two texts are cut at the first semicolon. -/
theorem cut_unique {x y s t : List Byte} (hx : chr ';' ∉ x) (hy : chr ';' ∉ y)
    (h : x ++ chr ';' :: s = y ++ chr ';' :: t) :
    x = y ∧ s = t := by
  have hlen : x.length = y.length := by
    have hpos := strchr_append hx s
    rw [h, strchr_append hy t] at hpos
    exact (Option.some.inj hpos).symm
  obtain ⟨hxy, hst⟩ := List.append_inj h hlen
  exact ⟨hxy, (List.cons.inj hst).2⟩

theorem prefix_before (h : lit "%constant" <+: x ++ chr ';' :: s) : lit "%constant" <+: x := by
  rcases List.prefix_or_prefix_of_prefix h (List.prefix_append x _) with hpre | ⟨u, hu⟩
  · exact hpre
  · cases u with
    | nil => rw [← hu, List.append_nil]
    | cons d u =>
        obtain ⟨w, hw⟩ := h
        rw [← hu, List.append_assoc] at hw
        obtain ⟨rfl, -⟩ := List.cons.inj (List.append_cancel_left hw)
        exact absurd (hu ▸ List.mem_append_right x List.mem_cons_self) notMem_constant

theorem chunks_constant (h : lit "%constant" <+: x) (hx : chr ';' ∉ x) : Chunks (x ++ chr ';' :: s) ↔ Chunks s := by
  constructor
  · intro hchunks
    generalize ht : x ++ chr ';' :: s = t at hchunks
    cases hchunks with
    | nil => cases x <;> cases ht
    | space hs =>
        obtain ⟨u, rfl⟩ := h
        cases ht
    | @constant y s' hy hs =>
        have hy' : chr ';' ∉ lit "%constant" ++ y := fun hmem =>
          (List.mem_append.mp hmem).elim notMem_constant hy
        exact (cut_unique hx hy' ht).2 ▸ hs
  · intro hs
    obtain ⟨y, rfl⟩ := h
    exact .constant (fun hmem => hx (List.mem_append_right _ hmem)) hs

theorem chunks_other (h : ¬lit "%constant" <+: c :: s) : Chunks (c :: s) ↔ c = chr ' ' ∧ Chunks s := by
  constructor
  · intro hchunks
    generalize ht : c :: s = t at hchunks
    cases hchunks with
    | nil => cases ht
    | space hs =>
        obtain ⟨rfl, rfl⟩ := List.cons.inj ht
        exact ⟨rfl, hs⟩
    | @constant y s' hy hs =>
        rw [ht, List.append_assoc] at h
        exact absurd (List.prefix_append _ _) h
  · rintro ⟨rfl, hs⟩
    exact .space hs

/-- The loop blanks a directive if its semicolons say so. -/
theorem returns_chunks (s v r : List Byte) (hs : s = [] ∨ s.getLast? = some (chr ';')) :
    Fuel.Returns (fun n => constantLoop n (s ++ v)) (List.replicate s.length (chr ' ') ++ r) ↔
      Chunks s ∧ Fuel.Returns (fun n => constantLoop n v) r := by
  obtain ⟨n, hn⟩ : ∃ n, s.length = n := ⟨_, rfl⟩
  induction n using Nat.strong_induction_on generalizing s with
  | _ n ih =>
      cases s with
      | nil => exact ⟨fun hret => ⟨.nil, hret⟩, fun h => h.2⟩
      | cons c s =>
          have hlast : (c :: s).getLast? = some (chr ';') := hs.resolve_left (List.cons_ne_nil c s)
          by_cases hpre : lit "%constant" <+: c :: s ++ v
          · have hmem : chr ';' ∈ c :: s := List.mem_of_getLast? hlast
            obtain ⟨x, t, ht, hx⟩ := List.eq_append_cons_of_mem hmem
            have hcut : c :: s ++ v = x ++ chr ';' :: (t ++ v) := by rw [ht, List.append_assoc, List.cons_append]
            rw [hcut] at hpre
            have htlast : t = [] ∨ t.getLast? = some (chr ';') := by
              rw [ht] at hlast
              cases t with
              | nil => exact .inl rfl
              | cons d t =>
                  rw [List.getLast?_append_of_ne_nil _ (List.cons_ne_nil _ _), List.getLast?_cons_cons] at hlast
                  exact .inr hlast
            have hlen : (c :: s).length = x.length + 1 + t.length := by
              rw [ht, List.length_append, List.length_cons]
              omega
            have hrest := ih t.length (by omega) t htlast rfl
            rw [hcut, constants_cut hpre hx, ht, chunks_constant (prefix_before hpre) hx, ← hrest, ← ht,
              hlen, List.replicate_add, List.append_assoc]
            constructor
            · rintro ⟨r', hr', hret⟩
              rwa [List.append_cancel_left hr']
            · exact fun hret => ⟨_, rfl, hret⟩
          · have hshort : ¬lit "%constant" <+: c :: s := fun h => hpre (h.trans (List.prefix_append _ v))
            rw [List.cons_append] at hpre ⊢
            rw [constants_skip hpre, chunks_other hshort, List.length_cons, List.replicate_succ]
            by_cases hc : c = chr ' '
            · subst hc
              have hslast : s = [] ∨ s.getLast? = some (chr ';') := by
                cases s with
                | nil => exact .inl rfl
                | cons d s =>
                    rw [List.getLast?_cons_cons] at hlast
                    exact .inr hlast
              have hrest := ih s.length (by rw [← hn]; exact Nat.lt_succ_self _) s hslast rfl
              rw [and_iff_right rfl, ← hrest]
              constructor
              · rintro ⟨r', hr', hret⟩
                obtain rfl := (List.cons.inj hr').2
                exact hret
              · exact fun hret => ⟨_, rfl, hret⟩
            · refine iff_of_false ?_ fun h => hc h.1.1
              rintro ⟨r', hr', -⟩
              exact hc (List.cons.inj hr').1.symm

/-! ### The loop and the directives -/

theorem directiveAt_eq_some (h : directiveAt ms = some n) :
    lit "%constant" <+: bytes ms ∧ ∃ d tail, ms = d ++ (chr ';', false) :: tail ∧ n = d.length + 1 := by
  rw [directiveAt] at h
  split at h
  · rename_i hif
    obtain ⟨rest, rfl⟩ := hif.1
    obtain ⟨k, hk, rfl⟩ := Option.map_eq_some_iff.mp h
    obtain ⟨hlt, hget, -⟩ := List.findIdx?_eq_some_iff_getElem.mp hk
    refine ⟨by rw [bytes_append, bytes_token]; exact List.prefix_append _ _,
      (token (lit "%constant") ++ rest).take k, (token (lit "%constant") ++ rest).drop (k + 1), ?_,
      congrArg (· + 1) (List.length_take_of_le hlt.le).symm⟩
    rw [← beq_iff_eq.mp hget, ← List.drop_eq_getElem_cons hlt, List.take_append_drop]
  · cases h

theorem constantsFrom_cut (x y : List Mark) :
    constantsFrom x.length (x ++ y) = List.replicate x.length blank ++ constantsFrom 0 y := by
  induction x with
  | nil => rfl
  | cons m x ih => exact congrArg (blank :: ·) ih

theorem directed_skip (x y : List Mark) : Directed x.length (x ++ y) ↔ Directed 0 y := by
  induction x with
  | nil => rfl
  | cons m x ih => exact ih

/-- The loop blanks the directives if it comes upon nothing else. -/
theorem constants_iff (ms : List Mark) :
    Fuel.Returns (fun n => constantLoop n (bytes ms)) (bytes (constants ms)) ↔ Directed 0 ms := by
  obtain ⟨n, hn⟩ : ∃ n, ms.length = n := ⟨_, rfl⟩
  induction n using Nat.strong_induction_on generalizing ms with
  | _ n ih =>
      cases ms with
      | nil =>
          refine iff_of_true ?_ trivial
          have hround : Fuel.Returns (fun n => constantLoop (n + 1) []) [] := (Fuel.Returns.const []).congr fun n => rfl
          exact hround.of_succ
      | cons m ms =>
          rw [constants, constantsFrom, Directed]
          by_cases hpre : lit "%constant" <+: bytes (m :: ms)
          · rw [if_pos hpre]
            cases hat : directiveAt (m :: ms) with
            | none =>
                refine iff_of_false (fun hret => ?_) id
                obtain ⟨r, hr⟩ := constants_found hpre hret
                obtain ⟨hm, -⟩ := List.cons.inj hr
                obtain ⟨hm', -⟩ := List.cons_prefix_cons.mp hpre
                rw [← hm'] at hm
                cases hm
            | some k =>
                obtain ⟨-, d, tail, hms, rfl⟩ := directiveAt_eq_some hat
                obtain ⟨e, he, rfl⟩ : ∃ e, d ++ [(chr ';', false)] = m :: e ∧ ms = e ++ tail := by
                  cases d with
                  | nil =>
                      obtain ⟨rfl, rfl⟩ := List.cons.inj hms
                      exact ⟨[], rfl, rfl⟩
                  | cons m' d =>
                      obtain ⟨rfl, rfl⟩ := List.cons.inj hms
                      exact ⟨d ++ [(chr ';', false)], rfl, by rw [List.append_assoc]; rfl⟩
                have hlen : d.length = e.length := by
                  have hlen := congrArg List.length he
                  rw [List.length_append, List.length_cons] at hlen
                  exact Nat.succ.inj hlen
                have hlast : (bytes (m :: e)).getLast? = some (chr ';') := by
                  rw [← he, bytes_append]
                  exact List.getLast?_concat
                have htake : (m :: (e ++ tail)).take (d.length + 1) = m :: e := by
                  rw [hlen, List.take_succ_cons, List.take_left]
                have hblank : bytes (List.replicate (m :: e).length blank) =
                    List.replicate (bytes (m :: e)).length (chr ' ') := by
                  rw [bytes, List.map_replicate, length_bytes]
                  rfl
                have htext : bytes (blank :: constantsFrom (d.length + 1 - 1) (e ++ tail)) =
                    List.replicate (bytes (m :: e)).length (chr ' ') ++ bytes (constants tail) := by
                  rw [hlen, Nat.add_sub_cancel, constantsFrom_cut, ← hblank, ← bytes_append]
                  rfl
                have hloop := returns_chunks (bytes (m :: e)) (bytes tail) (bytes (constants tail)) (.inr hlast)
                have htail := ih tail.length (by rw [← hn, List.length_cons, List.length_append]; omega) tail rfl
                dsimp only
                rw [htake, htext, ← List.cons_append, bytes_append, hloop, htail, hlen, Nat.add_sub_cancel,
                  directed_skip]
          · have hat : directiveAt (m :: ms) = none := by
              cases hat : directiveAt (m :: ms) with
              | none => rfl
              | some k => exact absurd (directiveAt_eq_some hat).1 hpre
            have hrest := ih ms.length (by rw [← hn]; exact Nat.lt_succ_self _) ms rfl
            rw [if_neg hpre, hat, bytes_cons, ← hrest]
            refine (constants_skip hpre).trans ?_
            constructor
            · rintro ⟨r, hr, hret⟩
              obtain rfl := (List.cons.inj hr).2
              exact hret
            · exact fun hret => ⟨_, rfl, hret⟩

/-! ### The clean-up -/

/-- What the searches of the loops come upon. -/
structure CleanText (code : List Byte) : Prop where
  structs : Tagged (lit "struct") 0 false (lexed .code code)
  unions : Tagged (lit "union") 0 false (tags (lit "struct") (lexed .code code))
  classes : Tagged (lit "class") 0 false (tags (lit "union") (tags (lit "struct") (lexed .code code)))
  constants : Directed 0 (tags (lit "class") (tags (lit "union") (tags (lit "struct") (lexed .code code))))

theorem dumpNested_returns {code : List Byte} {r : List (List Byte)} :
    Fuel.Returns (dumpNested code) r ↔ ∃ a b e f, r = [stripComments code, a, b, e, f] ∧
      Fuel.Returns (fun n => tagLoop (lit "struct") n (stripComments code)) a ∧
        Fuel.Returns (fun n => tagLoop (lit "union") n a) b ∧ Fuel.Returns (fun n => tagLoop (lit "class") n b) e ∧
          Fuel.Returns (fun n => constantLoop n e) f := by
  constructor
  · rintro ⟨N, hN⟩
    have hround (n : ℕ) (hn : N ≤ n) : ∃ a b e f, r = [stripComments code, a, b, e, f] ∧
        tagLoop (lit "struct") n (stripComments code) = some a ∧ tagLoop (lit "union") n a = some b ∧
          tagLoop (lit "class") n b = some e ∧ constantLoop n e = some f := by
      obtain ⟨a, ha, hrest⟩ := Option.bind_eq_some_iff.mp (hN n hn)
      obtain ⟨b, hb, hrest⟩ := Option.bind_eq_some_iff.mp hrest
      obtain ⟨e, he, hrest⟩ := Option.bind_eq_some_iff.mp hrest
      obtain ⟨f, hf, hrest⟩ := Option.bind_eq_some_iff.mp hrest
      exact ⟨a, b, e, f, (Option.some.inj hrest).symm, ha, hb, he, hf⟩
    obtain ⟨a, b, e, f, rfl, -⟩ := hround N (Nat.le_refl N)
    have hsame (n : ℕ) (hn : N ≤ n) : tagLoop (lit "struct") n (stripComments code) = some a ∧
        tagLoop (lit "union") n a = some b ∧ tagLoop (lit "class") n b = some e ∧ constantLoop n e = some f := by
      obtain ⟨a', b', e', f', heq, h⟩ := hround n hn
      cases heq
      exact h
    exact ⟨a, b, e, f, rfl, ⟨N, fun n hn => (hsame n hn).1⟩, ⟨N, fun n hn => (hsame n hn).2.1⟩,
      ⟨N, fun n hn => (hsame n hn).2.2.1⟩, ⟨N, fun n hn => (hsame n hn).2.2.2⟩⟩
  · rintro ⟨a, b, e, f, rfl, ha, hb, he, hf⟩
    exact ha.bind (hb.bind (he.bind (hf.bind (.const _))))

/-- In a text of which `strip_comments` knows all, the clean-up ends and leaves what it should if its
searches come upon nothing else. -/
theorem dumpNested_iff (code : List Byte) (h : Known .code false code) :
    Fuel.Returns (dumpNested code) (cleaned code) ↔ CleanText code := by
  have hstruct : IsWord (lit "struct") := ⟨List.cons_ne_nil _ _, List.all_eq_true.mp rfl⟩
  have hunion : IsWord (lit "union") := ⟨List.cons_ne_nil _ _, List.all_eq_true.mp rfl⟩
  have hclass : IsWord (lit "class") := ⟨List.cons_ne_nil _ _, List.all_eq_true.mp rfl⟩
  have hstripped := stripComments_eq h
  have hstructs := settled hstruct false (lexed .code code)
  have hunions := settled hunion false (tags (lit "struct") (lexed .code code))
  have hclasses := settled hclass false (tags (lit "union") (tags (lit "struct") (lexed .code code)))
  rw [dumpNested_returns, hstripped]
  constructor
  · rintro ⟨a, b, e, f, heq, h₁, h₂, h₃, h₄⟩
    cases heq
    exact ⟨hstructs.mp h₁, hunions.mp h₂, hclasses.mp h₃, (constants_iff _).mp h₄⟩
  · rintro ⟨h₁, h₂, h₃, h₄⟩
    exact ⟨_, _, _, _, rfl, hstructs.mpr h₁, hunions.mpr h₂, hclasses.mpr h₃, (constants_iff _).mpr h₄⟩

theorem dumpNested_iff_comment :
    Known .code false (lit "typedef struct A \x7b int x; /* it's */ \x7d B_x;") ∧
      (Fuel.Returns (dumpNested (lit "typedef struct A \x7b int x; /* it's */ \x7d B_x;"))
          (cleaned (lit "typedef struct A \x7b int x; /* it's */ \x7d B_x;")) ↔
        CleanText (lit "typedef struct A \x7b int x; /* it's */ \x7d B_x;")) :=
  ⟨by decide +kernel, dumpNested_iff _ (by decide +kernel)⟩

/-- What is asked of the text from the first keyword on. -/
theorem tagged_behind {type u v : List Byte} {prev : Bool} (h : ∀ i < u.length, ¬type <+: (u ++ v).drop i)
    (htagged : Tagged type 0 prev (token (u ++ v))) : Tagged type 0 (lastIdent prev (token u)) (token v) := by
  induction u generalizing prev with
  | nil => exact htagged
  | cons c u ih =>
      have hpre : ¬type <+: bytes ((c, false) :: token (u ++ v)) := by
        rw [bytes_cons, bytes_token]
        exact h 0 (Nat.succ_pos _)
      have hcons : token (c :: (u ++ v)) = (c, false) :: token (u ++ v) := rfl
      rw [List.cons_append, hcons, Tagged, if_neg hpre] at htagged
      exact ih (fun i hi => h (i + 1) (Nat.succ_lt_succ hi)) htagged

/-- A text with the bytes of `struct` in another word. -/
def construct : List Byte := lit "typedef union \x7b int construct() \x7b return 0; \x7d \x7d B_x;"

/-- A text whose comment has an even number of asterisks at its end. -/
def unseen : List Byte := lit "typedef union \x7b%constant k/* **/=1;\x7d B_x;"

theorem unseen_stripped :
    stripComments unseen = lit "typedef union \x7b" ++ (lit "%constant" ++ lit " k               ") := by
  decide +kernel

theorem not_tagged_construct : ¬Tagged (lit "struct") 0 false (lexed .code construct) := by
  have hlexed : lexed .code construct = token (lit "typedef union \x7b int con" ++
      (lit "struct" ++ (lit "() " ++ lit "\x7b return 0; \x7d \x7d B_x;"))) := by
    decide +kernel
  have hword : IsWord (lit "struct") := ⟨List.cons_ne_nil _ _, List.all_eq_true.mp rfl⟩
  have hlast : lastIdent false (token (lit "typedef union \x7b int con")) = true := rfl
  have hsplit : token (lit "struct" ++ (lit "() " ++ lit "\x7b return 0; \x7d \x7d B_x;")) =
      token (lit "struct") ++ (token (lit "() ") ++ (chr '{', false) :: token (lit " return 0; \x7d \x7d B_x;")) := rfl
  rw [hlexed]
  intro h
  have hfirst := tagged_behind (by decide +kernel) h
  rw [hlast, hsplit, tagged_cut hword (bytes_token _) rfl rfl, OnlyTag, tagAt_prev] at hfirst
  have hspaces := hfirst.1
  rw [drop_cut (bytes_token _), List.take_left, bytes_token] at hspaces
  exact absurd (hspaces (chr '(') List.mem_cons_self) (by decide)

/-- The end of `/* a **/` is not seen, the parentheses of `construct() {` go with the bytes of
`struct` in front of them, and a `%constant` whose semicolon went with a comment is looked at for
ever. -/
theorem not_cleaned :
    stripComments (lit "/* a **/ int x;") ≠ bytes (lexed .code (lit "/* a **/ int x;")) ∧
      ¬Fuel.Returns (dumpNested construct) (cleaned construct) ∧ ∀ r, ¬Fuel.Returns (dumpNested unseen) r := by
  refine ⟨by decide +kernel, fun h => ?_, fun r h => ?_⟩
  · have hword : IsWord (lit "struct") := ⟨List.cons_ne_nil _ _, List.all_eq_true.mp rfl⟩
    have hknown : Known .code false construct := by decide +kernel
    obtain ⟨a, b, e, f, heq, hstructs, -⟩ := dumpNested_returns.mp h
    cases heq
    rw [stripComments_eq hknown] at hstructs
    exact not_tagged_construct ((settled hword false _).mp hstructs)
  · obtain ⟨a, b, e, f, -, hstructs, hunions, hclasses, hconstants⟩ := dumpNested_returns.mp h
    have habsent {type : List Byte} (h : indexOf type (stripComments unseen) = none) :
        Fuel.Returns (fun n => tagLoop type n (stripComments unseen)) (stripComments unseen) :=
      Fuel.Returns.of_succ ((Fuel.Returns.const _).congr fun n => by rw [tagLoop, h])
    have hunion : Fuel.Returns (fun n => tagLoop (lit "union") n (stripComments unseen)) (stripComments unseen) := by
      have hindex : indexOf (lit "union") (stripComments unseen) = some 8 := by decide +kernel
      have hbrace : openBracket ((stripComments unseen).drop 13) = some 1 := by decide +kernel
      have hnone : indexOf (lit "union") (((stripComments unseen).drop 13).drop 1) = none := by decide +kernel
      have hsame : (stripComments unseen).take 13 ++ List.replicate 1 (chr ' ') ++
          ((stripComments unseen).drop 13).drop 1 = stripComments unseen := by decide +kernel
      have hpos : 8 + (lit "union").length = 13 := rfl
      refine Fuel.Returns.of_succ (Fuel.Returns.of_succ ((Fuel.Returns.const _).congr fun n => ?_))
      rw [tagLoop, hindex]
      dsimp only
      rw [hpos, hbrace]
      dsimp only
      rw [tagLoop, hnone]
      exact congrArg some hsame
    rw [hstructs.unique (habsent (by decide +kernel))] at hunions
    rw [hunions.unique hunion] at hclasses
    rw [hclasses.unique (habsent (by decide +kernel)), unseen_stripped] at hconstants
    exact constants_never (by decide) f hconstants

end Swig.CParse.Nested
