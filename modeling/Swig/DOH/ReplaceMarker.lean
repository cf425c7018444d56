import Swig.DOH.ReplaceText

/-!
`Replaceall` of a text that begins with a marker: the loops that look for a marker from the
start of a text again, until there is none, come nearer to their end with every such step.
-/

namespace Swig.DOH

open ByteBlock

/-- The number of places where the marker stands. -/
def occurrences (marker : List Byte) : List Byte → ℕ
  | [] => 0
  | c :: cs => (if marker <+: c :: cs then 1 else 0) + occurrences marker cs

/-- What is put in place of a text with the marker does not make another one: the marker's first byte does not
stand in it, nor its own first byte in the marker. -/
structure Unmarked (marker rep : List Byte) : Prop where
  ne_nil : rep ≠ []
  first : ∀ c ∈ marker.head?, c ∉ rep
  head : ∀ c ∈ rep.head?, c ∉ marker

variable {marker token rep u v txt : List Byte} {left : Bool}

theorem occurrences_le_append (u v : List Byte) : occurrences marker v ≤ occurrences marker (u ++ v) := by
  induction u with
  | nil => exact Nat.le_refl _
  | cons c u ih =>
      rw [List.cons_append, occurrences]
      omega

theorem occurrences_token (htoken : token ≠ []) (hmarker : marker <+: token) (v : List Byte) :
    occurrences marker v + 1 ≤ occurrences marker (token ++ v) := by
  obtain ⟨c, cs, rfl⟩ := List.exists_cons_of_ne_nil htoken
  have hpre : marker <+: c :: (cs ++ v) := hmarker.trans (List.prefix_append (c :: cs) v)
  have hle : occurrences marker v ≤ occurrences marker (cs ++ v) := occurrences_le_append cs v
  rw [List.cons_append, occurrences, if_pos hpre]
  omega

theorem occurrences_eq_zero (h : ∀ i, ¬Occurs marker txt i) : occurrences marker txt = 0 := by
  induction txt with
  | nil => rfl
  | cons c cs ih =>
      have hpre : ¬marker <+: c :: cs := h 0
      rw [occurrences, if_neg hpre, Nat.zero_add]
      exact ih fun i => h (i + 1)

/-- The marker does not begin in a text without its first byte. -/
theorem occurrences_skip (hne : marker ≠ []) (hfirst : ∀ c ∈ marker.head?, c ∉ u) (v : List Byte) :
    occurrences marker (u ++ v) = occurrences marker v := by
  obtain ⟨m, ms, rfl⟩ := List.exists_cons_of_ne_nil hne
  have hm : m ∉ u := hfirst m rfl
  induction u with
  | nil => rfl
  | cons c u ih =>
      rw [List.mem_cons, not_or] at hm
      have hpre : ¬m :: ms <+: c :: (u ++ v) := fun h => hm.1 (List.cons_prefix_cons.mp h).1
      rw [List.cons_append, occurrences, if_neg hpre, Nat.zero_add]
      exact ih (fun c hc => Option.some.inj hc ▸ hm.2) hm.2

/-- A text without the first byte of the replacement begins the result only where it began the text. -/
theorem prefix_of_replaced (htoken : token ≠ []) {r : Byte} {rs p : List Byte} (hp : r ∉ p) (left : Bool)
    (h : p <+: (replaced match_simple token (r :: rs) false left txt).2) : p <+: txt := by
  induction p generalizing left txt with
  | nil => exact List.nil_prefix
  | cons c p ih =>
      rw [List.mem_cons, not_or] at hp
      cases txt with
      | nil => exact h
      | cons d txt =>
          by_cases hpre : token <+: d :: txt
          · obtain ⟨v, hv⟩ := hpre
            rw [← hv, replaced_token htoken rfl] at h
            exact absurd (List.cons_prefix_cons.mp h).1.symm hp.1
          · rw [replaced_cons hpre] at h
            obtain ⟨rfl, h⟩ := List.cons_prefix_cons.mp h
            exact List.cons_prefix_cons.mpr ⟨rfl, ih hp.2 _ h⟩

/-- Each replacement takes a marker away. -/
theorem occurrences_replaced (hm : marker ≠ []) (hmarker : marker <+: token) (h : Unmarked marker rep)
    (left : Bool) (txt : List Byte) :
    occurrences marker (replaced match_simple token rep false left txt).2 +
      (replaced match_simple token rep false left txt).1 ≤ occurrences marker txt := by
  have htoken : token ≠ [] := fun hnil => hm (List.prefix_nil.mp (hnil ▸ hmarker))
  obtain ⟨n, hn⟩ : ∃ n, txt.length = n := ⟨_, rfl⟩
  induction n using Nat.strong_induction_on generalizing left txt with
  | _ n ih =>
      cases txt with
      | nil => exact Nat.le_refl _
      | cons c cs =>
          by_cases hpre : token <+: c :: cs
          · obtain ⟨v, hv⟩ := hpre
            rw [← hv] at hn ⊢
            have hpos := List.length_pos_of_ne_nil htoken
            rw [List.length_append] at hn
            have hrest := ih v.length (by omega) (identAfter left (overwritten token rep)) v rfl
            have hgone := occurrences_token htoken hmarker v
            rw [replaced_token htoken rfl]
            dsimp only
            rw [occurrences_skip hm h.first]
            omega
          · rw [List.length_cons] at hn
            have hrest := ih cs.length (by omega) (isIdent c) cs rfl
            have hkeep (hpre' : marker <+: (replaced match_simple token rep false left (c :: cs)).2) :
                marker <+: c :: cs := by
              obtain ⟨r, rs, rfl⟩ := List.exists_cons_of_ne_nil h.ne_nil
              exact prefix_of_replaced htoken (h.head r rfl) left hpre'
            rw [replaced_cons hpre] at hkeep ⊢
            dsimp only at hkeep ⊢
            rw [occurrences, occurrences]
            split
            · rename_i hpre'
              rw [if_pos (hkeep hpre')]
              omega
            · omega

theorem replaced_pos (htoken : token ≠ []) {k : ℕ} (hocc : Occurs token txt k) (left : Bool) :
    0 < (replaced match_simple token rep false left txt).1 := by
  obtain ⟨n, hn⟩ : ∃ n, txt.length = n := ⟨_, rfl⟩
  induction n using Nat.strong_induction_on generalizing left txt k with
  | _ n ih =>
      cases txt with
      | nil =>
          rw [Occurs, List.drop_nil] at hocc
          exact absurd (List.prefix_nil.mp hocc) htoken
      | cons c cs =>
          by_cases hpre : token <+: c :: cs
          · obtain ⟨v, hv⟩ := hpre
            rw [← hv, replaced_token htoken rfl]
            exact Nat.succ_pos _
          · rw [replaced_cons hpre]
            cases k with
            | zero => exact absurd hocc hpre
            | succ k =>
                rw [List.length_cons] at hn
                exact ih cs.length (by omega) (k := k) hocc (isIdent c) rfl

/-- A token that does not occur is not replaced. -/
theorem replaced_absent (h : ∀ k < txt.length, ¬Occurs token txt k) (left : Bool) :
    (replaced match_simple token rep false left txt).2 = txt := by
  have habsent : ∀ k < txt.length, ¬Occurs token (txt ++ []) k := by rwa [List.append_nil]
  have hall := replaced_append match_simple rep false left habsent
  rw [List.append_nil] at hall
  rw [hall, replaced_nil, List.append_nil]

/-! ### Replaceall -/

/-- The text after `Replaceall`. -/
def replacedAll (token rep s : List Byte) : List Byte := (replaced match_simple token rep false false s).2

theorem replaceText_any (htoken : token ≠ []) (hrep : ∀ c ∈ rep, c ≠ 0) (htxt : ∀ c ∈ txt, c ≠ 0) :
    replaceText txt token rep DOH_REPLACE_ANY = some (replacedAll token rep txt) :=
  replaceText_eq htoken hrep htxt rfl

theorem nulFree_replacedAll (htoken : token ≠ []) (hrep : ∀ c ∈ rep, c ≠ 0) (htxt : ∀ c ∈ txt, c ≠ 0) :
    ∀ c ∈ replacedAll token rep txt, c ≠ 0 := fun c hc =>
  (mem_replaced htoken hc).elim (htxt c) (hrep c)

/-- A text with the marker in front is taken away. -/
theorem occurrences_replacedAll (hm : marker ≠ []) (hmarker : marker <+: token) (h : Unmarked marker rep) {k : ℕ}
    (hocc : Occurs token txt k) : occurrences marker (replacedAll token rep txt) < occurrences marker txt := by
  have htoken : token ≠ [] := fun hnil => hm (List.prefix_nil.mp (hnil ▸ hmarker))
  have hpos : 0 < (replaced match_simple token rep false false txt).1 := replaced_pos htoken hocc false
  have hle := occurrences_replaced hm hmarker h false txt
  rw [replacedAll]
  omega

end Swig.DOH
