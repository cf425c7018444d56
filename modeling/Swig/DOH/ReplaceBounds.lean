import Swig.DOH.Replace
import Mathlib.Tactic.Ring

/-!
Where the searches of `replace_simple` arrive, and what its loops leave: every
match ends in front of the terminator of the string searched, and the result
holds no terminator in front of its new length.
-/

namespace Swig.DOH

open ByteBlock

variable {r : MatchRule} {b : Block} {token rep : List Byte} {fuel s e : ℕ}

/-! ### The searches -/

theorem matchToken_bounds (h : EndsAt b s e) {c : ℕ}
    (hc : matchToken r b token fuel s = some (some c)) : s ≤ c ∧ c + token.length ≤ e := by
  induction fuel generalizing s with
  | zero => cases hc
  | succ fuel ih =>
      rw [matchToken] at hc
      simp only [Option.bind_eq_bind, Option.bind_eq_some_iff] at hc
      obtain ⟨found, hfound, hc⟩ := hc
      cases found with
      | none => cases hc
      | some k =>
          obtain ⟨hsk, hke⟩ := h.strstr hfound
          -- a match that is refused is skipped as a whole
          have hskip (hrec : matchToken r b token fuel (k + token.length) = some (some c)) :
              s ≤ c ∧ c + token.length ≤ e := by
            have := ih (h.drop (by omega) hke) hrec
            omega
          obtain ⟨left, -, hc⟩ := Option.bind_eq_some_iff.mp hc
          split at hc
          · exact hskip hc
          · obtain ⟨right, -, hc⟩ := Option.bind_eq_some_iff.mp hc
            split at hc
            · exact hskip hc
            · cases hc
              exact ⟨hsk, hke⟩

/-- A search that returns has found a terminator. -/
theorem exists_endsAt {m : Option ℕ} (hm : matchToken r b token fuel s = some m) :
    ∃ e, EndsAt b s e := by
  cases fuel with
  | zero => cases hm
  | succ fuel =>
      obtain ⟨found, hfound, -⟩ := Option.bind_eq_some_iff.mp hm
      obtain ⟨txt, htxt, -⟩ := Option.map_eq_some_iff.mp hfound
      exact ⟨_, EndsAt.of_cstring htxt⟩

theorem endQuote_bounds (h : EndsAt b s e) (hs : s < e) {qs q : ℕ} (hqs : qs < e)
    (hq : endQuote b qs fuel s = some (some q)) : q < e ∧ (q = qs ∨ s < q) := by
  induction fuel generalizing s with
  | zero =>
      rw [endQuote] at hq
      cases hq
  | succ fuel ih =>
      have hend {k : ℕ} (hsk : s < k) (hke : k < e)
          (hq : endQuote.endAt b qs fuel k = some (some q)) : q < e ∧ (q = qs ∨ s < q) := by
        unfold endQuote.endAt at hq
        simp only [Option.bind_eq_bind, Option.bind_eq_some_iff] at hq
        obtain ⟨c, -, c', -, c'', -, hq⟩ := hq
        split at hq
        · cases hq
          exact ⟨hke, .inr hsk⟩
        · have := ih (h.drop (by omega) (by omega)) hke hq
          omega
      rw [endQuote] at hq
      simp only [Option.bind_eq_bind, Option.bind_eq_some_iff] at hq
      obtain ⟨q', hq', nl, hnl, hq⟩ := hq
      have hdrop : EndsAt b (s + 1) e := h.drop (by omega) hs
      cases q' with
      | none =>
          cases nl with
          | none => cases hq
          | some nl =>
              cases hq
              exact ⟨hqs, .inl rfl⟩
      | some q' =>
          have hq'e := hdrop.findByte hq'
          cases nl with
          | none => exact hend (by omega) hq'e.2 hq
          | some nl =>
              have hnle := hdrop.findByte hnl
              simp only at hq
              split at hq
              · -- the string goes on behind a newline that is escaped
                obtain ⟨c, -, hq⟩ := Option.bind_eq_some_iff.mp hq
                split at hq
                · have := ih (h.drop (by omega) (by omega)) (by omega) hq
                  omega
                · cases hq
                  exact ⟨hqs, .inl rfl⟩
              · exact hend (by omega) hq'e.2 hq

theorem skipQuoted_bounds (h : EndsAt b s e) {q c : ℕ} {m : Option ℕ} {noquote : Bool} (hsq : s ≤ q)
    (hqe : q < e) (hm : ∀ c ∈ m, s ≤ c ∧ c + token.length ≤ e)
    (hc : skipQuoted r b token fuel q m = some (some c, noquote)) :
    s ≤ c ∧ c + token.length ≤ e := by
  induction fuel generalizing q m with
  | zero => cases hc
  | succ fuel ih =>
      cases m with
      | none => cases hc
      | some c₀ =>
          rw [skipQuoted] at hc
          split at hc
          · simp only [Option.bind_eq_bind, Option.bind_eq_some_iff] at hc
            obtain ⟨q2, hq2, hc⟩ := hc
            cases q2 with
            | none => cases hc
            | some q2 =>
                have hq2e := endQuote_bounds (h.drop hsq (by omega)) hqe hqe hq2
                obtain ⟨c₁, hc₁, hc⟩ := Option.bind_eq_some_iff.mp hc
                cases c₁ with
                | none => cases hc
                | some c₁ =>
                    have hc₁e : s ≤ c₁ ∧ c₁ + token.length ≤ e := by
                      split at hc₁
                      · have := matchToken_bounds (h.drop (by omega) (by omega)) hc₁
                        omega
                      · cases hc₁
                        exact hm c₀ rfl
                    obtain ⟨q3, hq3, hc⟩ := Option.bind_eq_some_iff.mp hc
                    cases q3 with
                    | none =>
                        cases hc
                        exact hc₁e
                    | some q3 =>
                        have hq3e := (h.drop (k := q2 + 1) (by omega) (by omega)).findByte hq3
                        refine ih (by omega) hq3e.2 (fun c hc => ?_) hc
                        cases hc
                        exact hc₁e
          · cases hc
            exact hm _ rfl

theorem nextMatch_bounds (h : EndsAt b s e) {c : ℕ} {noquote noquote' : Bool}
    (hc : nextMatch r b token noquote s = some (some c, noquote')) :
    s ≤ c ∧ c + token.length ≤ e := by
  unfold nextMatch at hc
  simp only [Option.bind_eq_bind, Option.bind_eq_some_iff] at hc
  obtain ⟨m, hm, hc⟩ := hc
  have hme (c : ℕ) (hmc : c ∈ m) : s ≤ c ∧ c + token.length ≤ e := by
    cases hmc
    exact matchToken_bounds h hm
  split at hc
  · obtain ⟨q, hq, hc⟩ := Option.bind_eq_some_iff.mp hc
    cases q with
    | none =>
        cases hc
        exact hme c rfl
    | some q =>
        have hqe := h.findByte hq
        exact skipQuoted_bounds h hqe.1 hqe.2 hme hc
  · cases hc
    exact hme c rfl

/-! ### The loops -/

/-- The text in front of `t` is done; the text from the match at `s` on is still
to be read. -/
theorem shrinkLoop_nulFree {t n : ℕ} {len : ℤ} {once noquote : Bool} {b' : Block}
    (hrep : ∀ c ∈ rep, c ≠ 0) (hle : rep.length ≤ token.length) (hdone : NulFree b 0 t)
    (h : EndsAt b s e) (hs : s + token.length ≤ e) (hts : t ≤ s)
    (heq : rep.length = token.length → t = s) (hlen : len ≤ e)
    (hloop : shrinkLoop r token rep len once fuel b t s noquote = some (b', n)) :
    b'.length = b.length ∧
      NulFree b' 0 (t + (len - s) + ((rep.length : ℤ) - token.length) * n) := by
  induction fuel generalizing b t s n noquote with
  | zero => cases hloop
  | succ fuel ih =>
      rw [shrinkLoop] at hloop
      simp only [Option.bind_eq_bind, Option.bind_eq_some_iff] at hloop
      obtain ⟨b₁, hb₁, hloop⟩ := hloop
      have hlen₁ := length_storeBytes hb₁
      have hdone₁ : NulFree b₁ 0 (t + rep.length : ℕ) := by
        push_cast
        exact hdone.extend hb₁ hrep
      have h₁ : EndsAt b₁ (s + token.length) e :=
        (h.drop (by omega) hs).storeBytes_below hb₁ (by omega)
      -- the rest of the text moves up to the last replacement
      have hlast {b₂ : Block} (hb₂ : (if rep.length < token.length then
          memmove b₁ (t + rep.length : ℕ) (s + token.length : ℕ) (len - (s + token.length : ℕ) + 1)
          else some b₁) = some b₂) :
          b₂.length = b.length ∧ NulFree b₂ 0 (t + (len - s) + ((rep.length : ℤ) - token.length) * 1) := by
        have hend : (t : ℤ) + (len - s) + ((rep.length : ℤ) - token.length) * 1 =
            (t + rep.length : ℕ) + (len - (s + token.length : ℕ)) := by
          push_cast
          omega
        rw [hend]
        split at hb₂
        · refine ⟨by rw [length_memmove hb₂, hlen₁], ?_⟩
          have hmove := (h₁.nulFree.mono (Int.le_refl _)
            (show ((s + token.length : ℕ) : ℤ) + (len - (s + token.length : ℕ)) ≤ e by omega))
          exact (hdone₁.memmove_outside hb₂ (.inl (Int.le_refl _))).append
            (hmove.memmove_self hb₂ (by omega))
        · cases hb₂
          have := heq (by omega)
          refine ⟨hlen₁, (hdone₁.append (h₁.nulFree.mono ?_ (Int.le_refl _))).mono (Int.le_refl _) ?_⟩
          · omega
          · omega
      split at hloop
      · simp only [Option.bind_eq_some_iff] at hloop
        obtain ⟨b₂, hb₂, hloop⟩ := hloop
        cases hloop
        exact hlast hb₂
      · obtain ⟨⟨m, noquote'⟩, hm, hloop⟩ := Option.bind_eq_some_iff.mp hloop
        cases m with
        | none =>
            obtain ⟨b₂, hb₂, hloop⟩ := Option.bind_eq_some_iff.mp hloop
            cases hloop
            exact hlast hb₂
        | some c =>
            obtain ⟨hsc, hce⟩ := nextMatch_bounds h₁ hm
            obtain ⟨b₂, hb₂, hloop⟩ := Option.bind_eq_some_iff.mp hloop
            obtain ⟨⟨b₃, k⟩, hb₃, hloop⟩ := Option.bind_eq_some_iff.mp hloop
            cases hloop
            -- the text between two matches moves up to the replacement in front of it
            have hnext : b₂.length = b.length ∧ EndsAt b₂ c e ∧
                NulFree b₂ 0 (t + rep.length + (c - (s + token.length)) : ℕ) := by
              have hgap : ((t + rep.length + (c - (s + token.length)) : ℕ) : ℤ) =
                  (t + rep.length : ℕ) + ((c : ℤ) - (s + token.length : ℕ)) := by omega
              have hmove := h₁.nulFree.mono (Int.le_refl _)
                (show ((s + token.length : ℕ) : ℤ) + ((c : ℤ) - (s + token.length : ℕ)) ≤ e by omega)
              rw [hgap]
              split at hb₂
              · exact ⟨by rw [length_memmove hb₂, hlen₁],
                  (h₁.drop hsc (by omega)).memmove_below hb₂ (by omega),
                  (hdone₁.memmove_outside hb₂ (.inl (Int.le_refl _))).append
                    (hmove.memmove_self hb₂ (Int.le_refl _))⟩
              · cases hb₂
                have := heq (by omega)
                refine ⟨hlen₁, h₁.drop hsc (by omega), hdone₁.append (hmove.mono ?_ ?_)⟩
                · omega
                · omega
            obtain ⟨hlen₂, hends, hdone₂⟩ := hnext
            obtain ⟨hlen₃, hdone₃⟩ := ih hdone₂ hends hce (by omega) (by omega) hb₃
            refine ⟨by rw [hlen₃, hlen₂], ?_⟩
            convert hdone₃ using 1
            push_cast
            rw [Nat.cast_sub hsc]
            push_cast
            ring

theorem copyLoop_nulFree {t k : ℕ} {len : ℤ} {noquote : Bool} {ns ns' : Block}
    (hrep : ∀ c ∈ rep, c ≠ 0) (hdone : NulFree ns 0 t) (h : EndsAt b s e)
    (hs : s + token.length ≤ e) (hlen : len ≤ e)
    (hloop : copyLoop r b token rep len k ns t s noquote = some ns') :
    ns'.length = ns.length ∧
      NulFree ns' 0 (t + (len - s) + ((rep.length : ℤ) - token.length) * (k + 1)) := by
  induction k generalizing ns t s noquote with
  | zero =>
      rw [copyLoop] at hloop
      simp only [Option.bind_eq_bind, Option.bind_eq_some_iff] at hloop
      obtain ⟨ns₁, hns₁, -, -, y, hy, hloop⟩ := hloop
      have hdone₁ := hdone.extend hns₁ hrep
      have h₁ := h.drop (Nat.le_add_right s token.length) hs
      have hrest := h₁.nulFree.mono (Int.le_refl _)
        (show ((s + token.length : ℕ) : ℤ) + (len - (s + token.length : ℕ)) ≤ e by omega)
      refine ⟨by rw [length_storeBytes hloop, length_storeBytes hns₁], ?_⟩
      convert (hdone₁.storeBytes_outside hloop (.inl (Int.le_refl _))).append
        (hrest.copy_self hy hloop (by omega)) using 1
      push_cast
      ring
  | succ k ih =>
      rw [copyLoop] at hloop
      simp only [Option.bind_eq_bind, Option.bind_eq_some_iff] at hloop
      obtain ⟨ns₁, hns₁, ⟨m, noquote'⟩, hm, c, hc, y, hy, ns₂, hns₂, hloop⟩ := hloop
      obtain rfl : m = some c := hc
      have hdone₁ := hdone.extend hns₁ hrep
      have h₁ := h.drop (Nat.le_add_right s token.length) hs
      obtain ⟨hsc, hce⟩ := nextMatch_bounds h₁ hm
      have hgap := h₁.nulFree.mono (Int.le_refl _)
        (show ((s + token.length : ℕ) : ℤ) + ((c : ℤ) - (s + token.length : ℕ)) ≤ e by omega)
      have hdone₂ : NulFree ns₂ 0 (t + rep.length + (c - (s + token.length)) : ℕ) := by
        convert (hdone₁.storeBytes_outside hns₂ (.inl (Int.le_refl _))).append
          (hgap.copy_self hy hns₂ (Int.le_refl _)) using 1
        omega
      obtain ⟨hlen₂, hdone₃⟩ := ih hdone₂ (h₁.drop hsc (by omega)) hce hloop
      refine ⟨by rw [hlen₂, length_storeBytes hns₂, length_storeBytes hns₁], ?_⟩
      convert hdone₃ using 1
      push_cast
      rw [Nat.cast_sub hsc]
      push_cast
      ring

end Swig.DOH
