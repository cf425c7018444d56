import Swig.DOH.ReplaceBounds

/-!
`replace_simple` with a replacement no longer than its token returns: its
searches stay in front of the terminator, and every round takes it further.
-/

namespace Swig.DOH

open ByteBlock

variable {r : MatchRule} {b : Block} {token rep : List Byte} {fuel s e : ℕ}

/-! ### Accesses -/

theorem findByte_returns (h : EndsAt b s e) (p : Byte → Bool) : ∃ m, findByte p b s = some m := by
  rw [findByte, h.cstring]
  exact ⟨_, rfl⟩

theorem strstr_returns (h : EndsAt b s e) (token : List Byte) : ∃ m, strstr b s token = some m := by
  rw [strstr, h.cstring]
  exact ⟨_, rfl⟩

theorem endsAt_lt (h : EndsAt b s e) : e < b.length := (List.getElem?_eq_some_iff.mp h.terminator).1

theorem storeBytes_returns {y : List Byte} {i : ℤ} (hi : 0 ≤ i) (hle : i + y.length ≤ b.length) :
    ∃ b', storeBytes b i y = some b' := by
  rw [storeBytes]
  split
  · exact ⟨_, rfl⟩
  · exact ⟨_, if_pos ⟨hi, hle⟩⟩

theorem memmove_returns {dst src n : ℤ} (hdst : 0 ≤ dst) (hle : dst ≤ src) (hn : 0 ≤ n)
    (hend : src + n ≤ b.length) :
    ∃ b', memmove b dst src n = some b' := by
  have hload : ∃ y, loadBytes b src n = some y := by
    rw [loadBytes]
    split
    · exact ⟨_, rfl⟩
    · exact ⟨_, if_pos (by omega)⟩
  obtain ⟨y, hy⟩ := hload
  have hlen := (getElem?_loadBytes hy).1
  rw [memmove, hy, Option.bind_some]
  exact storeBytes_returns hdst (by omega)

theorem identBefore_returns {k : ℕ} (hk : k < b.length) : ∃ left, identBefore b k = some left := by
  rw [identBefore]
  split
  · obtain ⟨v, hv⟩ := load_of_lt (b := b) (i := (k - 1 : ℕ)) (by omega) (by omega)
    rw [hv]
    exact ⟨_, rfl⟩
  · exact ⟨_, rfl⟩

theorem identAt_returns {k : ℕ} (hk : k < b.length) : ∃ right, identAt b k = some right := by
  obtain ⟨v, hv⟩ := load_of_lt (b := b) (i := (k : ℕ)) (by omega) (by omega)
  rw [identAt, hv]
  exact ⟨_, rfl⟩

/-! ### The searches -/

theorem matchToken_returns (htoken : token ≠ []) (h : EndsAt b s e) (hfuel : e - s < fuel) :
    ∃ m, matchToken r b token fuel s = some m := by
  have hlen := List.length_pos_of_ne_nil htoken
  have hlt := endsAt_lt h
  induction fuel generalizing s with
  | zero => omega
  | succ fuel ih =>
      obtain ⟨m, hm⟩ := strstr_returns h token
      rw [matchToken, hm]
      cases m with
      | none => exact ⟨_, rfl⟩
      | some k =>
          obtain ⟨hsk, hke⟩ := h.strstr hm
          have hskip := ih (h.drop (show s ≤ k + token.length by omega) hke) (by omega)
          obtain ⟨left, hleft⟩ := identBefore_returns (show k < b.length by omega)
          obtain ⟨right, hright⟩ := identAt_returns (show k + token.length < b.length by omega)
          simp only [Option.bind_eq_bind, Option.bind_some, hleft, hright]
          cases r.left && left with
          | true => exact hskip
          | false =>
              cases r.right && right with
              | true => exact hskip
              | false => exact ⟨_, rfl⟩

theorem endQuote_returns (h : EndsAt b s e) (hs : s < e) {qs : ℕ} (hqs : qs < b.length) (hfuel : e - s ≤ fuel) :
    ∃ m, endQuote b qs fuel s = some m := by
  have hlt := endsAt_lt h
  induction fuel generalizing s with
  | zero => omega
  | succ fuel ih =>
      -- the quote ends the string, or the search goes on behind it
      have hend {q : ℕ} (hsq : s < q) (hqe : q < e) : ∃ m, endQuote.endAt b qs fuel q = some m := by
        obtain ⟨c, hc⟩ := load_of_lt (b := b) (i := (q : ℕ)) (by omega) (by omega)
        obtain ⟨d, hd⟩ := load_of_lt (b := b) (i := (qs : ℕ)) (by omega) (by omega)
        obtain ⟨f, hf⟩ := load_of_lt (b := b) (i := (q - 1 : ℕ)) (by omega) (by omega)
        rw [endQuote.endAt, hc, hd, hf]
        simp only [Option.bind_eq_bind, Option.bind_some]
        split
        · exact ⟨_, rfl⟩
        · exact ih (h.drop (by omega) (by omega)) hqe (by omega)
      have hdrop : EndsAt b (s + 1) e := h.drop (by omega) hs
      obtain ⟨q, hq⟩ := findByte_returns hdrop isQuote
      obtain ⟨nl, hnl⟩ := findByte_returns hdrop (· == chr '\n')
      rw [endQuote, hq, hnl]
      cases q with
      | none => cases nl <;> exact ⟨_, rfl⟩
      | some q =>
          have hqe := hdrop.findByte hq
          cases nl with
          | none => exact hend (by omega) hqe.2
          | some nl =>
              have hnle := hdrop.findByte hnl
              simp only [Option.bind_eq_bind, Option.bind_some]
              split
              · obtain ⟨c, hc⟩ := load_of_lt (b := b) (i := (nl - 1 : ℕ)) (by omega) (by omega)
                rw [hc, Option.bind_some]
                split
                · exact ih (h.drop (by omega) (by omega)) (by omega) (by omega)
                · exact ⟨_, rfl⟩
              · exact hend (by omega) hqe.2

theorem skipQuoted_returns (htoken : token ≠ []) (h : EndsAt b s e) {q : ℕ} (hsq : s ≤ q) (hqe : q < e)
    (m : Option ℕ) (hfuel : e - q ≤ fuel) : ∃ p, skipQuoted r b token fuel q m = some p := by
  have hlt := endsAt_lt h
  induction fuel generalizing q m with
  | zero => omega
  | succ fuel ih =>
      cases m with
      | none => exact ⟨_, rfl⟩
      | some c =>
          rw [skipQuoted]
          split
          · have hq : EndsAt b q e := h.drop hsq (by omega)
            obtain ⟨q2, hq2⟩ := endQuote_returns hq hqe (show q < b.length by omega)
              (show e - q ≤ b.length by omega)
            rw [hq2]
            simp only [Option.bind_eq_bind, Option.bind_some]
            cases q2 with
            | none => exact ⟨_, rfl⟩
            | some q2 =>
                have hq2e := endQuote_bounds hq hqe hqe hq2
                have hnext : EndsAt b (q2 + 1) e := h.drop (by omega) (by omega)
                obtain ⟨c', hc'⟩ : ∃ c', (if q2 > c then matchToken r b token b.length (q2 + 1)
                    else some (some c)) = some c' := by
                  split
                  · exact matchToken_returns htoken hnext (by omega)
                  · exact ⟨_, rfl⟩
                dsimp only
                rw [hc', Option.bind_some]
                cases c' with
                | none => exact ⟨_, rfl⟩
                | some c' =>
                    obtain ⟨q3, hq3⟩ := findByte_returns hnext isQuote
                    dsimp only
                    rw [hq3, Option.bind_some]
                    cases q3 with
                    | none => exact ⟨_, rfl⟩
                    | some q3 =>
                        have hq3e := hnext.findByte hq3
                        exact ih (by omega) hq3e.2 _ (by omega)
          · exact ⟨_, rfl⟩

theorem nextMatch_returns (htoken : token ≠ []) (h : EndsAt b s e) (noquote : Bool) :
    ∃ p, nextMatch r b token noquote s = some p := by
  have hlt := endsAt_lt h
  obtain ⟨c, hc⟩ := matchToken_returns (r := r) htoken h (show e - s < b.length by omega)
  rw [nextMatch, hc]
  simp only [Option.bind_eq_bind, Option.bind_some]
  split
  · obtain ⟨q, hq⟩ := findByte_returns h isQuote
    rw [hq, Option.bind_some]
    cases q with
    | none => exact ⟨_, rfl⟩
    | some q =>
        have hqe := h.findByte hq
        exact skipQuoted_returns htoken h hqe.1 hqe.2 c (by omega)
  · exact ⟨_, rfl⟩

/-! ### The loop -/

theorem shrinkLoop_returns (htoken : token ≠ []) (hle : rep.length ≤ token.length) {t : ℕ} {len : ℤ}
    (h : EndsAt b s e) (hs : s + token.length ≤ e) (hts : t ≤ s) (hlen : e ≤ len) (hblock : len < b.length)
    (once noquote : Bool) (hfuel : e - s ≤ fuel) :
    ∃ b' n, shrinkLoop r token rep len once fuel b t s noquote = some (b', n) ∧
      b'.length = b.length ∧ 1 ≤ n ∧ n * token.length ≤ e - s := by
  have hpos := List.length_pos_of_ne_nil htoken
  induction fuel generalizing b t s noquote with
  | zero => omega
  | succ fuel ih =>
      obtain ⟨b₁, hb₁⟩ := storeBytes_returns (b := b) (y := rep) (i := t) (by omega) (by omega)
      have hlen₁ := length_storeBytes hb₁
      have h₁ : EndsAt b₁ (s + token.length) e := (h.drop (by omega) hs).storeBytes_below hb₁ (by omega)
      -- the text up to the end, or up to the next match, moves up
      have hmove {n : ℤ} (hn : 0 ≤ n) (hend : (s + token.length : ℕ) + n ≤ b.length) :
          ∃ b₂, (if rep.length < token.length then memmove b₁ (t + rep.length : ℕ) (s + token.length : ℕ) n
            else some b₁) = some b₂ ∧ b₂.length = b.length := by
        split
        · have hdst : (0 : ℤ) ≤ (t + rep.length : ℕ) := Int.natCast_nonneg _
          have hsrc : ((t + rep.length : ℕ) : ℤ) ≤ (s + token.length : ℕ) := by omega
          obtain ⟨b₂, hb₂⟩ := memmove_returns (b := b₁) hdst hsrc hn (by omega)
          exact ⟨b₂, hb₂, by rw [length_memmove hb₂, hlen₁]⟩
        · exact ⟨b₁, rfl, hlen₁⟩
      obtain ⟨b₂, hb₂, hlen₂⟩ := hmove (n := len - (s + token.length : ℕ) + 1) (by omega) (by omega)
      rw [shrinkLoop, hb₁]
      simp only [Option.bind_eq_bind, Option.bind_some]
      split
      · rw [hb₂]
        exact ⟨b₂, 1, rfl, hlen₂, le_rfl, by omega⟩
      · obtain ⟨⟨m, noquote'⟩, hm⟩ := nextMatch_returns (r := r) htoken h₁ noquote
        rw [hm, Option.bind_some]
        cases m with
        | none =>
            dsimp only
            rw [hb₂]
            exact ⟨b₂, 1, rfl, hlen₂, le_rfl, by omega⟩
        | some c =>
            obtain ⟨hsc, hce⟩ := nextMatch_bounds h₁ hm
            obtain ⟨b₃, hb₃, hlen₃⟩ := hmove (n := (c : ℤ) - (s + token.length : ℕ)) (by omega) (by omega)
            have h₃ : EndsAt b₃ c e := by
              split at hb₃
              · exact (h₁.drop hsc (by omega)).memmove_below hb₃ (by omega)
              · cases hb₃
                exact h₁.drop hsc (by omega)
            obtain ⟨b', n, hloop, hlen', hpos', hn⟩ := ih (t := t + rep.length + (c - (s + token.length))) h₃ hce
              (by omega) (by omega) noquote' (by omega)
            dsimp only
            rw [hb₃]
            simp only [Option.bind_some]
            rw [hloop]
            refine ⟨b', n + 1, rfl, by rw [hlen', hlen₃], by omega, ?_⟩
            rw [Nat.add_mul, Nat.one_mul]
            omega

/-! ### Texts -/

def DOH_REPLACE_ANY : ℕ := 0x01

/-- A string object with the text. -/
def ofText (txt : List Byte) : DohString :=
  { line := 1, maxsize := txt.length + 1, len := txt.length, hashkey := -1, sp := 0, str := txt ++ [0] }

/-- `Replace` on a text; `none` is an access outside of the buffer. -/
def replaceText (txt token rep : List Byte) (flags : ℕ) : Option (List Byte) :=
  ((ofText txt).replace (fun _ => 0) token rep flags).map fun r => r.2.str.take r.2.len.toNat

theorem exists_endsAt_text (txt : List Byte) : ∃ e, EndsAt (txt ++ [0]) 0 e ∧ e ≤ txt.length := by
  have hsplit := List.takeWhile_append_dropWhile (p := (· != 0)) (l := txt ++ [0])
  have hne : (txt ++ [0]).dropWhile (· != 0) ≠ [] := by
    intro hnil
    have hall := List.dropWhile_eq_nil_iff.mp hnil 0 (List.mem_append_right txt List.mem_cons_self)
    exact absurd hall (by decide)
  have hlen : ((txt ++ [0]).takeWhile (· != 0)).length + ((txt ++ [0]).dropWhile (· != 0)).length =
      txt.length + 1 := by
    rw [← List.length_append, hsplit, List.length_append, List.length_singleton]
  have hpos := List.length_pos_of_ne_nil hne
  have hlt : ((txt ++ [0]).takeWhile (· != 0)).length < (txt ++ [0]).length := by
    rw [List.length_append, List.length_singleton]
    omega
  have hle : 0 + ((txt ++ [0]).takeWhile (· != 0)).length ≤ txt.length := by omega
  have hstring : cstring (txt ++ [0]) 0 = some ((txt ++ [0]).takeWhile (· != 0)) := by
    rw [cstring, List.drop_zero]
    exact if_pos hlt
  exact ⟨_, EndsAt.of_cstring hstring, hle⟩

/-- The text that is left is in the buffer, and shorter by every replacement. -/
theorem replaceInPlace_returns (htoken : token ≠ []) (hle : rep.length ≤ token.length) {txt : List Byte}
    (h : EndsAt (txt ++ [0]) s e) (he : e ≤ txt.length) (hs : s + token.length ≤ e) (once noquote : Bool) :
    ∃ p, (ofText txt).replaceInPlace r token rep once s noquote = some p ∧
      ∃ n : ℕ, 1 ≤ n ∧
        (p.2.str.take p.2.len.toNat).length + n * token.length = txt.length + n * rep.length := by
  have hblock : (txt ++ [0]).length = txt.length + 1 := List.length_append
  obtain ⟨b, n, hloop, hlen, hpos, hn⟩ := shrinkLoop_returns (r := r) (t := s) htoken hle h hs le_rfl
    (show (e : ℤ) ≤ txt.length by omega) (by omega) once noquote (show e - s ≤ (txt ++ [0]).length by omega)
  have hless : n * rep.length ≤ n * token.length := Nat.mul_le_mul_left n hle
  have hexpand : (txt.length : ℤ) + ((rep.length : ℤ) - token.length) * n =
      (txt.length + n * rep.length - n * token.length : ℕ) := by
    rw [Nat.cast_sub (by omega)]
    push_cast
    ring
  obtain ⟨b', hb'⟩ : ∃ b', store b (txt.length + ((rep.length : ℤ) - token.length) * n) 0 = some b' := by
    rw [store, hexpand]
    exact ⟨_, if_pos (by omega)⟩
  rw [DohString.replaceInPlace]
  simp only [ofText, hloop, hb', Option.bind_eq_bind, Option.bind_some]
  refine ⟨_, rfl, n, hpos, ?_⟩
  dsimp only
  rw [List.length_take, length_store hb', hexpand, Int.toNat_natCast]
  omega

theorem replaceSimple_returns (txt : List Byte) (hle : rep.length ≤ token.length) (noquote once : Bool)
    (r : MatchRule) :
    ∃ p, (ofText txt).replaceSimple (fun _ => 0) token rep noquote once r = some p := by
  obtain ⟨e, h, he⟩ := exists_endsAt_text txt
  have hblock : (txt ++ [0]).length = txt.length + 1 := List.length_append
  rw [DohString.replaceSimple]
  split
  · exact ⟨_, rfl⟩
  · rename_i htoken
    obtain ⟨m, hm⟩ := matchToken_returns (r := r) htoken h (show e - 0 < (txt ++ [0]).length by omega)
    obtain ⟨⟨first, noquote'⟩, hnext⟩ := nextMatch_returns (r := r) htoken h noquote
    simp only [ofText, Option.bind_eq_bind, hm, Option.bind_some]
    cases m with
    | none => exact ⟨_, rfl⟩
    | some c =>
        dsimp only
        rw [hnext, Option.bind_some]
        cases first with
        | none => exact ⟨_, rfl⟩
        | some c =>
            obtain ⟨-, hce⟩ := nextMatch_bounds h hnext
            obtain ⟨p, hp, -⟩ := replaceInPlace_returns (r := r) htoken hle (h.drop (Nat.zero_le c) (by omega)) he
              hce once noquote'
            exact ⟨p, hp⟩

theorem replaceText_returns (txt : List Byte) (hle : rep.length ≤ token.length) (flags : ℕ) :
    ∃ txt', replaceText txt token rep flags = some txt' := by
  have hsimple (r : MatchRule) := replaceSimple_returns txt hle
    (decide (flags &&& DOH_REPLACE_NOQUOTE ≠ 0)) (decide (flags &&& DOH_REPLACE_FIRST ≠ 0)) r
  have hreplace : ∃ p, (ofText txt).replace (fun _ => 0) token rep flags = some p := by
    rw [DohString.replace]
    split
    · exact hsimple _
    · split
      · exact hsimple _
      · split
        · exact hsimple _
        · exact hsimple _
  obtain ⟨p, hp⟩ := hreplace
  rw [replaceText, hp]
  exact ⟨_, rfl⟩

theorem matchToken_simple (h : EndsAt b s e) {c : ℕ} (hc : strstr b s token = some (some c)) (fuel : ℕ) :
    matchToken match_simple b token (fuel + 1) s = some (some c) := by
  have hce := (h.strstr hc).2
  have hlt := endsAt_lt h
  obtain ⟨left, hleft⟩ := identBefore_returns (show c < b.length by omega)
  obtain ⟨right, hright⟩ := identAt_returns (show c + token.length < b.length by omega)
  rw [matchToken, hc]
  simp only [Option.bind_eq_bind, Option.bind_some, hleft, hright]
  rfl

/-- A text with the token in it gets shorter. -/
theorem replaceText_shorter {txt txt' : List Byte} (hlt : rep.length < token.length) {c : ℕ}
    (hc : strstr (txt ++ [0]) 0 token = some (some c))
    (h : replaceText txt token rep DOH_REPLACE_ANY = some txt') : txt'.length < txt.length := by
  obtain ⟨e, hends, he⟩ := exists_endsAt_text txt
  have htoken : token ≠ [] := by
    rintro rfl
    exact Nat.not_lt_zero _ hlt
  have hce := (hends.strstr hc).2
  have hfuel : (ofText txt).str.length = txt.length + 1 := List.length_append
  have hmatch : matchToken match_simple (ofText txt).str token (ofText txt).str.length 0 = some (some c) := by
    rw [hfuel]
    exact matchToken_simple hends hc _
  have hnext : nextMatch match_simple (ofText txt).str token false 0 = some (some c, false) := by
    rw [nextMatch, hmatch]
    rfl
  obtain ⟨p, hp, n, hn, hlen⟩ := replaceInPlace_returns (r := match_simple) htoken hlt.le
    (hends.drop (Nat.zero_le c) (by omega)) he hce false false
  have hreplace : (ofText txt).replace (fun _ => 0) token rep DOH_REPLACE_ANY = some p := by
    have hsimple : (ofText txt).replace (fun _ => 0) token rep DOH_REPLACE_ANY =
        (ofText txt).replaceSimple (fun _ => 0) token rep false false match_simple := rfl
    rw [hsimple, DohString.replaceSimple, if_neg htoken, hmatch]
    simp only [Option.bind_eq_bind, Option.bind_some]
    rw [hnext, Option.bind_some]
    dsimp only
    rw [if_pos hlt.le]
    exact hp
  rw [replaceText, hreplace] at h
  have htxt : p.2.str.take p.2.len.toNat = txt' := Option.some.inj h
  rw [← htxt]
  have hless : n * rep.length < n * token.length := Nat.mul_lt_mul_of_pos_left hlt hn
  omega

end Swig.DOH
