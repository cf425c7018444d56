import Swig.DOH.ReplaceReturns
import Swig.DOH.StringHeap
import Mathlib.Algebra.Order.Ring.Int
import Mathlib.Tactic.LinearCombination

/-!
What `String_replace` makes of a text where it does not look at quotes: the tokens are
replaced from the front, and both branches of `replace_simple` agree on which.
-/

namespace Swig.DOH

open ByteBlock

variable {r : MatchRule} {b : Block} {token rep u v txt tail : List Byte} {once left : Bool} {fuel s t : ℕ}

/-! ### The text -/

/-- The byte in front is one of an identifier, behind the bytes `u`. -/
def identAfter (left : Bool) (u : List Byte) : Bool := (u.getLast?.map isIdent).getD left

/-- A byte beside a token keeps it from being replaced. -/
def MatchRule.refuses (r : MatchRule) (left : Bool) (rest : List Byte) : Bool :=
  r.left && left || r.right && rest.head?.any isIdent

/-- What the next match sees in front of it: a replacement of the length of the token is
written over it. -/
def overwritten (token rep : List Byte) : List Byte := if rep.length = token.length then rep else token

/-- The number of replacements and the text with them; `left` says whether a byte of an
identifier stands in front of the text. -/
def replacedLoop (r : MatchRule) (token rep : List Byte) (once : Bool) : (fuel : ℕ) → Bool → List Byte → ℕ × List Byte
  | 0, _, txt => (0, txt)
  | _ + 1, _, [] => (0, [])
  | fuel + 1, left, c :: cs =>
      if token.isPrefixOf (c :: cs) then
        let rest := (c :: cs).drop token.length
        if r.refuses left rest then
          let p := replacedLoop r token rep once fuel (identAfter left token) rest
          (p.1, token ++ p.2)
        else if once then (1, rep ++ rest)
        else
          let p := replacedLoop r token rep once fuel (identAfter left (overwritten token rep)) rest
          (p.1 + 1, rep ++ p.2)
      else
        let p := replacedLoop r token rep once fuel (isIdent c) cs
        (p.1, c :: p.2)

def replaced (r : MatchRule) (token rep : List Byte) (once left : Bool) (txt : List Byte) : ℕ × List Byte :=
  replacedLoop r token rep once txt.length left txt

theorem identAfter_nil (left : Bool) : identAfter left [] = left := rfl

theorem identAfter_append (left : Bool) (u v : List Byte) :
    identAfter left (u ++ v) = identAfter (identAfter left u) v := by
  rw [identAfter, identAfter, identAfter, List.getLast?_append]
  cases v.getLast? <;> rfl

theorem identAfter_of_ne_nil (h : u ≠ []) (left left' : Bool) : identAfter left u = identAfter left' u := by
  rw [identAfter, identAfter, List.getLast?_eq_some_getLast h]
  rfl

theorem overwritten_ne_nil (h : token ≠ []) (rep : List Byte) : overwritten token rep ≠ [] := by
  rw [overwritten]
  split
  · rintro rfl
    exact h (List.eq_nil_of_length_eq_zero (by simp_all))
  · exact h

theorem replacedLoop_eq (htoken : token ≠ []) (left : Bool) (txt : List Byte) {n m : ℕ} (hn : txt.length ≤ n)
    (hm : txt.length ≤ m) : replacedLoop r token rep once n left txt = replacedLoop r token rep once m left txt := by
  have hpos := List.length_pos_of_ne_nil htoken
  induction n generalizing m left txt with
  | zero =>
      obtain rfl := List.eq_nil_of_length_eq_zero (Nat.le_zero.mp hn)
      cases m <;> rfl
  | succ n ih =>
      cases txt with
      | nil => cases m <;> rfl
      | cons c cs =>
          rw [List.length_cons] at hn hm
          obtain ⟨m, rfl⟩ := Nat.exists_eq_add_of_le' (Nat.one_le_of_lt (Nat.lt_of_succ_le hm))
          have hrest : ((c :: cs).drop token.length).length ≤ cs.length := by
            rw [List.length_drop, List.length_cons]
            omega
          simp only [replacedLoop]
          rw [ih (isIdent c) cs (m := m) (by omega) (by omega),
            ih (identAfter left token) ((c :: cs).drop token.length) (m := m) (by omega) (by omega),
            ih (identAfter left (overwritten token rep)) ((c :: cs).drop token.length) (m := m) (by omega) (by omega)]

theorem replaced_nil (r : MatchRule) (token rep : List Byte) (once left : Bool) :
    replaced r token rep once left [] = (0, []) := rfl

/-- A byte where no token begins. -/
theorem replaced_cons {c : Byte} {cs : List Byte} (h : ¬token <+: c :: cs) :
    replaced r token rep once left (c :: cs) =
      ((replaced r token rep once (isIdent c) cs).1, c :: (replaced r token rep once (isIdent c) cs).2) := by
  rw [replaced, List.length_cons, replacedLoop, if_neg (by rwa [List.isPrefixOf_iff_prefix])]
  rfl

theorem replacedLoop_token (r : MatchRule) (rep : List Byte) (once left : Bool) (htoken : token ≠ [])
    (v : List Byte) : ∃ n, v.length ≤ n ∧
    replaced r token rep once left (token ++ v) =
      if r.refuses left v then
        let p := replacedLoop r token rep once n (identAfter left token) v
        (p.1, token ++ p.2)
      else if once then (1, rep ++ v)
      else
        let p := replacedLoop r token rep once n (identAfter left (overwritten token rep)) v
        (p.1 + 1, rep ++ p.2) := by
  obtain ⟨c, cs, rfl⟩ := List.exists_cons_of_ne_nil htoken
  refine ⟨(cs ++ v).length, by rw [List.length_append]; omega, ?_⟩
  have hprefix : (c :: cs).isPrefixOf (c :: (cs ++ v)) :=
    List.isPrefixOf_iff_prefix.mpr (List.prefix_append (c :: cs) v)
  have hdrop : (c :: cs ++ v).drop (c :: cs).length = v := List.drop_left
  rw [replaced, List.cons_append, List.length_cons, replacedLoop, if_pos hprefix]
  dsimp only
  rw [← List.cons_append, hdrop]

/-- A token that stays. -/
theorem replaced_refused (rep : List Byte) (once : Bool) (htoken : token ≠ []) (h : r.refuses left v = true) :
    replaced r token rep once left (token ++ v) =
      ((replaced r token rep once (identAfter left token) v).1,
        token ++ (replaced r token rep once (identAfter left token) v).2) := by
  obtain ⟨n, hn, heq⟩ := replacedLoop_token r rep once left htoken v
  rw [heq, if_pos h]
  dsimp only
  rw [replaced, replacedLoop_eq htoken _ v hn (Nat.le_refl _)]

theorem replaced_once (htoken : token ≠ []) (h : r.refuses left v = false) :
    replaced r token rep true left (token ++ v) = (1, rep ++ v) := by
  obtain ⟨n, -, heq⟩ := replacedLoop_token r rep true left htoken v
  rw [heq, h]
  rfl

/-- A token that is replaced. -/
theorem replaced_token (htoken : token ≠ []) (h : r.refuses left v = false) :
    replaced r token rep false left (token ++ v) =
      ((replaced r token rep false (identAfter left (overwritten token rep)) v).1 + 1,
        rep ++ (replaced r token rep false (identAfter left (overwritten token rep)) v).2) := by
  obtain ⟨n, hn, heq⟩ := replacedLoop_token r rep false left htoken v
  rw [heq, h, if_neg Bool.false_ne_true, if_neg Bool.false_ne_true]
  dsimp only
  rw [replaced, replacedLoop_eq htoken _ v hn (Nat.le_refl _)]

/-- Bytes in front of the first token. -/
theorem replaced_append (r : MatchRule) (rep : List Byte) (once left : Bool)
    (h : ∀ i < u.length, ¬Occurs token (u ++ v) i) :
    replaced r token rep once left (u ++ v) =
      ((replaced r token rep once (identAfter left u) v).1,
        u ++ (replaced r token rep once (identAfter left u) v).2) := by
  induction u generalizing left with
  | nil => rfl
  | cons c u ih =>
      have hfirst : ¬token <+: c :: (u ++ v) := h 0 (Nat.succ_pos _)
      have hrest := ih (isIdent c) fun i hi hocc => h (i + 1) (Nat.succ_lt_succ hi) hocc
      rw [List.cons_append, replaced_cons hfirst, hrest, show c :: u = [c] ++ u from rfl, identAfter_append]
      rfl

theorem replaced_length (r : MatchRule) (rep : List Byte) (htoken : token ≠ []) (left : Bool) (txt : List Byte) :
    (replaced r token rep false left txt).2.length + (replaced r token rep false left txt).1 * token.length =
      txt.length + (replaced r token rep false left txt).1 * rep.length := by
  have hpos := List.length_pos_of_ne_nil htoken
  obtain ⟨n, hn⟩ : ∃ n, txt.length = n := ⟨_, rfl⟩
  induction n using Nat.strong_induction_on generalizing left txt with
  | _ n ih =>
      cases txt with
      | nil => rw [replaced_nil, Nat.zero_mul, Nat.zero_mul]
      | cons c cs =>
          by_cases hpre : token <+: c :: cs
          · obtain ⟨v, hv⟩ := hpre
            have hlen := congrArg List.length hv
            rw [List.length_append] at hlen
            rw [← hv]
            cases hrefuse : r.refuses left v with
            | true =>
                have hrest := ih v.length (by omega) (identAfter left token) v rfl
                rw [replaced_refused rep false htoken hrefuse]
                simp only [List.length_append]
                omega
            | false =>
                have hrest := ih v.length (by omega) (identAfter left (overwritten token rep)) v rfl
                rw [replaced_token htoken hrefuse]
                simp only [List.length_append, Nat.add_mul, Nat.one_mul]
                omega
          · have hrest := ih cs.length (by rw [← hn, List.length_cons]; omega) (isIdent c) cs rfl
            rw [replaced_cons hpre]
            simp only [List.length_cons]
            omega

theorem mem_replaced (htoken : token ≠ []) {c : Byte} (hc : c ∈ (replaced r token rep false left txt).2) :
    c ∈ txt ∨ c ∈ rep := by
  have hpos := List.length_pos_of_ne_nil htoken
  obtain ⟨n, hn⟩ : ∃ n, txt.length = n := ⟨_, rfl⟩
  induction n using Nat.strong_induction_on generalizing left txt with
  | _ n ih =>
      cases txt with
      | nil => cases hc
      | cons d ds =>
          by_cases hpre : token <+: d :: ds
          · obtain ⟨v, hv⟩ := hpre
            have hlen := congrArg List.length hv
            rw [List.length_append] at hlen
            rw [← hv] at hc ⊢
            cases hrefuse : r.refuses left v with
            | true =>
                rw [replaced_refused rep false htoken hrefuse] at hc
                obtain hc | hc := List.mem_append.mp hc
                · exact .inl (List.mem_append_left _ hc)
                · exact (ih v.length (by omega) hc rfl).imp_left (List.mem_append_right _)
            | false =>
                rw [replaced_token htoken hrefuse] at hc
                obtain hc | hc := List.mem_append.mp hc
                · exact .inr hc
                · exact (ih v.length (by omega) hc rfl).imp_left (List.mem_append_right _)
          · rw [replaced_cons hpre] at hc
            obtain rfl | hc := List.mem_cons.mp hc
            · exact .inl List.mem_cons_self
            · exact (ih ds.length (by rw [← hn, List.length_cons]; omega) hc rfl).imp_left (List.mem_cons_of_mem d)

/-! ### The searches -/

theorem drop_behind {x y : Block} (h : b.drop s = x ++ y) : b.drop (s + x.length) = y := by
  rw [← List.drop_drop, h, List.drop_left]

theorem take_behind {x y : Block} (h : b.drop s = x ++ y) : b.take (s + x.length) = b.take s ++ x := by
  rw [List.take_add, h, List.take_left]

theorem isIdent_head (v tail : List Byte) : ((v ++ 0 :: tail).head?).map isIdent = some (v.head?.any isIdent) := by
  cases v with
  | nil => rfl
  | cons c v => rfl

theorem identAt_eq {k : ℕ} (h : b.drop k = v ++ 0 :: tail) : identAt b k = some (v.head?.any isIdent) := by
  have hload : load b k = (v ++ 0 :: tail).head? := by
    rw [← h, List.head?_drop]
    exact if_pos (Int.natCast_nonneg k)
  rw [identAt, hload, isIdent_head]

theorem identBefore_eq {k : ℕ} (h : k ≤ b.length) : identBefore b k = some (identAfter false (b.take k)) := by
  cases k with
  | zero => rfl
  | succ k =>
      have hload : load b (k + 1 - 1 : ℕ) = some b[k] := by
        rw [Nat.add_sub_cancel, load, if_pos (Int.natCast_nonneg k)]
        exact List.getElem?_eq_getElem (by omega)
      rw [identBefore, if_pos (Nat.succ_pos k), hload, List.take_succ_eq_append_getElem (by omega), identAfter_append]
      rfl

/-- What a search for the token from the start of a text returns. -/
inductive NextMatch (r : MatchRule) (token : List Byte) (left : Bool) (s : ℕ) (txt : List Byte) : Option ℕ → Prop
  | none (h : ∀ rep once, replaced r token rep once left txt = (0, txt)) : NextMatch r token left s txt none
  | some (u v : List Byte) (htxt : txt = u ++ (token ++ v))
      (honce : ∀ rep, replaced r token rep true left txt = (1, u ++ (rep ++ v)))
      (hall : ∀ rep, replaced r token rep false left txt =
        ((replaced r token rep false (identAfter false (overwritten token rep)) v).1 + 1,
          u ++ (rep ++ (replaced r token rep false (identAfter false (overwritten token rep)) v).2))) :
      NextMatch r token left s txt (some (s + u.length))

/-- The search goes on behind a token that stays. -/
theorem NextMatch.later (htoken : token ≠ []) (hu : ∀ i < u.length, ¬Occurs token (u ++ (token ++ v)) i)
    (hrefuse : r.refuses (identAfter left u) v = true) {m : Option ℕ}
    (h : NextMatch r token (identAfter false token) (s + u.length + token.length) v m) :
    NextMatch r token left s (u ++ (token ++ v)) m := by
  have hrest (rep : List Byte) (once : Bool) := replaced_append r rep once left hu
  have hskip (rep : List Byte) (once : Bool) :=
    replaced_refused rep once htoken hrefuse
  rw [identAfter_of_ne_nil htoken _ false] at hskip
  cases h with
  | none h =>
      refine .none fun rep once => ?_
      rw [hrest, hskip, h]
  | some u' v' htxt honce hall =>
      have hindex : s + u.length + token.length + u'.length = s + (u ++ (token ++ u')).length := by
        simp only [List.length_append]
        omega
      rw [hindex]
      refine .some _ v' ?_ (fun rep => ?_) fun rep => ?_
      · simp [htxt]
      · rw [hrest, hskip, honce]
        simp
      · rw [hrest, hskip, hall]
        simp

theorem matchToken_text (htoken : token ≠ []) (h : b.drop s = txt ++ 0 :: tail) (hnul : ∀ c ∈ txt, c ≠ 0)
    (hs : s ≤ b.length) (hfuel : txt.length < fuel) :
    ∃ m, matchToken r b token fuel s = some m ∧ NextMatch r token (identAfter false (b.take s)) s txt m := by
  induction fuel generalizing s txt with
  | zero => omega
  | succ fuel ih =>
      have hstrstr : strstr b s token = some ((indexOf token txt).map (s + ·)) := by
        rw [strstr, HasString.cstring ⟨⟨tail, h⟩, hnul⟩]
        rfl
      rw [matchToken, hstrstr]
      cases hindex : indexOf token txt with
      | none =>
          refine ⟨none, rfl, .none fun rep once => ?_⟩
          have hnone := (indexOf_spec token txt).2 hindex
          have happend := replaced_append r rep once (identAfter false (b.take s)) (u := txt) (v := [])
            fun i _ => by rw [List.append_nil]; exact hnone i
          rwa [List.append_nil, replaced_nil, List.append_nil] at happend
      | some k =>
          obtain ⟨hocc, hbefore⟩ := (indexOf_spec token txt).1 k hindex
          obtain ⟨v, hv⟩ := hocc
          have hk : (txt.take k).length = k := by
            have hle := indexOf_le hindex
            rw [List.length_take]
            omega
          obtain ⟨u, hu⟩ : ∃ u, txt.take k = u := ⟨_, rfl⟩
          have htxt : txt = u ++ (token ++ v) := by rw [hv, ← hu, List.take_append_drop]
          obtain rfl : u.length = k := hu ▸ hk
          subst htxt
          have hlen : b.length = s + (u ++ (token ++ v) ++ 0 :: tail).length := by
            rw [← h, List.length_drop]
            omega
          simp only [List.length_append, List.length_cons] at hlen hfuel
          have hpos := List.length_pos_of_ne_nil htoken
          have hu' : b.drop s = u ++ (token ++ (v ++ 0 :: tail)) := by simpa using h
          have hdrop : b.drop (s + u.length + token.length) = v ++ 0 :: tail := drop_behind (drop_behind hu')
          have htake : b.take (s + u.length) = b.take s ++ u := take_behind hu'
          have htake' : b.take (s + u.length + token.length) = b.take s ++ u ++ token := by
            rw [take_behind (drop_behind hu'), htake]
          have hleft := identBefore_eq (b := b) (k := s + u.length) (by omega)
          have hright := identAt_eq hdrop
          rw [htake, identAfter_append] at hleft
          have hskip := ih hdrop (fun c hc => hnul c (by simp [hc])) (by omega) (by omega)
          rw [htake', identAfter_append, identAfter_of_ne_nil htoken _ false] at hskip
          simp only [Option.bind_eq_bind, Option.map_some, Option.bind_some, hleft, hright]
          cases hrefuse : r.refuses (identAfter (identAfter false (b.take s)) u) v with
          | true =>
              obtain ⟨m, hm, hnext⟩ := hskip
              refine ⟨m, ?_, hnext.later htoken hbefore hrefuse⟩
              rw [MatchRule.refuses, Bool.or_eq_true] at hrefuse
              obtain hl | hr := hrefuse
              · rw [if_pos hl, hm]
              · rw [if_pos hr, hm]
                split <;> rfl
          | false =>
              obtain ⟨hl, hr⟩ := Bool.or_eq_false_iff.mp hrefuse
              rw [if_neg (by rw [hl]; exact Bool.false_ne_true), if_neg (by rw [hr]; exact Bool.false_ne_true)]
              refine ⟨_, rfl, .some u v rfl (fun rep => ?_) fun rep => ?_⟩
              · rw [replaced_append _ _ _ _ hbefore, replaced_once htoken hrefuse]
              · rw [replaced_append _ _ _ _ hbefore, replaced_token htoken hrefuse,
                  identAfter_of_ne_nil (overwritten_ne_nil htoken rep) _ false]

theorem nextMatch_text (htoken : token ≠ []) (h : b.drop s = txt ++ 0 :: tail) (hnul : ∀ c ∈ txt, c ≠ 0)
    (hs : s ≤ b.length) :
    ∃ m, nextMatch r b token false s = some (m, false) ∧ NextMatch r token (identAfter false (b.take s)) s txt m := by
  have hlen : txt.length < b.length := by
    have := congrArg List.length h
    simp only [List.length_drop, List.length_append, List.length_cons] at this
    omega
  obtain ⟨m, hm, hnext⟩ := matchToken_text (r := r) htoken h hnul hs hlen
  refine ⟨m, ?_, hnext⟩
  rw [nextMatch, hm]
  rfl

/-! ### Writing into a block -/

/-- The block with the bytes `y` from `i` on. -/
def splice (b : Block) (i : ℕ) (y : Block) : Block := b.take i ++ y ++ b.drop (i + y.length)

section Splice

variable {y : Block} {i k n : ℕ}

theorem length_splice (h : i + y.length ≤ b.length) : (splice b i y).length = b.length := by
  simp only [splice, List.length_append, List.length_take, List.length_drop]
  omega

theorem take_splice (h : i + y.length ≤ b.length) : (splice b i y).take (i + y.length) = b.take i ++ y := by
  have hlen : (b.take i ++ y).length = i + y.length := by
    rw [List.length_append, List.length_take]
    omega
  rw [splice, ← hlen, List.take_left]

theorem take_splice_of_le (h : i + y.length ≤ b.length) (hk : k ≤ i) : (splice b i y).take k = b.take k := by
  rw [splice, List.append_assoc, List.take_append_of_le_length (by rw [List.length_take]; omega), List.take_take,
    Nat.min_eq_left hk]

theorem drop_splice (h : i + y.length ≤ b.length) (hk : i + y.length ≤ k) : (splice b i y).drop k = b.drop k := by
  have hlen : (b.take i ++ y).length = i + y.length := by
    rw [List.length_append, List.length_take]
    omega
  obtain ⟨d, rfl⟩ := Nat.exists_eq_add_of_le hk
  rw [splice, ← List.drop_drop, ← hlen, List.drop_left, hlen, List.drop_drop]

theorem storeBytes_eq (h : i + y.length ≤ b.length) : storeBytes b i y = some (splice b i y) := by
  rw [storeBytes]
  split
  · rename_i hy
    rw [hy, splice, List.append_nil, List.length_nil, Nat.add_zero, List.take_append_drop]
  · rw [if_pos (by omega)]
    rfl

theorem loadBytes_eq (h : i + n ≤ b.length) : loadBytes b i n = some ((b.drop i).take n) := by
  rw [loadBytes]
  split
  · rename_i hn
    rw [Int.natCast_eq_zero.mp hn, List.take_zero]
  · rw [if_pos (by omega)]
    rfl

/-- The bytes `y` of a block moved to the front. -/
theorem memmove_eq {z : Block} (h : b.drop k = y ++ z) (hik : i ≤ k) (hk : k ≤ b.length) :
    memmove b i k y.length = some (splice b i y) := by
  have hlen : b.length = k + (y.length + z.length) := by
    rw [← List.length_append, ← h, List.length_drop]
    omega
  rw [memmove, loadBytes_eq (by omega), Option.bind_some, h, List.take_left, storeBytes_eq (by omega)]

end Splice

/-! ### The loops -/

/-- The number of the replacements behind one, and the text with them. -/
def replacedRest (r : MatchRule) (token rep : List Byte) (once : Bool) (v : List Byte) : ℕ × List Byte :=
  if once then (0, v) else replaced r token rep false (identAfter false (overwritten token rep)) v

/-- A round in place: the replacement is written, and the text behind the token moves up to it. -/
theorem shrinkRound_text {y z : Block} (hle : rep.length ≤ token.length) (h : b.drop s = token ++ (y ++ z))
    (hs : s ≤ b.length) (hts : t ≤ s) (heq : rep.length = token.length → t = s) :
    ∃ b', (if rep.length < token.length then
          memmove (splice b t rep) (t + rep.length : ℕ) (s + token.length : ℕ) y.length
        else some (splice b t rep)) = some b' ∧ b'.length = b.length ∧
      b'.take (t + rep.length + y.length) = b.take t ++ (rep ++ y) ∧ b'.drop (s + token.length + y.length) = z := by
  have hblock : b.length = s + (token.length + (y.length + z.length)) := by
    rw [← List.length_append, ← List.length_append, ← h, List.length_drop]
    omega
  have hrep : t + rep.length ≤ b.length := by omega
  have hlen := length_splice hrep
  have hdrop : (splice b t rep).drop (s + token.length) = y ++ z := by
    rw [drop_splice hrep (by omega)]
    exact drop_behind h
  split
  · have hy : t + rep.length + y.length ≤ (splice b t rep).length := by omega
    refine ⟨_, memmove_eq hdrop (by omega) (by omega), (length_splice hy).trans hlen, ?_, ?_⟩
    · rw [take_splice hy, take_splice hrep, List.append_assoc]
    · rw [drop_splice hy (by omega)]
      exact drop_behind hdrop
  · have hsame : rep.length = token.length := by omega
    obtain rfl := heq hsame
    refine ⟨_, rfl, hlen, ?_, drop_behind hdrop⟩
    rw [hsame, take_behind hdrop, ← hsame, take_splice hrep, List.append_assoc]

/-- What the next match sees in front of it. -/
theorem identAfter_splice (htoken : token ≠ []) (hle : rep.length ≤ token.length) (h : b.drop s = token ++ v)
    (hs : s ≤ b.length) (hts : t ≤ s) (heq : rep.length = token.length → t = s) :
    identAfter false ((splice b t rep).take (s + token.length)) = identAfter false (overwritten token rep) := by
  have hblock : b.length = s + (token.length + v.length) := by
    rw [← List.length_append, ← h, List.length_drop]
    omega
  have hrep : t + rep.length ≤ b.length := by omega
  rw [overwritten]
  split
  · rename_i hsame
    obtain rfl := heq hsame
    rw [← hsame, take_splice hrep, identAfter_append]
    refine identAfter_of_ne_nil (fun hnil => ?_) _ _
    rw [hnil] at hsame
    exact htoken (List.eq_nil_of_length_eq_zero hsame.symm)
  · -- the last byte of the token is still there
    obtain ⟨token, c, rfl⟩ := List.eq_nil_or_concat' token |>.resolve_left htoken
    rw [List.append_assoc] at h
    have hlast : (splice b t rep).drop (s + token.length) = [c] ++ v := by
      rw [List.length_append, List.length_singleton] at hle
      rw [drop_splice hrep (by simp only [List.length_append, List.length_singleton] at *; omega)]
      exact drop_behind h
    rw [List.length_append, ← Nat.add_assoc, take_behind hlast, identAfter_append, identAfter_append]
    rfl

/-- In place: the text in front of `t` is done, that from the match at `s` on is still to be
read. -/
theorem shrinkLoop_text (r : MatchRule) (once : Bool) (len : ℤ) (fuel : ℕ) (htoken : token ≠ [])
    (hle : rep.length ≤ token.length) (h : b.drop s = token ++ (v ++ 0 :: tail)) (hnul : ∀ c ∈ v, c ≠ 0)
    (hs : s ≤ b.length) (hts : t ≤ s) (heq : rep.length = token.length → t = s)
    (hlen : len = (s + token.length + v.length : ℕ)) (hfuel : v.length < fuel) :
    ∃ b', shrinkLoop r token rep len once fuel b t s false = some (b', (replacedRest r token rep once v).1 + 1) ∧
      b'.length = b.length ∧
        b'.take (t + rep.length + (replacedRest r token rep once v).2.length) =
          b.take t ++ (rep ++ (replacedRest r token rep once v).2) := by
  have hpos := List.length_pos_of_ne_nil htoken
  induction fuel generalizing b t s v with
  | zero => omega
  | succ fuel ih =>
      have hblock : b.length = s + (token.length + (v.length + (tail.length + 1))) := by
        rw [← List.length_cons, ← List.length_append, ← List.length_append, ← h, List.length_drop]
        omega
      have hrep : t + rep.length ≤ b.length := by omega
      have hstore : storeBytes b t rep = some (splice b t rep) := storeBytes_eq hrep
      have hdrop : (splice b t rep).drop (s + token.length) = v ++ 0 :: tail := by
        rw [drop_splice hrep (by omega)]
        exact drop_behind h
      rw [shrinkLoop, hstore]
      simp only [Option.bind_eq_bind, Option.bind_some]
      -- the rest of the text, with its terminator
      have hend : b.drop s = token ++ ((v ++ [0]) ++ tail) := by rw [h, List.append_assoc]; rfl
      obtain ⟨b₂, hb₂, hlen₂, htake₂, -⟩ := shrinkRound_text hle hend hs hts heq
      have hsize : len - (s + token.length : ℕ) + 1 = ((v ++ [0]).length : ℕ) := by
        rw [hlen, List.length_append, List.length_singleton]
        omega
      have hlast : b₂.take (t + rep.length + v.length) = b.take t ++ (rep ++ v) := by
        have := congrArg (List.take (t + rep.length + v.length)) htake₂
        rw [List.take_take, List.length_append, Nat.min_eq_left (by omega)] at this
        rw [this, ← List.append_assoc, ← List.append_assoc, ← List.append_assoc]
        refine List.take_left' ?_
        simp only [List.length_append, List.length_take]
        omega
      cases once with
      | true =>
          rw [if_pos rfl, hsize, hb₂]
          exact ⟨b₂, rfl, hlen₂, hlast⟩
      | false =>
          obtain ⟨m, hm, hnext⟩ := nextMatch_text (r := r) htoken hdrop hnul (by rw [length_splice hrep]; omega)
          rw [identAfter_splice htoken hle h hs hts heq] at hnext
          rw [if_neg Bool.false_ne_true, hm]
          simp only [Option.bind_some, replacedRest, if_neg Bool.false_ne_true] at ih ⊢
          cases hnext with
          | none hall =>
              rw [hsize, hb₂, hall rep false]
              exact ⟨b₂, rfl, hlen₂, hlast⟩
          | some u v' htxt _ hall =>
              subst htxt
              have hround : b.drop s = token ++ (u ++ (token ++ (v' ++ 0 :: tail))) := by simpa using h
              obtain ⟨b₃, hb₃, hlen₃, htake₃, hdrop₃⟩ := shrinkRound_text hle hround hs hts heq
              have hgap : ((s + token.length + u.length : ℕ) : ℤ) - (s + token.length : ℕ) = (u.length : ℕ) := by omega
              simp only [List.length_append] at hlen hfuel hblock
              obtain ⟨b', hloop, hlen', htake'⟩ := ih (t := t + rep.length + u.length) hdrop₃
                (fun c hc => hnul c (by simp [hc])) (by omega) (by omega) (fun hsame => by have := heq hsame; omega)
                (by omega) (by omega)
              have hmoved : t + rep.length + (s + token.length + u.length - (s + token.length)) =
                  t + rep.length + u.length := by omega
              dsimp only
              rw [hgap, hb₃]
              simp only [Option.bind_some]
              rw [hmoved, hloop, hall rep]
              refine ⟨b', rfl, by omega, ?_⟩
              obtain ⟨w, hw⟩ : ∃ w, (replaced r token rep false (identAfter false (overwritten token rep)) v').2 = w :=
                ⟨_, rfl⟩
              rw [hw, htake₃] at htake'
              have hwhole : t + rep.length + (u ++ (rep ++ w)).length =
                  t + rep.length + u.length + rep.length + w.length := by
                simp only [List.length_append]
                omega
              rw [hw, hwhole, htake']
              simp only [List.append_assoc]

theorem overwritten_of_lt (hlong : token.length < rep.length) : overwritten token rep = token :=
  if_neg (Nat.ne_of_gt hlong)

/-- With no replacement to come the text stays. -/
theorem NextMatch.eq_of_zero {m : Option ℕ} (h : NextMatch r token left s txt m)
    (hzero : (replaced r token rep false left txt).1 = 0) : (replaced r token rep false left txt).2 = txt := by
  cases h with
  | none hall => rw [hall]
  | some u v _ _ hall =>
      rw [hall] at hzero
      cases hzero

/-- The number of replacements that the loop counts. -/
theorem countLoop_text (r : MatchRule) (fuel : ℕ) (htoken : token ≠ []) (hlong : token.length < rep.length)
    (h : b.drop s = v ++ 0 :: tail) (hnul : ∀ c ∈ v, c ≠ 0) (hs : s ≤ b.length) (hfuel : v.length < fuel) :
    countLoop r b token fuel s false =
      some ((replaced r token rep false (identAfter false (b.take s)) v).1, false) := by
  have hpos := List.length_pos_of_ne_nil htoken
  induction fuel generalizing s v with
  | zero => omega
  | succ fuel ih =>
      have hblock : b.length = s + (v.length + (tail.length + 1)) := by
        rw [← List.length_cons, ← List.length_append, ← h, List.length_drop]
        omega
      obtain ⟨m, hm, hnext⟩ := matchToken_text (r := r) htoken h hnul hs (show v.length < b.length by omega)
      rw [countLoop, hm]
      simp only [Option.bind_eq_bind, Option.bind_some]
      cases hnext with
      | none hall =>
          rw [hall]
          rfl
      | some u v' htxt _ hall =>
          subst htxt
          have hu : b.drop s = u ++ (token ++ (v' ++ 0 :: tail)) := by simpa using h
          simp only [List.length_append] at hblock hfuel
          have hrest := ih (drop_behind (drop_behind hu)) (fun c hc => hnul c (by simp [hc])) (by omega) (by omega)
          rw [take_behind (drop_behind hu), identAfter_append, identAfter_of_ne_nil htoken _ false] at hrest
          rw [hall rep, overwritten_of_lt hlong]
          simp only [Bool.false_eq_true, if_false, Option.bind_some, hrest]
          rfl

/-- Into a new buffer: the text in front of `t` is done. -/
theorem copyLoop_text (r : MatchRule) (once : Bool) (len : ℤ) (ns : Block) (htoken : token ≠ [])
    (hlong : token.length < rep.length) (h : b.drop s = token ++ (v ++ 0 :: tail)) (hnul : ∀ c ∈ v, c ≠ 0)
    (hs : s ≤ b.length) (hlen : len = (s + token.length + v.length : ℕ)) {k : ℕ}
    (hk : (replacedRest r token rep once v).1 = k)
    (hroom : t + rep.length + (replacedRest r token rep once v).2.length < ns.length) :
    ∃ ns', copyLoop r b token rep len k ns t s false = some ns' ∧ ns'.length = ns.length ∧
      ns'.take (t + rep.length + (replacedRest r token rep once v).2.length) =
        ns.take t ++ (rep ++ (replacedRest r token rep once v).2) := by
  induction k generalizing ns t s v with
  | zero =>
      have hblock : b.length = s + (token.length + (v.length + (tail.length + 1))) := by
        rw [← List.length_cons, ← List.length_append, ← List.length_append, ← h, List.length_drop]
        omega
      have hdrop := drop_behind h
      have hrep : t + rep.length ≤ ns.length := by omega
      have hleft : identAfter false (b.take (s + token.length)) = identAfter false token := by
        rw [take_behind h, identAfter_append]
        exact identAfter_of_ne_nil htoken _ _
      obtain ⟨m, hm, hnext⟩ := nextMatch_text (r := r) htoken hdrop hnul (by omega)
      rw [hleft] at hnext
      have hrest : (replacedRest r token rep once v).2 = v := by
        cases once with
        | true => rfl
        | false =>
            simp only [replacedRest, Bool.false_eq_true, if_false, overwritten_of_lt hlong] at hk ⊢
            exact hnext.eq_of_zero hk
      have hload : loadBytes b (s + token.length : ℕ) (len - (s + token.length : ℕ) + 1) = some (v ++ [0]) := by
        have hsize : len - (s + token.length : ℕ) + 1 = ((v ++ [0]).length : ℕ) := by
          rw [hlen, List.length_append, List.length_singleton]
          omega
        have hend : b.drop (s + token.length) = (v ++ [0]) ++ tail := by rw [hdrop, List.append_assoc]; rfl
        rw [hsize, loadBytes_eq (by rw [List.length_append, List.length_singleton]; omega), hend, List.take_left]
      rw [hrest] at hroom ⊢
      have hfits : t + rep.length + (v ++ [0]).length ≤ (splice ns t rep).length := by
        rw [length_splice hrep, List.length_append, List.length_singleton]
        omega
      rw [copyLoop, storeBytes_eq hrep]
      simp only [Option.bind_eq_bind, Option.bind_some, hm, hload]
      refine ⟨_, storeBytes_eq hfits, (length_splice hfits).trans (length_splice hrep), ?_⟩
      have hlast := congrArg (List.take (t + rep.length + v.length)) (take_splice hfits)
      rw [List.take_take, List.length_append, Nat.min_eq_left (by omega), take_splice hrep] at hlast
      rw [hlast, ← List.append_assoc, ← List.append_assoc]
      refine List.take_left' ?_
      simp only [List.length_append, List.length_take]
      omega
  | succ k ih =>
      have hblock : b.length = s + (token.length + (v.length + (tail.length + 1))) := by
        rw [← List.length_cons, ← List.length_append, ← List.length_append, ← h, List.length_drop]
        omega
      have hdrop := drop_behind h
      have hrep : t + rep.length ≤ ns.length := by omega
      have hleft : identAfter false (b.take (s + token.length)) = identAfter false token := by
        rw [take_behind h, identAfter_append]
        exact identAfter_of_ne_nil htoken _ _
      obtain ⟨m, hm, hnext⟩ := nextMatch_text (r := r) htoken hdrop hnul (by omega)
      rw [hleft] at hnext
      cases once with
      | true => cases hk
      | false =>
          simp only [replacedRest, Bool.false_eq_true, if_false, overwritten_of_lt hlong] at hk hroom ih ⊢
          cases hnext with
          | none hall =>
              rw [hall] at hk
              cases hk
          | some u v' htxt _ hall =>
              subst htxt
              rw [hall rep, overwritten_of_lt hlong] at hk hroom ⊢
              obtain ⟨w, hw⟩ : ∃ w, (replaced r token rep false (identAfter false token) v').2 = w := ⟨_, rfl⟩
              rw [hw] at hroom ⊢
              simp only [List.length_append] at hlen hblock hroom
              have hround : b.drop (s + token.length) = u ++ (token ++ (v' ++ 0 :: tail)) := by simpa using hdrop
              have hload : loadBytes b (s + token.length : ℕ)
                  ((s + token.length + u.length : ℕ) - (s + token.length : ℕ)) = some u := by
                have hsize : ((s + token.length + u.length : ℕ) : ℤ) - (s + token.length : ℕ) = (u.length : ℕ) := by
                  omega
                rw [hsize, loadBytes_eq (by omega), hround, List.take_left]
              have hfits : t + rep.length + u.length ≤ (splice ns t rep).length := by
                rw [length_splice hrep]
                omega
              have hlen₂ := (length_splice hfits).trans (length_splice hrep)
              have hmoved : t + rep.length + (s + token.length + u.length - (s + token.length)) =
                  t + rep.length + u.length := by omega
              obtain ⟨ns', hloop, hlen', htake'⟩ := ih (splice (splice ns t rep) (t + rep.length) u)
                (t := t + rep.length + u.length) (drop_behind hround) (fun c hc => hnul c (by simp [hc])) (by omega)
                (by omega) (Nat.succ.inj hk) (by rw [hw]; omega)
              rw [copyLoop, storeBytes_eq hrep]
              simp only [Option.bind_eq_bind, Option.bind_some, hm, hload, storeBytes_eq hfits, hmoved]
              refine ⟨ns', hloop, hlen'.trans hlen₂, ?_⟩
              have hwhole : t + rep.length + (u ++ (rep ++ w)).length =
                  t + rep.length + u.length + rep.length + w.length := by
                simp only [List.length_append]
                omega
              rw [hw, take_splice hfits, take_splice hrep] at htake'
              rw [hwhole, htake']
              simp only [List.append_assoc]

/-! ### The two branches -/

/-- A string object whose buffer holds the text and a terminator. -/
structure HasText (s : DohString) (txt : List Byte) : Prop where
  str : ∃ tail, s.str = txt ++ 0 :: tail
  len : s.len = txt.length
  maxsize : 0 < s.maxsize
  nulFree : ∀ c ∈ txt, c ≠ 0

variable {o : DohString}

theorem HasText.contents (h : HasText o txt) : o.contents = txt := by
  obtain ⟨tail, hstr⟩ := h.str
  rw [DohString.contents, hstr, h.len, Int.toNat_natCast, List.take_left]

theorem hasText_ofText (hnul : ∀ c ∈ txt, c ≠ 0) : HasText (ofText txt) txt where
  str := ⟨[], rfl⟩
  len := rfl
  maxsize := Int.natCast_succ_pos txt.length
  nulFree := hnul

/-- The terminator behind the new text. -/
theorem store_terminator (len : ℤ) {w : List Byte} (h : b.take w.length = w) (hlen : w.length < b.length)
    (heq : len = w.length) : ∃ tail, store b len 0 = some (w ++ 0 :: tail) := by
  rw [heq, store, if_pos (by omega), Int.toNat_natCast, List.set_eq_take_append_cons_drop, if_pos hlen, h]
  exact ⟨_, rfl⟩

/-- The new length, as the code computes it. -/
theorem expanded_length (r : MatchRule) (rep : List Byte) (once : Bool) (htoken : token ≠ []) (u v : List Byte) :
    ((u ++ (token ++ v)).length : ℤ) +
        ((rep.length : ℤ) - token.length) * ((replacedRest r token rep once v).1 + 1 : ℕ) =
      (u ++ (rep ++ (replacedRest r token rep once v).2)).length := by
  have hrest : ((replacedRest r token rep once v).2.length : ℤ) + (replacedRest r token rep once v).1 * token.length =
      v.length + (replacedRest r token rep once v).1 * rep.length := by
    cases once with
    | true => simp [replacedRest]
    | false => exact_mod_cast replaced_length r rep htoken _ v
  simp only [List.length_append]
  push_cast
  linear_combination -hrest

theorem mem_replacedRest (htoken : token ≠ []) {c : Byte} (hc : c ∈ (replacedRest r token rep once v).2) :
    c ∈ v ∨ c ∈ rep := by
  cases once with
  | true => exact .inl hc
  | false => exact mem_replaced htoken hc

theorem replaceInPlace_text (htoken : token ≠ []) (hrep : ∀ c ∈ rep, c ≠ 0) (hle : rep.length ≤ token.length)
    (h : HasText o (u ++ (token ++ v))) :
    ∃ o', o.replaceInPlace r token rep once u.length false = some ((replacedRest r token rep once v).1 + 1, o') ∧
      HasText o' (u ++ (rep ++ (replacedRest r token rep once v).2)) := by
  obtain ⟨tail, hstr⟩ := h.str
  have hdrop : o.str.drop u.length = token ++ (v ++ 0 :: tail) := by simp [hstr]
  have hblock := congrArg List.length hstr
  simp only [List.length_append, List.length_cons] at hblock
  have hlen := h.len
  obtain ⟨b', hloop, hlen', htake⟩ := shrinkLoop_text r once o.len o.str.length (t := u.length) htoken hle hdrop
    (fun c hc => h.nulFree c (by simp [hc])) (by omega) (Nat.le_refl _) (fun _ => rfl)
    (by rw [hlen]; simp [Nat.add_assoc]) (by omega)
  have hexpand := expanded_length r rep once htoken u v
  rw [← hlen] at hexpand
  have htext : b'.take (u ++ (rep ++ (replacedRest r token rep once v).2)).length =
      u ++ (rep ++ (replacedRest r token rep once v).2) := by
    have htakeu : o.str.take u.length = u := by rw [hstr, List.append_assoc, List.take_left]
    rw [htakeu] at htake
    rw [List.length_append, List.length_append, ← Nat.add_assoc]
    exact htake
  have hshort : (u ++ (rep ++ (replacedRest r token rep once v).2)).length < b'.length := by
    have hneg : ((rep.length : ℤ) - token.length) * ((replacedRest r token rep once v).1 + 1 : ℕ) ≤ 0 :=
      mul_nonpos_of_nonpos_of_nonneg (by omega) (Int.natCast_nonneg _)
    simp only [List.length_append] at hexpand hlen ⊢
    omega
  obtain ⟨tail', hstore⟩ := store_terminator _ htext hshort hexpand
  rw [DohString.replaceInPlace, hloop]
  simp only [Option.bind_eq_bind, Option.bind_some, hstore]
  refine ⟨_, rfl, ⟨tail', rfl⟩, hexpand, h.maxsize, fun c hc => ?_⟩
  simp only [List.mem_append] at hc
  obtain hc | hc | hc := hc
  · exact h.nulFree c (by simp [hc])
  · exact hrep c hc
  · exact (mem_replacedRest htoken hc).elim (fun hc => h.nulFree c (by simp [hc])) (hrep c)

theorem doubleSize_returns (need : ℤ) (fuel : ℕ) {newsize : ℤ} (hpos : 0 < newsize) (hfuel : need < newsize + fuel) :
    ∃ size, doubleSize need (fuel + 1) newsize = some size ∧ need < size := by
  induction fuel generalizing newsize with
  | zero =>
      refine ⟨newsize, ?_, by omega⟩
      rw [doubleSize, if_neg (by omega)]
  | succ fuel ih =>
      rw [doubleSize]
      split
      · exact ih (by omega) (by push_cast at hfuel; omega)
      · exact ⟨newsize, rfl, by omega⟩

theorem replaceExpanding_text (junk : ℕ → Byte) (htoken : token ≠ []) (hrep : ∀ c ∈ rep, c ≠ 0)
    (hlong : token.length < rep.length) (h : HasText o (u ++ (token ++ v))) :
    ∃ o', o.replaceExpanding r token rep once junk u.length false = some ((replacedRest r token rep once v).1 + 1, o') ∧
      HasText o' (u ++ (rep ++ (replacedRest r token rep once v).2)) := by
  obtain ⟨tail, hstr⟩ := h.str
  have hdrop : o.str.drop u.length = token ++ (v ++ 0 :: tail) := by simp [hstr]
  have hblock := congrArg List.length hstr
  simp only [List.length_append, List.length_cons] at hblock
  have hlen := h.len
  have hnul : ∀ c ∈ v, c ≠ 0 := fun c hc => h.nulFree c (by simp [hc])
  have hcount : (if once = true then some (0, false)
      else countLoop r o.str token o.str.length (u.length + token.length) false) =
        some ((replacedRest r token rep once v).1, false) := by
    cases once with
    | true => rfl
    | false =>
        have hcounted := countLoop_text r o.str.length htoken hlong (drop_behind hdrop) hnul (by omega) (by omega)
        rw [take_behind hdrop, identAfter_append, identAfter_of_ne_nil htoken _ false] at hcounted
        rw [if_neg Bool.false_ne_true, hcounted, replacedRest, if_neg Bool.false_ne_true, overwritten_of_lt hlong]
  have hexpand := expanded_length r rep once htoken u v
  rw [← hlen] at hexpand
  push_cast at hexpand
  have hsize := h.maxsize
  obtain ⟨newsize, hnewsize, hneed⟩ := doubleSize_returns
    (o.len + ((rep.length : ℤ) - token.length) * ((replacedRest r token rep once v).1 + 1))
    ((o.len + ((rep.length : ℤ) - token.length) * ((replacedRest r token rep once v).1 + 1)).toNat + 1) hsize (by omega)
  have hpos : 0 < newsize := by omega
  obtain ⟨ns, hmalloc, hnslen⟩ := malloc_eq junk hpos
  simp only [List.length_append] at hexpand hlen
  have hfront : loadBytes o.str 0 u.length = some u := by
    have hload := loadBytes_eq (b := o.str) (i := 0) (n := u.length) (by omega)
    rwa [List.drop_zero, hstr, List.append_assoc, List.take_left, ← List.append_assoc, ← hstr] at hload
  have hfits : 0 + u.length ≤ ns.length := by omega
  have hcopied : storeBytes ns 0 u = some (splice ns 0 u) := storeBytes_eq hfits
  obtain ⟨ns', hloop, hlen', htake⟩ := copyLoop_text r once o.len (splice ns 0 u) (t := u.length) htoken hlong hdrop
    hnul (by omega) (by rw [hlen]; simp [Nat.add_assoc]) rfl (by rw [length_splice hfits]; omega)
  have htext : ns'.take (u ++ (rep ++ (replacedRest r token rep once v).2)).length =
      u ++ (rep ++ (replacedRest r token rep once v).2) := by
    have htakeu : (splice ns 0 u).take u.length = u := by
      have := take_splice hfits
      rwa [Nat.zero_add, List.take_zero, List.nil_append] at this
    rw [htakeu] at htake
    rw [List.length_append, List.length_append, ← Nat.add_assoc]
    exact htake
  obtain ⟨tail', hstore⟩ := store_terminator
    (o.len + ((rep.length : ℤ) - token.length) * ((replacedRest r token rep once v).1 + 1)) htext
    (by rw [hlen', length_splice hfits]; simp only [List.length_append]; omega)
    (by simp only [List.length_append]; omega)
  rw [DohString.replaceExpanding]
  simp only [Option.bind_eq_bind, hcount, Option.bind_some, hnewsize, hmalloc, hfront, hcopied, hloop, hstore]
  refine ⟨_, rfl, ⟨tail', rfl⟩, ?_, hpos, fun c hc => ?_⟩
  · simp only [List.length_append]
    exact hexpand
  · simp only [List.mem_append] at hc
    obtain hc | hc | hc := hc
    · exact h.nulFree c (by simp [hc])
    · exact hrep c hc
    · exact (mem_replacedRest htoken hc).elim (hnul c) (hrep c)

/-- `replace_simple` without regard to quotes. -/
theorem replaceSimple_text (junk : ℕ → Byte) (r : MatchRule) (once : Bool) (htoken : token ≠ [])
    (hrep : ∀ c ∈ rep, c ≠ 0) (h : HasText o txt) :
    ∃ o', o.replaceSimple junk token rep false once r = some ((replaced r token rep once false txt).1, o') ∧
      HasText o' (replaced r token rep once false txt).2 := by
  obtain ⟨tail, hstr⟩ := h.str
  have hdrop : o.str.drop 0 = txt ++ 0 :: tail := hstr
  have hblock := congrArg List.length hstr
  simp only [List.length_append, List.length_cons] at hblock
  obtain ⟨m, hm, hnext⟩ := matchToken_text (r := r) htoken hdrop h.nulFree (Nat.zero_le _)
    (show txt.length < o.str.length by omega)
  have hfirst : nextMatch r o.str token false 0 = some (m, false) := by
    rw [nextMatch, hm]
    rfl
  rw [List.take_zero, identAfter_nil] at hnext
  rw [DohString.replaceSimple, if_neg htoken, hm]
  simp only [Option.bind_eq_bind, Option.bind_some]
  cases hnext with
  | none hall =>
      rw [hall]
      exact ⟨o, rfl, h⟩
  | some u v htxt honce hall =>
      subst htxt
      have hreplaced : replaced r token rep once false (u ++ (token ++ v)) =
          ((replacedRest r token rep once v).1 + 1, u ++ (rep ++ (replacedRest r token rep once v).2)) := by
        cases once with
        | true => rw [honce]; rfl
        | false => rw [hall]; rfl
      rw [Nat.zero_add] at hfirst
      rw [hreplaced]
      have hkey : HasText { o with hashkey := -1 } (u ++ (token ++ v)) := ⟨h.str, h.len, h.maxsize, h.nulFree⟩
      simp only [hfirst, Option.bind_some]
      split
      · exact replaceInPlace_text htoken hrep ‹_› hkey
      · exact replaceExpanding_text junk htoken hrep (Nat.lt_of_not_le ‹_›) hkey

/-- The rule of some flags. -/
def ruleOf (flags : ℕ) : MatchRule :=
  if flags &&& DOH_REPLACE_ID_END ≠ 0 then match_identifier_end
  else if flags &&& DOH_REPLACE_ID_BEGIN ≠ 0 then match_identifier_begin
  else if flags &&& DOH_REPLACE_ID ≠ 0 then match_identifier
  else match_simple

/-- `String_replace` without regard to quotes. -/
theorem replace_text (junk : ℕ → Byte) (htoken : token ≠ []) (hrep : ∀ c ∈ rep, c ≠ 0) (h : HasText o txt) {flags : ℕ}
    (hflags : flags &&& DOH_REPLACE_NOQUOTE = 0) :
    ∃ o', o.replace junk token rep flags =
        some ((replaced (ruleOf flags) token rep (flags &&& DOH_REPLACE_FIRST ≠ 0) false txt).1, o') ∧
      HasText o' (replaced (ruleOf flags) token rep (flags &&& DOH_REPLACE_FIRST ≠ 0) false txt).2 := by
  have hsimple (r : MatchRule) := replaceSimple_text junk r (decide (flags &&& DOH_REPLACE_FIRST ≠ 0)) htoken hrep h
  have hquotes : decide (flags &&& DOH_REPLACE_NOQUOTE ≠ 0) = false := decide_eq_false fun hne => hne hflags
  rw [DohString.replace, ruleOf]
  simp only [hquotes]
  split
  · exact hsimple _
  · split
    · exact hsimple _
    · split
      · exact hsimple _
      · exact hsimple _

theorem replaceText_eq (htoken : token ≠ []) (hrep : ∀ c ∈ rep, c ≠ 0) (htxt : ∀ c ∈ txt, c ≠ 0) {flags : ℕ}
    (hflags : flags &&& DOH_REPLACE_NOQUOTE = 0) :
    replaceText txt token rep flags =
      some (replaced (ruleOf flags) token rep (flags &&& DOH_REPLACE_FIRST ≠ 0) false txt).2 := by
  obtain ⟨o', hreplace, ho'⟩ := replace_text (fun _ => 0) htoken hrep (hasText_ofText htxt) hflags
  rw [replaceText, hreplace]
  exact congrArg some ho'.contents

end Swig.DOH
