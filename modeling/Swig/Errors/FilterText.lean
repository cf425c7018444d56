import Swig.Errors.WarnFilter

/-!
The filter as a text of entries. A sign stands only at the beginning of an entry,
so a text that begins with a sign, or that follows one, is found at entries only,
but also at one whose number is longer.
-/

namespace Swig.Errors

open ByteBlock

/-- An entry of the filter. -/
def entryText (e : Sign × ℕ) : List Byte := e.1.byte :: decimal e.2

def render (es : List (Sign × ℕ)) : List Byte := es.flatMap entryText

/-- The entry `e` begins at byte `q` of the filter. -/
def StartsAt (es : List (Sign × ℕ)) (q : ℕ) (e : Sign × ℕ) : Prop :=
  ∃ before after, es = before ++ e :: after ∧ q = (render before).length

variable {es : List (Sign × ℕ)} {e e' : Sign × ℕ} {q q' n : ℕ} {temp : List Byte} {sg : Sign}

@[simp]
theorem render_nil : render [] = [] := rfl

@[simp]
theorem render_cons : render (e :: es) = e.1.byte :: (decimal e.2 ++ render es) := rfl

@[simp]
theorem render_append (es es' : List (Sign × ℕ)) : render (es ++ es') = render es ++ render es' :=
  List.flatMap_append

theorem decimal_ne_nil : decimal n ≠ [] := by
  rw [decimal, ne_eq, List.map_eq_nil_iff]
  exact Nat.toDigits_ne_nil

theorem isdigit_chr {c : Char} (h : c.isDigit) : isdigit (chr c) := by
  rw [Char.isDigit, Bool.and_eq_true, decide_eq_true_iff, decide_eq_true_iff] at h
  have h₁ : 48 ≤ c.toNat := h.1
  have h₂ : c.toNat ≤ 57 := h.2
  have hc : (chr c).toNat = c.toNat := Nat.mod_eq_of_lt (by omega)
  rw [isdigit, Bool.and_eq_true, decide_eq_true_iff, decide_eq_true_iff, UInt8.le_iff_toNat_le,
    UInt8.le_iff_toNat_le, hc]
  exact ⟨h₁, h₂⟩

theorem isdigit_of_mem_decimal {d : Byte} (h : d ∈ decimal n) : isdigit d := by
  obtain ⟨c, hc, rfl⟩ := List.mem_map.mp h
  exact isdigit_chr (Nat.isDigit_of_mem_toDigits (by decide) (by decide) hc)

theorem Sign.isdigit_byte : isdigit sg.byte = false := by
  cases sg <;> rfl

theorem Sign.byte_injective : Function.Injective Sign.byte := by
  rintro (_ | _) (_ | _) h <;> first | rfl | cases h

/-! ### Where entries begin -/

theorem StartsAt.cons (h : StartsAt es q e) : StartsAt (e' :: es) ((entryText e').length + q) e := by
  obtain ⟨before, after, rfl, rfl⟩ := h
  exact ⟨e' :: before, after, rfl, by simp [entryText]; omega⟩

theorem startsAt_cons_iff : StartsAt (e' :: es) q e ↔
    (q = 0 ∧ e = e') ∨ ∃ q', q = (entryText e').length + q' ∧ StartsAt es q' e := by
  constructor
  · rintro ⟨before, after, h, rfl⟩
    cases before with
    | nil =>
        cases h
        exact .inl ⟨rfl, rfl⟩
    | cons x before =>
        cases h
        exact .inr ⟨_, by simp [entryText]; omega, before, after, rfl, rfl⟩
  · rintro (⟨rfl, rfl⟩ | ⟨q', rfl, h⟩)
    · exact ⟨[], es, rfl, rfl⟩
    · exact h.cons

/-- A sign stands at the beginning of an entry. -/
theorem startsAt_of_sign (h : (render es)[q]? = some sg.byte) : ∃ n, StartsAt es q (sg, n) := by
  induction es generalizing q with
  | nil => simp at h
  | cons e es ih =>
      cases q with
      | zero =>
          obtain ⟨sg', n⟩ := e
          have hsg : sg'.byte = sg.byte := by simpa using h
          obtain rfl := Sign.byte_injective hsg
          exact ⟨n, startsAt_cons_iff.mpr (.inl ⟨rfl, rfl⟩)⟩
      | succ q =>
          rw [render_cons, List.getElem?_cons_succ] at h
          by_cases hq : q < (decimal e.2).length
          · rw [List.getElem?_append_left hq] at h
            have hdigit := isdigit_of_mem_decimal (List.mem_of_getElem? h)
            rw [Sign.isdigit_byte] at hdigit
            cases hdigit
          · rw [List.getElem?_append_right (by omega)] at h
            obtain ⟨n, hn⟩ := ih h
            refine ⟨n, startsAt_cons_iff.mpr (.inr ⟨_, ?_, hn⟩)⟩
            simp only [entryText, List.length_cons]
            omega

theorem StartsAt.getElem? (h : StartsAt es q e) : (render es)[q]? = some e.1.byte := by
  obtain ⟨before, after, rfl, rfl⟩ := h
  simp

theorem StartsAt.drop (h : StartsAt es q e) : ∃ after, (render es).drop (q + 1) = decimal e.2 ++ render after := by
  obtain ⟨before, after, rfl, rfl⟩ := h
  exact ⟨after, by simp⟩

theorem StartsAt.unique (h : StartsAt es q e) (h' : StartsAt es q e') : e = e' := by
  induction es generalizing q with
  | nil =>
      obtain ⟨before, after, h, -⟩ := h
      simp at h
  | cons x es ih =>
      rcases startsAt_cons_iff.mp h with ⟨rfl, rfl⟩ | ⟨q₁, rfl, h₁⟩
      · rcases startsAt_cons_iff.mp h' with ⟨-, rfl⟩ | ⟨q₂, hq, -⟩
        · rfl
        · simp only [entryText, List.length_cons] at hq
          omega
      · rcases startsAt_cons_iff.mp h' with ⟨hq, -⟩ | ⟨q₂, hq, h₂⟩
        · simp [entryText] at hq
        · obtain rfl : q₁ = q₂ := by omega
          exact ih h₁ h₂

/-- The first entry with a property, and where it begins. -/
theorem find?_startsAt {p : Sign × ℕ → Bool} (h : es.find? p = some e) :
    ∃ q, StartsAt es q e ∧ p e ∧ ∀ q' e', StartsAt es q' e' → p e' → q ≤ q' := by
  induction es with
  | nil => cases h
  | cons x es ih =>
      by_cases hx : p x
      · rw [List.find?_cons_of_pos hx] at h
        cases h
        exact ⟨0, ⟨[], es, rfl, rfl⟩, hx, fun _ _ _ _ => Nat.zero_le _⟩
      · rw [List.find?_cons_of_neg hx] at h
        obtain ⟨q, hq, hp, hmin⟩ := ih h
        refine ⟨_, hq.cons, hp, fun q' e' h' hp' => ?_⟩
        rcases startsAt_cons_iff.mp h' with ⟨-, rfl⟩ | ⟨q₁, rfl, h₁⟩
        · exact absurd hp' hx
        · have := hmin q₁ e' h₁ hp'
          omega

theorem StartsAt.mem (h : StartsAt es q e) : e ∈ es := by
  obtain ⟨before, after, rfl, -⟩ := h
  simp

/-- Digits at the beginning of digits that are followed by a sign or by nothing. -/
theorem prefix_decimal_iff {after : List (Sign × ℕ)} (htemp : ∀ d ∈ temp, isdigit d) :
    temp <+: decimal n ++ render after ↔ temp <+: decimal n := by
  refine ⟨fun h => ?_, fun h => h.trans (List.prefix_append _ _)⟩
  rcases List.prefix_or_prefix_of_prefix h (List.prefix_append _ _) with h' | ⟨rest, rfl⟩
  · exact h'
  · rw [List.prefix_append_right_inj] at h
    cases rest with
    | nil => simp
    | cons d rest =>
        cases after with
        | nil => simp at h
        | cons e after =>
            have hd : d = e.1.byte := (List.cons_prefix_cons.mp h).1
            have hdigit := htemp d (by simp)
            rw [hd, Sign.isdigit_byte] at hdigit
            cases hdigit

theorem StartsAt.occurs_iff (h : StartsAt es q e) (htemp : ∀ d ∈ temp, isdigit d) :
    Occurs temp (render es) (q + 1) ↔ temp <+: decimal e.2 := by
  obtain ⟨after, hafter⟩ := h.drop
  rw [Occurs, hafter, prefix_decimal_iff htemp]

/-! ### The filter loop -/

/-- The entry that the loop comes to: the first whose number begins with these digits. -/
def reached (es : List (Sign × ℕ)) (temp : List Byte) : Option (Sign × ℕ) :=
  es.find? fun e => temp.isPrefixOf (decimal e.2)

/-- The entries before position `f` do not begin with the digits. -/
def Passed (es : List (Sign × ℕ)) (temp : List Byte) (f : ℕ) : Prop :=
  ∀ q e, StartsAt es q e → temp <+: decimal e.2 → f ≤ q + 1

/-- The digits are found first at an entry. -/
theorem reached_of_occurs {c f i : ℕ} (htemp : ∀ d ∈ temp, isdigit d) (hpassed : Passed es temp f)
    (hfirst : ∀ j < i, ¬ Occurs temp ((render es).drop f) j) (hc : f + i = c + 1) (hstart : StartsAt es c e)
    (hocc : temp <+: decimal e.2) : reached es temp = some e := by
  cases hfind : reached es temp with
  | none =>
      have := List.find?_eq_none.mp hfind e hstart.mem
      simp only [List.isPrefixOf_iff_prefix] at this
      exact absurd hocc this
  | some x =>
      obtain ⟨q, hq, hx, hmin⟩ := find?_startsAt hfind
      have hqc := hmin c e hstart (List.isPrefixOf_iff_prefix.mpr hocc)
      have hx' : temp <+: decimal x.2 := List.isPrefixOf_iff_prefix.mp hx
      have hfq := hpassed q x hq hx'
      by_cases heq : q = c
      · subst heq
        rw [hq.unique hstart]
      · have hocc' := (hq.occurs_iff htemp).mpr hx'
        refine absurd ?_ (hfirst (q + 1 - f) (by omega))
        rwa [Occurs, List.drop_drop, Nat.add_sub_cancel' hfq]

/-- Digits that are found inside a number: no entry with them begins before their end. -/
theorem Passed.step {c f i : ℕ} (htemp : ∀ d ∈ temp, isdigit d) (hpassed : Passed es temp f)
    (hfirst : ∀ j < i, ¬ Occurs temp ((render es).drop f) j) (hocc : Occurs temp ((render es).drop f) i)
    (hc : f + i = c + 1) (hno : ∀ n, ∀ sg, ¬ StartsAt es c (sg, n)) : Passed es temp (f + temp.length) := by
  intro q e hq he
  have hfq := hpassed q e hq he
  have hocc' := (hq.occurs_iff htemp).mpr he
  have hcq : c < q := by
    by_contra hle
    rcases Nat.lt_or_ge q c with hlt | hge
    · refine absurd ?_ (hfirst (q + 1 - f) (by omega))
      rwa [Occurs, List.drop_drop, Nat.add_sub_cancel' hfq]
    · obtain rfl : q = c := by omega
      exact hno e.2 e.1 hq
  by_contra hlt
  -- the sign of the entry would be one of the digits found
  have hget := hq.getElem?
  have hmem : (render es)[q]? = temp[q - (c + 1)]? := by
    rw [Occurs, List.drop_drop, hc] at hocc
    obtain ⟨rest, hrest⟩ := hocc
    have hlen : q - (c + 1) < temp.length := by omega
    rw [← List.getElem?_append_left hlen, hrest, List.getElem?_drop, Nat.add_sub_cancel' hcq]
  rw [hmem] at hget
  have hdigit := htemp _ (List.mem_of_getElem? hget)
  rw [Sign.isdigit_byte] at hdigit
  cases hdigit

theorem reached_eq_none (h : ∀ q e, StartsAt es q e → ¬ temp <+: decimal e.2) : reached es temp = none := by
  cases hfind : reached es temp with
  | none => rfl
  | some e =>
      obtain ⟨q, hq, he, -⟩ := find?_startsAt hfind
      exact absurd (List.isPrefixOf_iff_prefix.mp he) (h q e hq)

/-- The text begins with a sign. -/
theorem not_occurs_zero (hne : temp ≠ []) (htemp : ∀ d ∈ temp, isdigit d) : ¬ Occurs temp (render es) 0 := by
  intro h
  obtain ⟨d, ds, rfl⟩ := List.exists_cons_of_ne_nil hne
  cases es with
  | nil => simp [Occurs] at h
  | cons e es =>
      have hd : d = e.1.byte := (List.cons_prefix_cons.mp h).1
      have hdigit := htemp d List.mem_cons_self
      rw [hd, Sign.isdigit_byte] at hdigit
      cases hdigit

theorem filterLoop_render (hne : temp ≠ []) (htemp : ∀ d ∈ temp, isdigit d) {fuel f : ℕ} (hfuel : 0 < fuel)
    (hlen : (render es).length < fuel + f) (hpassed : Passed es temp f) :
    filterLoop (render es) temp fuel f = some ((reached es temp).all fun e => e.1 = .plus) := by
  induction fuel generalizing f with
  | zero => cases hfuel
  | succ fuel ih =>
      rw [filterLoop]
      by_cases hend : (render es).length ≤ f
      · rw [if_pos hend, reached_eq_none fun q e hq he => ?_]
        · rfl
        · have hbound := ((hq.occurs_iff htemp).mpr he).le_length hne
          have hfq := hpassed q e hq he
          have hpos := List.length_pos_iff.mpr hne
          omega
      rw [if_neg hend]
      obtain ⟨hsome, hnone⟩ := indexOf_spec temp ((render es).drop f)
      cases hi : indexOf temp ((render es).drop f) with
      | none =>
          rw [reached_eq_none fun q e hq he => ?_]
          · rfl
          · have hocc := (hq.occurs_iff htemp).mpr he
            refine hnone hi (q + 1 - f) ?_
            rwa [Occurs, List.drop_drop, Nat.add_sub_cancel' (hpassed q e hq he)]
      | some i =>
          obtain ⟨hocc, hfirst⟩ := hsome i hi
          have hat : Occurs temp (render es) (f + i) := by rwa [Occurs, List.drop_drop] at hocc
          dsimp only
          cases hc : f + i with
          | zero =>
              rw [hc] at hat
              exact absurd hat (not_occurs_zero hne htemp)
          | succ c =>
              rw [hc] at hat
              have hsign {sg : Sign} (h : (render es)[c]? = some sg.byte) :
                  ∃ n, reached es temp = some (sg, n) := by
                obtain ⟨n, hn⟩ := startsAt_of_sign h
                exact ⟨n, reached_of_occurs htemp hpassed hfirst hc hn ((hn.occurs_iff htemp).mp hat)⟩
              dsimp only
              split
              · obtain ⟨n, hn⟩ := hsign (show _ = some Sign.minus.byte from ‹_›)
                rw [hn]
                rfl
              split
              · obtain ⟨n, hn⟩ := hsign (show _ = some Sign.plus.byte from ‹_›)
                rw [hn]
                rfl
              · have hpos := List.length_pos_iff.mpr hne
                refine ih (by omega) (by omega) (hpassed.step htemp hfirst hocc hc fun n sg hstart => ?_)
                have hget := hstart.getElem?
                cases sg <;> contradiction

/-- The look into the filter comes to the first entry whose number begins with `w`. -/
theorem filterWarns_render (es : List (Sign × ℕ)) (w : ℕ) :
    filterWarns (some (render es)) w = some ((reached es (decimal w)).all fun e => e.1 = .plus) := by
  rw [filterWarns, formatInt, if_neg (by omega), Int.natAbs_natCast]
  refine filterLoop_render decimal_ne_nil (fun d => isdigit_of_mem_decimal) (Nat.succ_pos _) (by omega) ?_
  exact fun _ _ _ _ => Nat.zero_le _

/-! ### Removal -/

/-- The entry that a removal cuts into: the first with this sign whose number begins
with the digits. -/
def cut (es : List (Sign × ℕ)) (e : Sign × ℕ) : Option (Sign × ℕ) :=
  es.find? fun x => x.1 = e.1 ∧ (decimal e.2).isPrefixOf (decimal x.2)

theorem StartsAt.occurs_entry_iff (h : StartsAt es q e') :
    Occurs (entryText e) (render es) q ↔ e'.1 = e.1 ∧ decimal e.2 <+: decimal e'.2 := by
  obtain ⟨before, after, rfl, rfl⟩ := h
  rw [Occurs, render_append, render_cons, List.drop_left, entryText, List.cons_prefix_cons,
    prefix_decimal_iff fun d => isdigit_of_mem_decimal]
  exact and_congr_left' ⟨fun h => (Sign.byte_injective h).symm, fun h => by rw [h]⟩

theorem startsAt_of_occurs (h : Occurs (entryText e) (render es) q) : ∃ n, StartsAt es q (e.1, n) := by
  obtain ⟨rest, hrest⟩ := h
  refine startsAt_of_sign ?_
  have hhead := congrArg (·[0]?) hrest
  simpa [entryText] using hhead.symm

theorem cutFirst_render (hcut : ∀ x ∈ cut es e, x.2 = e.2) :
    cutFirst (entryText e) (render es) = render (es.erase e) := by
  obtain ⟨hsome, hnone⟩ := indexOf_spec (entryText e) (render es)
  rw [cutFirst]
  cases hfind : cut es e with
  | none =>
      have hall := List.find?_eq_none.mp hfind
      simp only [Bool.decide_and, Bool.and_eq_true, decide_eq_true_eq,
        List.isPrefixOf_iff_prefix] at hall
      have hmem : e ∉ es := fun he => hall e he ⟨rfl, List.prefix_rfl⟩
      rw [List.erase_of_not_mem hmem]
      cases hi : indexOf (entryText e) (render es) with
      | none => rfl
      | some i =>
          obtain ⟨hocc, -⟩ := hsome i hi
          obtain ⟨n, hn⟩ := startsAt_of_occurs hocc
          exact absurd (hn.occurs_entry_iff.mp hocc) (hall _ hn.mem)
  | some x =>
      have hx : x = e := by
        have hp := List.find?_some hfind
        simp only [Bool.decide_and, Bool.and_eq_true, decide_eq_true_eq] at hp
        exact Prod.ext hp.1 (hcut x hfind)
      subst hx
      obtain ⟨q, hq, hp, hmin⟩ := find?_startsAt hfind
      have hocc : Occurs (entryText x) (render es) q := hq.occurs_entry_iff.mpr ⟨rfl, List.prefix_rfl⟩
      cases hi : indexOf (entryText x) (render es) with
      | none => exact absurd hocc (hnone hi q)
      | some i =>
          obtain ⟨hocci, hfirst⟩ := hsome i hi
          obtain ⟨n, hn⟩ := startsAt_of_occurs hocci
          have hqi := hmin i _ hn (by simpa using (hn.occurs_entry_iff.mp hocci).2)
          obtain rfl : i = q := by
            by_contra hne
            exact hfirst q (by omega) hocc
          obtain ⟨before, after, rfl, rfl⟩ := hq
          have hbefore : x ∉ before := by
            intro hx
            obtain ⟨b₁, b₂, rfl⟩ := List.append_of_mem hx
            have hle := hmin _ x ⟨b₁, b₂ ++ x :: after, by simp, rfl⟩ hp
            simp only [render_append, render_cons, List.length_append, List.length_cons] at hle
            omega
          rw [List.erase_append_right _ hbefore, List.erase_cons_head, render_append, render_append]
          dsimp only
          rw [List.take_left, List.drop_length_add_append]
          congr 1
          exact List.drop_left

end Swig.Errors
