import Swig.SType.Elements

/-!
Parameters written into a type and read back: `SwigType_add_function`,
`SwigType_function_parms` and `SwigType_add_template` (`typeobj.c`) against
`SwigType_parmlist`.
-/

namespace Swig.SType

open ByteBlock Brackets

/-! ### The functions -/

/-- What the two writers read of a parameter. -/
structure Parm where
  type : SwigType
  value : Option (List Byte)
  default : Bool

/-- `NewParm`. -/
def newParm (type : SwigType) : Parm := { type, value := none, default := false }

/-- `SwigType_function_parms`. -/
def functionParms (t : SwigType) : List Parm := ((parmlist t).getD []).map newParm

/-- The value of a template parameter, or its type. -/
def Parm.text (p : Parm) : List Byte := p.value.getD p.type

/-- The loop of `SwigType_add_template`; `first` tells if `p == parms`. -/
def templateTexts : Bool → List Parm → List Byte
  | _, [] => []
  | first, p :: parms =>
      if p.default then templateTexts false parms
      else (if first then [] else lit ",") ++ p.text ++ templateTexts false parms

/-- `SwigType_add_template`. -/
def addTemplate (t : SwigType) (parms : List Parm) : SwigType :=
  t ++ (lit "<(" ++ (templateTexts true parms ++ lit ")>"))

/-- The arguments that are written. -/
def arguments (parms : List Parm) : List (List Byte) := (parms.filter fun p => !p.default).map Parm.text

example : addTemplate (lit "map") [⟨lit "p.f(int,int).int", none, false⟩, ⟨[], some (lit "2*(1)"), false⟩] =
    lit "map<(p.f(int,int).int,2*(1))>" := rfl

/-! ### Lists of texts -/

variable {t : SwigType} {ts : List SwigType} {d : ℕ}

theorem intercalate_cons (t : SwigType) (ts : List SwigType) :
    (lit ",").intercalate (t :: ts) = t ++ (ts.map (chr ',' :: ·)).flatten := by
  induction ts generalizing t with
  | nil => simp [List.intercalate]
  | cons u ts ih => rw [intercalate_cons_cons, ih, List.map_cons, List.flatten_cons, List.cons_append]

/-- Of balanced texts an empty one at the end is lost. -/
theorem parmItems_balanced (h : ∀ t ∈ ts, scan 0 t = some 0) (rest : List Byte) :
    parmItems 0 [] ((lit ",").intercalate ts ++ chr ')' :: rest) =
      if ts.getLast? = some [] then ts.dropLast else ts := by
  induction ts with
  | nil => rfl
  | cons t ts ih =>
      obtain ⟨ht, hts⟩ := List.forall_mem_cons.mp h
      cases ts with
      | nil =>
          have hone : (lit ",").intercalate [t] = t := by simp [List.intercalate]
          rw [hone, parmItems_scan ht, List.nil_append, parmItems, if_neg (by decide), if_pos rfl]
          by_cases hempty : t = []
          · rw [if_pos hempty, hempty]
            rfl
          · rw [if_neg hempty, List.getLast?_singleton, if_neg fun h => hempty (Option.some.inj h)]
      | cons u ts =>
          rw [intercalate_cons_cons, List.append_assoc, parmItems_scan ht, List.nil_append, List.cons_append,
            parmItems, if_pos rfl, ih hts, List.getLast?_cons_cons, List.dropLast_cons_cons]
          split <;> rfl

theorem scan_singleton (d : ℕ) (c : Byte) : scan d [c] =
    if c = chr '(' then some (d + 1) else if c = chr ')' then (if d = 0 then none else some (d - 1))
    else if c = chr ',' ∧ d = 0 then none else some d := rfl

/-- Every item is balanced, unless the text ends inside of the last one. -/
theorem parmItems_cases {item : List Byte} (hitem : scan 0 item = some d) (s : List Byte) :
    (∀ t ∈ parmItems d item s, scan 0 t = some 0) ∨
      parmItems d item s ≠ [] ∧ (lit ",").intercalate (parmItems d item s) = item ++ s := by
  have hclosed {item : List Byte} (h : scan 0 item = some 0) :
      ∀ t ∈ (if item = [] then [] else [item]), scan 0 t = some 0 := by
    intro t ht
    split at ht
    · exact absurd ht List.not_mem_nil
    · rw [List.mem_singleton.mp ht]
      exact h
  have hone (item : List Byte) : (lit ",").intercalate [item] = item := by simp [List.intercalate]
  induction s generalizing d item with
  | nil =>
      rw [parmItems]
      cases d with
      | zero => exact .inl (hclosed hitem)
      | succ d =>
          have hne : item ≠ [] := by
            rintro rfl
            cases hitem
          rw [if_neg hne, hone, List.append_nil]
          exact .inr ⟨List.cons_ne_nil _ _, rfl⟩
  | cons c s ih =>
      -- a byte of the current item
      have hletter {e : ℕ} (he : scan d [c] = some e) :
          (∀ t ∈ parmItems e (item ++ [c]) s, scan 0 t = some 0) ∨
            parmItems e (item ++ [c]) s ≠ [] ∧
              (lit ",").intercalate (parmItems e (item ++ [c]) s) = item ++ c :: s := by
        have hitem' : scan 0 (item ++ [c]) = some e := by rw [scan_append hitem, he]
        have hnext := ih hitem'
        rwa [List.append_assoc, List.singleton_append] at hnext
      cases d with
      | zero =>
          rw [parmItems]
          by_cases hcomma : c = chr ','
          · rw [if_pos hcomma]
            have hempty : scan 0 [] = some 0 := rfl
            obtain hrest | ⟨hne, hrest⟩ := ih hempty
            · exact .inl (List.forall_mem_cons.mpr ⟨hitem, hrest⟩)
            · refine .inr ⟨List.cons_ne_nil _ _, ?_⟩
              obtain ⟨u, us, hus⟩ := List.exists_cons_of_ne_nil hne
              rw [hus] at hrest ⊢
              rw [intercalate_cons_cons, hrest, hcomma, List.nil_append]
          · rw [if_neg hcomma]
            by_cases hclose : c = chr ')'
            · rw [if_pos hclose]
              exact .inl (hclosed hitem)
            · rw [if_neg hclose]
              refine hletter ?_
              have hpair : ¬(c = chr ',' ∧ 0 = 0) := fun h => hcomma h.1
              rw [scan_singleton, if_neg hclose, if_neg hpair]
              split <;> rfl
      | succ d =>
          rw [parmItems]
          refine hletter ?_
          have hpair : ¬(c = chr ',' ∧ d + 1 = 0) := fun h => Nat.succ_ne_zero d h.2
          rw [scan_singleton, if_neg (Nat.succ_ne_zero d), if_neg hpair]
          split
          · rfl
          · split <;> rfl

/-! ### Reading back -/

/-- Texts with an empty one in front, of which the last empty one is lost. -/
theorem dropLast_nil_cons : ([] :: ts).dropLast = ts ↔ ∀ t ∈ ts, t = [] := by
  induction ts with
  | nil => exact ⟨fun _ t ht => absurd ht List.not_mem_nil, fun _ => rfl⟩
  | cons t ts ih =>
      rw [List.dropLast_cons_cons, List.cons.injEq, List.forall_mem_cons]
      constructor
      · rintro ⟨rfl, hts⟩
        exact ⟨rfl, ih.mp hts⟩
      · rintro ⟨rfl, hts⟩
        exact ⟨rfl, ih.mpr hts⟩

/-- The default of the first parameter leaves its comma. -/
def LeadingDefault (parms : List Parm) : Prop := ∃ p ∈ parms.head?, p.default

instance (parms : List Parm) : Decidable (LeadingDefault parms) := by unfold LeadingDefault; infer_instance

theorem templateTexts_false (parms : List Parm) :
    templateTexts false parms = ((arguments parms).map (chr ',' :: ·)).flatten := by
  induction parms with
  | nil => rfl
  | cons p parms ih =>
      rw [templateTexts, ih, arguments, arguments]
      by_cases hp : p.default
      · rw [if_pos hp, List.filter_cons_of_neg (by simpa using hp)]
      · rw [if_neg hp, List.filter_cons_of_pos (by simpa using hp)]
        rfl

theorem templateTexts_true (parms : List Parm) : templateTexts true parms = (lit ",").intercalate
    (if LeadingDefault parms ∧ arguments parms ≠ [] then [] :: arguments parms else arguments parms) := by
  cases parms with
  | nil => rfl
  | cons p parms =>
      have hleading : LeadingDefault (p :: parms) ↔ p.default := by simp [LeadingDefault]
      rw [templateTexts, templateTexts_false]
      by_cases hp : p.default
      · have hargs : arguments (p :: parms) = arguments parms := by
          rw [arguments, List.filter_cons_of_neg (by simpa using hp), arguments]
        rw [if_pos hp, hargs]
        by_cases hnil : arguments parms = []
        · rw [if_neg fun h => h.2 hnil, hnil]
          rfl
        · rw [if_pos ⟨hleading.mpr hp, hnil⟩, intercalate_cons, List.nil_append]
      · have hargs : arguments (p :: parms) = p.text :: arguments parms := by
          rw [arguments, List.filter_cons_of_pos (by simpa using hp), List.map_cons, arguments]
        have hno : ¬(LeadingDefault (p :: parms) ∧ p.text :: arguments parms ≠ []) := fun h => hp (hleading.mp h.1)
        rw [if_neg hp, hargs, if_neg hno, intercalate_cons]
        rfl

/-- The arguments can be told from one another behind the comma of a leading default. -/
def Told (parms : List Parm) : Prop :=
  (∀ t ∈ arguments parms, scan 0 t = some 0) ∧
    if LeadingDefault parms then ∀ t ∈ arguments parms, t = [] else (arguments parms).getLast? ≠ some []

/-- A list of texts comes back as `us`, which has no more texts than bytes were written. -/
theorem parmItems_eq {us : List SwigType}
    (hlen : ((lit ",").intercalate us).length ≤ ((lit ",").intercalate ts).length)
    (hscan : (∀ t ∈ us, scan 0 t = some 0) → ∀ t ∈ ts, scan 0 t = some 0) (rest : List Byte) :
    parmItems 0 [] ((lit ",").intercalate ts ++ chr ')' :: rest) = us ↔
      (∀ t ∈ ts, scan 0 t = some 0) ∧ (if ts.getLast? = some [] then ts.dropLast else ts) = us := by
  constructor
  · intro h
    have hstart : scan 0 [] = some 0 := rfl
    obtain hitems | ⟨-, hall⟩ := parmItems_cases hstart ((lit ",").intercalate ts ++ chr ')' :: rest)
    · rw [h] at hitems
      have hts := hscan hitems
      exact ⟨hts, (parmItems_balanced hts rest).symm.trans h⟩
    · -- the items would have the closing parenthesis too
      rw [h, List.nil_append] at hall
      have hbytes := congrArg List.length hall
      rw [List.length_append, List.length_cons] at hbytes
      omega
  · rintro ⟨hts, h⟩
    rw [parmItems_balanced hts, h]

theorem dropLast_eq_iff : (if ts.getLast? = some [] then ts.dropLast else ts) = ts ↔ ts.getLast? ≠ some [] := by
  split
  case isTrue hlast =>
    have hne : ts ≠ [] := by
      rintro rfl
      cases hlast
    refine ⟨fun h => ?_, fun h => absurd hlast h⟩
    have hlen := congrArg List.length h
    rw [List.length_dropLast] at hlen
    have hpos := List.length_pos_of_ne_nil hne
    omega
  case isFalse hlast => exact ⟨fun _ => hlast, fun _ => rfl⟩

theorem nil_cons_eq_iff :
    (if ([] :: ts).getLast? = some [] then ([] :: ts).dropLast else [] :: ts) = ts ↔ ∀ t ∈ ts, t = [] := by
  split
  case isTrue => exact dropLast_nil_cons
  case isFalse hlast =>
    refine ⟨fun h => absurd h (List.cons_ne_self _ _), fun h => absurd ?_ hlast⟩
    have hall : ∀ t ∈ [] :: ts, t = [] := List.forall_mem_cons.mpr ⟨rfl, h⟩
    rw [List.getLast?_eq_some_getLast (List.cons_ne_nil _ _), hall _ (List.getLast_mem _)]

theorem parmItems_arguments (parms : List Parm) :
    parmItems 0 [] (templateTexts true parms ++ lit ")>") = arguments parms ↔ Told parms := by
  have hclose (s : List Byte) : s ++ lit ")>" = s ++ chr ')' :: lit ">" := rfl
  rw [templateTexts_true, Told, hclose]
  by_cases hlead : LeadingDefault parms ∧ arguments parms ≠ []
  · obtain ⟨u, us, hus⟩ := List.exists_cons_of_ne_nil hlead.2
    have hlen : ((lit ",").intercalate (arguments parms)).length ≤
        ((lit ",").intercalate ([] :: arguments parms)).length := by
      rw [hus, intercalate_cons_cons, List.nil_append, List.length_cons]
      omega
    have hscan : (∀ t ∈ [] :: arguments parms, scan 0 t = some 0) ↔
        ∀ t ∈ arguments parms, scan 0 t = some 0 := by
      rw [List.forall_mem_cons]
      exact ⟨And.right, fun h => ⟨rfl, h⟩⟩
    rw [if_pos hlead, if_pos hlead.1, parmItems_eq hlen hscan.mpr, hscan, nil_cons_eq_iff]
  · rw [if_neg hlead, parmItems_eq le_rfl id, dropLast_eq_iff]
    by_cases hdefault : LeadingDefault parms
    · have hnil : arguments parms = [] := by
        by_contra hne
        exact hlead ⟨hdefault, hne⟩
      rw [if_pos hdefault, hnil]
      simp
    · rw [if_neg hdefault]

/-! ### Round trips -/

/-- The parameters `parms` in front of `t`, and the template parameters `targs` behind `s`. -/
structure RoundTrips (t s : SwigType) (parms targs : List Parm) : Prop where
  types : parmlist (pop (addFunction t (parms.map Parm.type))).1 = some (parms.map Parm.type)
  functionParms : (SType.functionParms (pop (addFunction t (parms.map Parm.type))).1).map Parm.type =
    parms.map Parm.type
  function : popFunction (addFunction t (parms.map Parm.type)) = some ((pop (addFunction t (parms.map Parm.type))).1, t)
  template : parmlist ((addTemplate s targs).drop s.length) = some (arguments targs)

theorem parmlist_function (h : ∀ t ∈ ts, IsType t) (t : SwigType) : parmlist (addFunction t ts) = some ts := by
  have hopen (s : List Byte) : parmlist (lit "f(" ++ s) = some (parmItems 0 [] s) := rfl
  have hclose (s : List Byte) : lit ")." ++ s = chr ')' :: chr '.' :: s := rfl
  rw [addFunction, List.append_assoc, List.append_assoc, hopen, hclose, parmItems_intercalate h]

theorem parmlist_template (s : SwigType) (parms : List Parm) :
    parmlist ((addTemplate s parms).drop s.length) = some (arguments parms) ↔ Told parms := by
  have hopen (s : List Byte) : parmlist (lit "<(" ++ s) = some (parmItems 0 [] s) := rfl
  rw [addTemplate, List.drop_left, hopen, Option.some_inj, parmItems_arguments]

theorem scan_balanced {u : SwigType} (h : Balanced (chr '(') (chr ')') u) (d : ℕ) :
    scan (d + 1) u = some (d + 1) := by
  induction h generalizing d with
  | nil => rfl
  | letter hb _ ih =>
      rw [scan, if_neg hb.1, if_neg hb.2, if_neg fun h => Nat.succ_ne_zero d h.2, ih]
  | group _ _ ihu ih =>
      rw [scan, if_pos rfl, scan_append (ihu (d + 1)), scan, if_neg (by decide), if_pos rfl,
        if_neg (Nat.succ_ne_zero _), Nat.add_sub_cancel, ih]

theorem scan_constructor {e : SwigType} (h : Constructor e) : scan 0 e = some 0 := by
  cases h with
  | @plain c hc =>
      have hall : ∀ c ∈ lit "pr", scan 0 [c, chr '.'] = some 0 := List.all_iff_forall_prop.mp rfl
      exact hall c hc
  | @call c u hc hu =>
      have hall : ∀ c ∈ lit "aqmf", scan 0 [c, chr '('] = some 1 := List.all_iff_forall_prop.mp rfl
      have hopen : c :: chr '(' :: (u ++ [chr ')', chr '.']) = [c, chr '('] ++ (u ++ [chr ')', chr '.']) := rfl
      rw [hopen, scan_append (hall c hc), scan_append (scan_balanced hu 0)]
      rfl

theorem scan_flatten {es : List SwigType} (h : ∀ e ∈ es, scan 0 e = some 0) : scan 0 es.flatten = some 0 := by
  induction es with
  | nil => rfl
  | cons e es ih =>
      obtain ⟨he, hes⟩ := List.forall_mem_cons.mp h
      rw [List.flatten_cons, scan_append he, ih hes]

/-- The commas of an encoding are in its parentheses, if the name of its base has none. -/
theorem Encoding.isType (k : Encoding) (hcomma : [chr ','] ∉ k.parts) : IsType k.text := by
  refine ⟨?_, ?_⟩
  · rw [k.text_eq]
    exact List.append_ne_nil_of_right_ne_nil _ k.base_ne_nil
  · rw [k.text_eq, scan_append (scan_flatten fun e he => scan_constructor (k.constructor e he))]
    refine scan_flatten fun p hp => ?_
    cases k.part p hp with
    | @letter c hc =>
        have hne (b : Byte) (hb : b ∈ lit ".()<>") : c ≠ b := fun h => hc (h ▸ hb)
        have hc : c ≠ chr ',' := fun h => hcomma (h ▸ hp)
        rw [scan, if_neg (hne _ (by decide)), if_neg (hne _ (by decide)), if_neg fun h => hc h.1]
        rfl
    | @template u hparen =>
        have hopen : chr '<' :: chr '(' :: (u ++ [chr ')', chr '>']) = lit "<(" ++ (u ++ [chr ')', chr '>']) := rfl
        have htwo : scan 0 (lit "<(") = some 1 := rfl
        rw [hopen, scan_append htwo, scan_append (scan_balanced hparen 0)]
        rfl

end Swig.SType
