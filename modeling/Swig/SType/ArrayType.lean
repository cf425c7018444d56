import Swig.SType.ParmTexts

/-!
The dimensions of an array: `SwigType_array_ndim`, `SwigType_array_getdim` and
`SwigType_array_setdim` (`typeobj.c`), and `strip_arrays` (`typemap.c`). Each looks for
the end of a dimension with `strchr(c, '.')`; where there is none it reads at a null
pointer, and the result here is `none`.
-/

namespace Swig.SType

open ByteBlock Brackets

/-! ### The functions -/

/-- `SwigType_istemplate`. -/
def istemplate (t : SwigType) : Bool :=
  (indexOf (lit "<(") t).any fun i => (indexOf (lit ")>") (t.drop (i + 2))).isSome

/-- `SwigType_namestr`. -/
def namestr (t : SwigType) : List Byte := namestrWith (str · []) t

/-- `strchr(c, '.')`, for the text from there on. -/
def fromPeriod (c : SwigType) : Option SwigType :=
  if chr '.' ∈ c then some (c.dropWhile (· != chr '.')) else none

/-- The loop of `SwigType_array_ndim`. -/
def ndimLoop : ℕ → SwigType → Option ℕ
  | 0, _ => none
  | n + 1, c => if isarray c then (fromPeriod c).bind fun c => (ndimLoop n c.tail).map (· + 1) else some 0

/-- `SwigType_array_ndim`: every round leaves bytes behind. -/
def arrayNdim (t : SwigType) : Option ℕ := ndimLoop (t.length + 1) t

/-- The loop of `SwigType_array_getdim` and `SwigType_array_setdim`: the `n` that is left,
and `c`. -/
def skipDims : ℕ → SwigType → Option (ℕ × SwigType)
  | 0, c => some (0, c)
  | n + 1, c => if isarray c then (fromPeriod c).bind fun c => skipDims n c.tail else some (n + 1, c)

/-- `SwigType_array_getdim`; also a null pointer is `none`. -/
def arrayGetdim (t : SwigType) (n : ℕ) : Option SwigType := do
  let (n, c) ← skipDims n t
  if n = 0 then
    let dim ← parm c
    return if istemplate dim then namestr dim else dim
  else none

/-- `SwigType_array_setdim`; where there is no such dimension, it appends a null pointer. -/
def arraySetdim (t : SwigType) (n : ℕ) (rep : List Byte) : Option SwigType :=
  if isarray t then do
    let (n, c) ← skipDims n t
    if n = 0 then
      let rest ← fromPeriod c
      return t.take (t.length - c.length) ++ (lit "a(" ++ rep ++ lit ")") ++ rest
    else none
  else none

/-- The loop of `strip_arrays`. -/
def stripLoop : List ℕ → SwigType → Option SwigType
  | [], t => some t
  | i :: is, t => (arraySetdim t i (lit "ANY")).bind (stripLoop is)

/-- `strip_arrays`. -/
def stripArrays (type : SwigType) : Option SwigType := do stripLoop (List.range (← arrayNdim type)) type

/-! ### Array types -/

/-- `a(d).`. -/
def dimension (d : SwigType) : SwigType := chr 'a' :: chr '(' :: (d ++ [chr ')', chr '.'])

/-- An array of `element`, which is not an array itself. -/
structure ArrayType where
  dims : List SwigType
  element : Encoding
  balanced : ∀ d ∈ dims, Balanced (chr '(') (chr ')') d
  whole : isarray element.text = false

namespace ArrayType

variable (t : ArrayType)

/-- The text with other dimensions. -/
def textOf (dims : List SwigType) : SwigType := (dims.map dimension).flatten ++ t.element.text

def text : SwigType := t.textOf t.dims

def encoding : Encoding where
  constructors := t.dims.map dimension ++ t.element.constructors
  parts := t.element.parts
  constructor := by
    intro e he
    obtain hdim | he := List.mem_append.mp he
    · obtain ⟨d, hd, rfl⟩ := List.mem_map.mp hdim
      exact .call (by decide) (t.balanced d hd)
    · exact t.element.constructor e he
  part := t.element.part
  named := t.element.named

theorem text_encoding : t.encoding.text = t.text := by
  rw [Encoding.text_eq, text, textOf, Encoding.text_eq, ← List.append_assoc, ← List.flatten_append]
  rfl

/-- The array with the dimension `i` replaced. -/
def setDim (i : ℕ) {r : SwigType} (hr : Balanced (chr '(') (chr ')') r) : ArrayType where
  dims := t.dims.set i r
  element := t.element
  balanced := by
    intro d hd
    obtain hd | rfl := List.mem_or_eq_of_mem_set hd
    · exact t.balanced d hd
    · exact hr
  whole := t.whole

end ArrayType

/-- What the three functions say about an array type. -/
structure DimLaws (t : ArrayType) : Prop where
  ndim : arrayNdim t.text = some t.dims.length
  getdim : ∀ i (hi : i < t.dims.length), arrayGetdim t.text i = some t.dims[i]
  setdim : ∀ i < t.dims.length, ∀ r, arraySetdim t.text i r = some (t.textOf (t.dims.set i r))
  wellFormed : ∀ i < t.dims.length, ∀ r, Balanced (chr '(') (chr ')') r →
    ∃ k : Encoding, arraySetdim t.text i r = some k.text ∧ (split k.text).length = (split t.text).length

example : arrayGetdim (lit "a(N<(p.int)>::v).a(4).int") 0 = some (lit "N< int * >::v") := rfl
example : arrayGetdim (lit "a(N<(p.int)>::v).a(4).int") 1 = none := rfl

/-! ### Over one dimension -/

variable {d s : SwigType} {ds : List SwigType}

theorem isarray_dimension (d s : SwigType) : isarray (dimension d ++ s) = true := rfl

theorem dropWhile_dimension (hd : chr '.' ∉ d) (s : SwigType) :
    (dimension d ++ s).dropWhile (· != chr '.') = chr '.' :: s := by
  have hinside : ∀ c ∈ d, (c != chr '.') = true := fun c hc => by
    simpa using fun h : c = chr '.' => hd (h ▸ hc)
  have hsplit : dimension d ++ s = [chr 'a', chr '('] ++ (d ++ chr ')' :: chr '.' :: s) := by
    simp [dimension]
  rw [hsplit, List.dropWhile_append_of_pos (List.all_eq_true.mp rfl), List.dropWhile_append_of_pos hinside]
  rfl

theorem period_mem_dimension (d s : SwigType) : chr '.' ∈ dimension d ++ s := by
  simp only [dimension, List.cons_append, List.mem_cons, List.mem_append, true_or, or_true]

theorem fromPeriod_dimension (hd : chr '.' ∉ d) (s : SwigType) :
    fromPeriod (dimension d ++ s) = some (chr '.' :: s) := by
  have hmem := period_mem_dimension d s
  rw [fromPeriod, if_pos hmem, dropWhile_dimension hd]

/-- A period inside of the dimension comes first. -/
theorem fromPeriod_inside (hd : chr '.' ∈ d) (s : SwigType) :
    ∃ rest, fromPeriod (dimension d ++ s) = some rest ∧ s.length + 2 < rest.length := by
  obtain ⟨u, v, rfl, hu⟩ := List.eq_append_cons_of_mem hd
  have hinside : ∀ c ∈ u, (c != chr '.') = true := fun c hc => by
    simpa using fun h : c = chr '.' => hu (h ▸ hc)
  have hmem := period_mem_dimension (u ++ chr '.' :: v) s
  have hsplit : dimension (u ++ chr '.' :: v) ++ s =
      [chr 'a', chr '('] ++ (u ++ chr '.' :: (v ++ chr ')' :: chr '.' :: s)) := by
    simp [dimension]
  refine ⟨chr '.' :: (v ++ chr ')' :: chr '.' :: s), ?_, ?_⟩
  · rw [fromPeriod, if_pos hmem, hsplit, List.dropWhile_append_of_pos (List.all_eq_true.mp rfl),
      List.dropWhile_append_of_pos hinside]
    rfl
  · simp only [List.length_cons, List.length_append]
    omega

theorem skipDims_dimensions (h : ∀ d ∈ ds, chr '.' ∉ d) (s : SwigType) :
    skipDims ds.length ((ds.map dimension).flatten ++ s) = some (0, s) := by
  induction ds with
  | nil => rfl
  | cons d ds ih =>
      obtain ⟨hd, hds⟩ := List.forall_mem_cons.mp h
      rw [List.map_cons, List.flatten_cons, List.append_assoc, List.length_cons, skipDims,
        if_pos (isarray_dimension _ _), fromPeriod_dimension hd, Option.bind_some, List.tail_cons, ih hds]

theorem ndimLoop_dimensions (h : ∀ d ∈ ds, chr '.' ∉ d) (hs : isarray s = false) {n : ℕ} (hn : ds.length < n) :
    ndimLoop n ((ds.map dimension).flatten ++ s) = some ds.length := by
  induction ds generalizing n with
  | nil =>
      obtain ⟨n, rfl⟩ := Nat.exists_eq_succ_of_ne_zero (Nat.ne_of_gt hn)
      rw [List.map_nil, List.flatten_nil, List.nil_append, ndimLoop, if_neg (by simp [hs])]
      rfl
  | cons d ds ih =>
      obtain ⟨hd, hds⟩ := List.forall_mem_cons.mp h
      obtain ⟨n, rfl⟩ := Nat.exists_eq_succ_of_ne_zero (Nat.ne_of_gt (Nat.zero_lt_of_lt hn))
      rw [List.map_cons, List.flatten_cons, List.append_assoc, ndimLoop, if_pos (isarray_dimension _ _),
        fromPeriod_dimension hd, Option.bind_some, List.tail_cons, ih hds (by simpa using hn)]
      rfl

theorem insideParens_balanced (h : Balanced (chr '(') (chr ')') d) (n : ℕ) (s : SwigType) :
    insideParens n (d ++ s) = d ++ insideParens n s := by
  induction h generalizing n s with
  | nil => rfl
  | letter hb _ ih =>
      cases n with
      | zero => rw [List.cons_append, insideParens, if_neg hb.2, if_neg hb.1, ih, List.cons_append]
      | succ n => rw [List.cons_append, insideParens, if_neg hb.2, if_neg hb.1, ih, List.cons_append]
  | group _ _ ihu ih =>
      have hclose (n : ℕ) (s : SwigType) : insideParens (n + 1) (chr ')' :: s) = chr ')' :: insideParens n s := rfl
      have hopen (n : ℕ) (s : SwigType) : insideParens n (chr '(' :: s) = chr '(' :: insideParens (n + 1) s := by
        cases n <;> rfl
      rw [List.cons_append, List.append_assoc, List.cons_append, hopen, ihu, hclose, ih]
      simp only [List.append_assoc, List.cons_append]

theorem parm_dimension (h : Balanced (chr '(') (chr ')') d) (s : SwigType) : parm (dimension d ++ s) = some d := by
  have hopen : parm (dimension d ++ s) = some (insideParens 0 (d ++ chr ')' :: chr '.' :: s)) := by
    have hsplit : dimension d ++ s = chr 'a' :: chr '(' :: (d ++ chr ')' :: chr '.' :: s) := by simp [dimension]
    rw [hsplit]
    rfl
  rw [hopen, insideParens_balanced h, insideParens, if_pos rfl, List.append_nil]

/-- A template is written in another way: a blank or a comma is put behind its angle bracket,
or a blank before it. -/
theorem namestr_ne (h : istemplate d) : namestr d ≠ d := by
  obtain ⟨i, hi, hclose⟩ := Option.any_eq_true _ _ |>.mp h
  have hclose : (indexOf (lit ")>") (d.drop (i + 2))).isNone = false := by simpa using hclose
  obtain ⟨rest, hrest⟩ := ((indexOf_spec _ _).1 i hi).1
  rw [namestr, namestrWith, hi]
  dsimp only
  rw [if_neg (by simp [hclose])]
  intro heq
  generalize ((parmlist (d.drop (i + 1))).getD []).map (str · []) = strs at heq
  have hd : d = d.take i ++ chr '<' :: chr '(' :: rest := by
    conv_lhs => rw [← List.take_append_drop i d, ← hrest]
    rfl
  conv_rhs at heq => rw [hd]
  simp only [List.append_assoc] at heq
  have heq := List.append_cancel_left heq
  split at heq
  · cases heq
  · rw [List.nil_append] at heq
    have heq := (List.cons.inj heq).2
    match strs with
    | [] => cases heq
    | [[]] => cases heq
    | [] :: u :: us =>
        rw [intercalate_cons_cons] at heq
        cases heq
    | (c :: u) :: us => cases heq

/-! ### The laws -/

namespace ArrayType

variable (t : ArrayType)

/-- No dimension of the array hides a period. -/
def Periodless : Prop := ∀ d ∈ t.dims, chr '.' ∉ d

variable {t}

theorem textOf_append (ds us : List SwigType) :
    t.textOf (ds ++ us) = (ds.map dimension).flatten ++ t.textOf us := by
  rw [textOf, textOf, List.map_append, List.flatten_append, List.append_assoc]

theorem textOf_cons (d : SwigType) (ds : List SwigType) : t.textOf (d :: ds) = dimension d ++ t.textOf ds := by
  rw [textOf, textOf, List.map_cons, List.flatten_cons, List.append_assoc]

theorem take_textOf (ds us : List SwigType) :
    (t.textOf (ds ++ us)).take ((t.textOf (ds ++ us)).length - (t.textOf us).length) =
      (ds.map dimension).flatten := by
  rw [textOf_append, List.length_append, Nat.add_sub_cancel, List.take_left]

/-- The dimension behind some without periods is replaced up to its first period. -/
theorem arraySetdim_behind (h : ∀ d ∈ ds, chr '.' ∉ d) (d : SwigType) (us : List SwigType) (r : List Byte) :
    arraySetdim (t.textOf (ds ++ d :: us)) ds.length r = (fromPeriod (t.textOf (d :: us))).bind fun rest =>
      some ((ds.map dimension).flatten ++ (lit "a(" ++ r ++ lit ")") ++ rest) := by
  have harray : isarray (t.textOf (ds ++ d :: us)) := by
    cases ds with
    | nil => rw [List.nil_append, textOf_cons, isarray_dimension]
    | cons e ds => rw [List.cons_append, textOf_cons, isarray_dimension]
  have hskip : skipDims ds.length (t.textOf (ds ++ d :: us)) = some (0, t.textOf (d :: us)) := by
    rw [textOf_append, skipDims_dimensions h]
  rw [arraySetdim, if_pos harray, hskip, Option.bind_eq_bind, Option.bind_some]
  dsimp only
  rw [if_pos rfl, take_textOf]
  rfl

theorem arraySetdim_periodless (h : t.Periodless) {i : ℕ} (hi : i < t.dims.length) (r : List Byte) :
    arraySetdim t.text i r = some (t.textOf (t.dims.set i r)) := by
  have hsplit : t.dims = t.dims.take i ++ t.dims[i] :: t.dims.drop (i + 1) := by
    rw [List.getElem_cons_drop, List.take_append_drop]
  have hlen : (t.dims.take i).length = i := by
    rw [List.length_take]
    omega
  have hbefore : ∀ d ∈ t.dims.take i, chr '.' ∉ d := fun d hd => h d (List.mem_of_mem_take hd)
  have hset := arraySetdim_behind (t := t) hbefore t.dims[i] (t.dims.drop (i + 1)) r
  rw [← hsplit, hlen, textOf_cons, fromPeriod_dimension (h _ (List.getElem_mem hi)), Option.bind_some] at hset
  rw [text, hset, List.set_eq_take_append_cons_drop, if_pos hi, textOf_append, textOf_cons, dimension]
  simp [lit]

theorem arrayGetdim_periodless (h : t.Periodless) {i : ℕ} (hi : i < t.dims.length) :
    arrayGetdim t.text i = some (if istemplate t.dims[i] then namestr t.dims[i] else t.dims[i]) := by
  have hsplit : t.dims = t.dims.take i ++ t.dims[i] :: t.dims.drop (i + 1) := by
    rw [List.getElem_cons_drop, List.take_append_drop]
  have hlen : (t.dims.take i).length = i := by
    rw [List.length_take]
    omega
  have hskip : skipDims i t.text = some (0, dimension t.dims[i] ++ t.textOf (t.dims.drop (i + 1))) := by
    have hbefore : ∀ d ∈ t.dims.take i, chr '.' ∉ d := fun d hd => h d (List.mem_of_mem_take hd)
    have hdims := skipDims_dimensions hbefore (t.textOf (t.dims[i] :: t.dims.drop (i + 1)))
    rwa [← textOf_append, ← hsplit, hlen, textOf_cons] at hdims
  have hparm := parm_dimension (t.balanced _ (List.getElem_mem hi)) (t.textOf (t.dims.drop (i + 1)))
  rw [arrayGetdim, hskip, Option.bind_eq_bind, Option.bind_some]
  dsimp only
  rw [if_pos rfl, hparm]
  rfl

theorem arrayNdim_periodless (h : t.Periodless) : arrayNdim t.text = some t.dims.length := by
  refine ndimLoop_dimensions h t.whole ?_
  have hle (ds : List SwigType) : ds.length ≤ (ds.map dimension).flatten.length := by
    induction ds with
    | nil => exact le_rfl
    | cons d ds ih =>
        rw [List.map_cons, List.flatten_cons, List.length_append, List.length_cons, dimension, List.length_cons]
        omega
  have hdims := hle t.dims
  rw [text, textOf, List.length_append]
  omega

/-- Where the dimensions can be replaced, no period is in them: the first that had one would
leave bytes of it. -/
theorem periodless_of_setdim (h : ∀ i < t.dims.length, arraySetdim t.text i [] = some (t.textOf (t.dims.set i []))) :
    t.Periodless := by
  have hprefix (ds us : List SwigType) (hdims : t.dims = ds ++ us) : ∀ d ∈ ds, chr '.' ∉ d := by
    induction ds using List.reverseRecOn generalizing us with
    | nil => exact fun d hd => absurd hd List.not_mem_nil
    | append_singleton ds d ih =>
        rw [List.append_assoc, List.singleton_append] at hdims
        have hds := ih (d :: us) hdims
        intro e he
        obtain he | he := List.mem_append.mp he
        · exact hds e he
        rw [List.mem_singleton.mp he]
        intro hd
        have hi : ds.length < t.dims.length := by
          rw [hdims, List.length_append, List.length_cons]
          omega
        have hset := h ds.length hi
        obtain ⟨rest, hrest, hlen⟩ := fromPeriod_inside hd (t.textOf us)
        rw [text, hdims, arraySetdim_behind hds, textOf_cons, hrest, Option.bind_some, List.set_append_right _ _ le_rfl,
          Nat.sub_self, List.set_cons_zero, textOf_append, textOf_cons] at hset
        have hbytes := congrArg List.length (Option.some.inj hset)
        simp [dimension, lit] at hbytes
        omega
  exact hprefix t.dims [] (List.append_nil _).symm

end ArrayType

theorem dimLaws_iff (t : ArrayType) :
    DimLaws t ↔ ∀ d ∈ t.dims, chr '.' ∉ d ∧ istemplate d = false := by
  constructor
  · intro h
    have hdot : t.Periodless := ArrayType.periodless_of_setdim fun i hi => h.setdim i hi []
    refine fun d hd => ⟨hdot d hd, ?_⟩
    obtain ⟨i, hi, rfl⟩ := List.getElem_of_mem hd
    have hget := h.getdim i hi
    rw [ArrayType.arrayGetdim_periodless hdot hi, Option.some.injEq] at hget
    by_contra htemplate
    rw [if_pos (by simpa using htemplate)] at hget
    exact namestr_ne (by simpa using htemplate) hget
  · intro h
    have hdot : t.Periodless := fun d hd => (h d hd).1
    refine ⟨ArrayType.arrayNdim_periodless hdot, fun i hi => ?_, fun i hi r => ?_, fun i hi r hr => ?_⟩
    · rw [ArrayType.arrayGetdim_periodless hdot hi, (h _ (List.getElem_mem hi)).2]
      rfl
    · exact ArrayType.arraySetdim_periodless hdot hi r
    · refine ⟨(t.setDim i hr).encoding, ?_, ?_⟩
      · rw [ArrayType.text_encoding]
        exact ArrayType.arraySetdim_periodless hdot hi r
      · have hset := (t.setDim i hr).encoding.split_text.1
        have hold := t.encoding.split_text.1
        rw [t.text_encoding] at hold
        rw [hset, hold]
        simp [Encoding.elements, ArrayType.encoding, ArrayType.setDim]

/-- `int [N<int *>::v][4]`. -/
def nestedPeriod : ArrayType where
  dims := [lit "N<(p.int)>::v", lit "4"]
  element := {
    constructors := []
    parts := [lit "i", lit "n", lit "t"]
    constructor := by simp
    part := by
      have hletters : ∀ c ∈ lit "int", c ∉ lit ".()<>" := List.all_iff_forall_prop.mp rfl
      intro p hp
      obtain ⟨c, hc, rfl⟩ : ∃ c ∈ lit "int", [c] = p := by simpa [lit, eq_comm] using hp
      exact .letter (hletters c hc)
    named := by simp }
  balanced := by
    have hargument : Balanced (chr '(') (chr ')') (lit "p.int") := .of_plain (List.all_iff_forall_prop.mp rfl)
    have hname : Balanced (chr '(') (chr ')') (lit "N<" ++ chr '(' :: (lit "p.int" ++ chr ')' :: lit ">::v")) :=
      (Balanced.of_plain (List.all_iff_forall_prop.mp rfl)).append (.group hargument (.of_plain (List.all_iff_forall_prop.mp rfl)))
    exact List.forall_mem_cons.mpr ⟨hname, by simpa using .of_plain (List.all_iff_forall_prop.mp rfl)⟩
  whole := rfl

theorem dimLaws_nestedPeriod : ¬DimLaws nestedPeriod := by
  intro h
  have hback : arrayGetdim nestedPeriod.text 1 = some (lit "4") := h.getdim 1 (by decide)
  have hnone : arrayGetdim nestedPeriod.text 1 = none := rfl
  cases hnone.symm.trans hback

/-! ### `strip_arrays` -/

/-- Behind dimensions that are `ANY` already. -/
theorem stripLoop_behind (t : ArrayType) {us : List SwigType} (h : ∀ d ∈ us, chr '.' ∉ d) (n : ℕ) :
    stripLoop (List.range' n us.length) (t.textOf (List.replicate n (lit "ANY") ++ us)) =
      some (t.textOf (List.replicate (n + us.length) (lit "ANY"))) := by
  induction us generalizing n with
  | nil => rw [List.length_nil, List.range'_zero, stripLoop, List.append_nil, Nat.add_zero]
  | cons d us ih =>
      obtain ⟨hd, hus⟩ := List.forall_mem_cons.mp h
      have hany : ∀ e ∈ List.replicate n (lit "ANY"), chr '.' ∉ e := by
        intro e he
        rw [List.eq_of_mem_replicate he]
        decide
      have hset := ArrayType.arraySetdim_behind (t := t) hany d us (lit "ANY")
      have hdimension : lit "a(" ++ lit "ANY" ++ lit ")" ++ chr '.' :: t.textOf us =
          t.textOf (lit "ANY" :: us) := by
        rw [ArrayType.textOf_cons]
        rfl
      rw [List.length_replicate, ArrayType.textOf_cons, fromPeriod_dimension hd, Option.bind_some, List.append_assoc,
        hdimension, ← ArrayType.textOf_append] at hset
      have hmore : List.replicate n (lit "ANY") ++ lit "ANY" :: us = List.replicate (n + 1) (lit "ANY") ++ us := by
        rw [List.replicate_succ', List.append_assoc, List.singleton_append]
      rw [List.length_cons, List.range'_succ, stripLoop, hset, Option.bind_some, hmore, ih hus]
      congr 3
      omega

/-- Typemaps are found by the array with every dimension `ANY`, where no dimension hides a period. -/
theorem stripArrays_periodless {t : ArrayType} (h : t.Periodless) :
    stripArrays t.text = some (t.textOf (List.replicate t.dims.length (lit "ANY"))) := by
  have hstrip := stripLoop_behind t h 0
  rw [List.replicate_zero, List.nil_append, Nat.zero_add] at hstrip
  rw [stripArrays, ArrayType.arrayNdim_periodless h, Option.bind_eq_bind, Option.bind_some, List.range_eq_range']
  exact hstrip

end Swig.SType
