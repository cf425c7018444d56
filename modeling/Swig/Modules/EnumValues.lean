import Swig.CParse.Expr
import Swig.Errors.WarnFilter
import Mathlib.Tactic.IntervalCases

/-!
The values of enum items: the nodes that `parser.y` makes of an enum list, and the
attributes `enumvalue` and `enumvalueex` that `TypePass` (`typepass.cxx`) gives them.
-/

namespace Swig.Modules

open ByteBlock CParse Errors

/-! ### The nodes -/

/-- An item of an enum list. A node with a symbol conflict has an error and no `sym:name`;
a private one has none either. -/
structure Edecl where
  name : List Byte
  init : Option Expr
  symName : Option (List Byte)
  ignored : Bool
  error : Bool

/-- An `enumitem` node. -/
structure Enumitem where
  name : List Byte
  symName : Option (List Byte)
  value : Option (List Byte)
  enumvalue : Option (List Byte)
  enumvalueex : Option (List Byte)
  ignored : Bool
  error : Bool
  last : Bool
  virtenumvalue : Bool
  firstenumitem : Bool

/-- `edecl`. The type of its expression is never `T_CHAR`: `etype` makes `T_INT` of it. -/
def edecl (d : Edecl) : Enumitem where
  name := d.name
  symName := d.symName
  value := d.init.map fun _ => d.name
  enumvalue := d.init.map Expr.val
  enumvalueex := none
  ignored := d.ignored
  error := d.error
  last := false
  virtenumvalue := false
  firstenumitem := false

/-- `enumlist`: the first item has the attribute `_last`. -/
def enumlist : List Edecl → List Enumitem
  | [] => []
  | d :: ds => { edecl d with last := true } :: ds.map edecl

/-! ### The loop of `enumDeclaration` -/

/-- The variables of the loop. -/
structure ItemScan where
  count : ℕ
  previous : Option (List Byte)
  previousIgnored : Bool
  firstenumitem : Bool

/-- The item that a round of the loop leaves. -/
def scanItem (st : ItemScan) (c : Enumitem) : Enumitem :=
  if c.ignored then c
  else
    let c :=
      if c.enumvalue.isNone && st.previousIgnored then
        { c with
          enumvalue := some (match st.previous with
            | some previous => lit "(" ++ previous ++ lit ") + " ++ decimal (st.count + 1)
            | none => decimal st.count)
          virtenumvalue := true }
      else c
    if st.firstenumitem then c else { c with firstenumitem := true }

/-- The variables after a round; the value of the item is what it was before. -/
def nextScan (st : ItemScan) (c : Enumitem) : ItemScan :=
  if !c.ignored || c.enumvalue.isSome then
    { count := 0, previous := some (c.enumvalue.getD c.name), previousIgnored := c.ignored,
      firstenumitem := st.firstenumitem || !c.ignored }
  else { st with count := st.count + 1, previousIgnored := true }

def scanItems : ItemScan → List Enumitem → List Enumitem
  | _, [] => []
  | st, c :: cs => scanItem st c :: scanItems (nextScan st c) cs

def scanStart : ItemScan where
  count := 0
  previous := none
  previousIgnored := false
  firstenumitem := false

/-! ### The children -/

/-- The text of a `sym:name`; `Printf` prints nothing for a null pointer. -/
def symText (symName : Option (List Byte)) : List Byte := symName.getD []

/-- The attribute `value` that `enumvalueDeclaration` leaves. `scope` is the qualified name
of the scope of the item, where it is in a namespace or a class of C++. -/
def qualifiedValue (scope : Option (List Byte)) (n : Enumitem) : Option (List Byte) :=
  if n.value.getD n.name = n.name then some ((scope.map (· ++ lit "::")).getD [] ++ n.name) else n.value

/-- The part of `enumvalueDeclaration` about the item itself. -/
def ownValues (scope : Option (List Byte)) (n : Enumitem) : Enumitem :=
  { n with
    value := qualifiedValue scope n
    enumvalueex := if !n.ignored && n.last && n.enumvalue.isNone then some (lit "0") else n.enumvalueex }

/-- The part of `enumvalueDeclaration` about the next item. -/
def nextValueex (n next : Enumitem) : Enumitem :=
  if !n.ignored && next.enumvalue.isNone then { next with enumvalueex := some (symText n.symName ++ lit " + 1") }
  else next

/-- `emit_one`, for an item and the one behind it. -/
def emitOne (scope : Option (List Byte)) (n : Enumitem) (next : Option Enumitem) : Enumitem × Option Enumitem :=
  if n.error then (n, next) else (ownValues scope n, next.map (nextValueex n))

/-- `emit_children`, from a child on. -/
def emitChildren (scope : Option (List Byte)) : Enumitem → List Enumitem → List Enumitem
  | n, [] => [(emitOne scope n none).1]
  | n, next :: rest =>
      let r := emitOne scope n (some next)
      r.1 :: emitChildren scope (r.2.getD next) rest

/-- What `TypePass::enumDeclaration` does to the items of an enum. -/
def enumDeclaration (scope : Option (List Byte)) (items : List Enumitem) : List Enumitem :=
  match scanItems scanStart items with
  | [] => []
  | n :: rest => emitChildren scope n rest

/-! ### What the attributes are -/

variable {scope : Option (List Byte)} {ds pre post : List Edecl} {d a : Edecl}

/-- The attribute `enumvalue` that a round of the loop leaves. -/
def scannedValue (st : ItemScan) (c : Enumitem) : Option (List Byte) :=
  if !c.ignored && c.enumvalue.isNone && st.previousIgnored then
    some (match st.previous with
      | some previous => lit "(" ++ previous ++ lit ") + " ++ decimal (st.count + 1)
      | none => decimal st.count)
  else c.enumvalue

theorem scanItem_eq (st : ItemScan) (c : Enumitem) : ∃ v f,
    scanItem st c = { c with enumvalue := scannedValue st c, virtenumvalue := v, firstenumitem := f } := by
  obtain ⟨name, symName, value, enumvalue, enumvalueex, ignored, error, last, v, f⟩ := c
  obtain ⟨count, previous, previousIgnored, first⟩ := st
  cases ignored <;> cases enumvalue <;> cases previousIgnored <;> cases first <;> exact ⟨_, _, rfl⟩

/-- The variables of the loop behind some items. -/
def scanned (pre : List Edecl) : ItemScan := pre.foldl (fun st d => nextScan st (edecl d)) scanStart

theorem scanned_concat (pre : List Edecl) (d : Edecl) :
    scanned (pre ++ [d]) = nextScan (scanned pre) (edecl d) := by
  rw [scanned, List.foldl_append]
  rfl

theorem scanItems_getElem? (st : ItemScan) (pre post : List Edecl) (d : Edecl) :
    (scanItems st ((pre ++ d :: post).map edecl))[pre.length]? =
      some (scanItem (pre.foldl (fun st d => nextScan st (edecl d)) st) (edecl d)) := by
  induction pre generalizing st with
  | nil => rfl
  | cons a pre ih => exact ih (nextScan st (edecl a))

/-- The first item gets its attributes from no other one. -/
theorem emitChildren_head (n : Enumitem) (rest : List Enumitem) :
    (emitChildren scope n rest)[0]? = some (emitOne scope n none).1 := by
  cases rest with
  | nil => rfl
  | cons next rest =>
      rw [emitChildren, emitOne, emitOne]
      split <;> rfl

/-- What `emit_one` of an item does to the next one. -/
def handed (n next : Enumitem) : Enumitem := if n.error then next else nextValueex n next

theorem emitChildren_cons (n next : Enumitem) (rest : List Enumitem) :
    emitChildren scope n (next :: rest) = (emitOne scope n none).1 :: emitChildren scope (handed n next) rest := by
  rw [emitChildren, handed, emitOne, emitOne]
  split <;> rfl

theorem handed_enumvalue (n next : Enumitem) : (handed n next).enumvalue = next.enumvalue := by
  unfold handed nextValueex
  repeat' split
  all_goals rfl

theorem handed_last (n next : Enumitem) : (handed n next).last = next.last := by
  unfold handed nextValueex
  repeat' split
  all_goals rfl

theorem handed_enumvalueex (n next : Enumitem) :
    (handed n next).enumvalueex =
      if !n.error && !n.ignored && next.enumvalue.isNone then some (symText n.symName ++ lit " + 1")
      else next.enumvalueex := by
  unfold handed nextValueex
  cases n.error <;> cases n.ignored <;> cases next.enumvalue <;> rfl

/-- An item passes on what it was before it got an attribute itself. -/
theorem handed_handed (a n next : Enumitem) : handed (handed a n) next = handed n next := by
  unfold handed nextValueex
  cases a.error <;> cases a.ignored <;> cases n.enumvalue <;> rfl

/-- The attributes of an item that isn't the first one. -/
theorem emitChildren_succ {n b c : Enumitem} {rest : List Enumitem} {k : ℕ} (hb : (n :: rest)[k]? = some b)
    (hc : rest[k]? = some c) :
    (emitChildren scope n rest)[k + 1]? = some (emitOne scope (handed b c) none).1 := by
  induction rest generalizing n b k with
  | nil => cases hc
  | cons next rest ih =>
      rw [emitChildren_cons, List.getElem?_cons_succ]
      cases k with
      | zero =>
          obtain rfl : next = c := Option.some.inj hc
          obtain rfl : n = b := Option.some.inj hb
          exact emitChildren_head _ _
      | succ k =>
          cases k with
          | zero =>
              obtain rfl : next = b := Option.some.inj hb
              rw [ih rfl hc, handed_handed]
          | succ k => exact ih hb hc

/-- What makes `enumvalueex` of an item: its own place in the enum, or the item before it. -/
def scannedValueex (before : Option Edecl) (d : Edecl) : Option (List Byte) :=
  match before with
  | none => if !d.error && !d.ignored then some (lit "0") else none
  | some b => if !b.error && !b.ignored then some (symText b.symName ++ lit " + 1") else none

theorem emitOne_enumvalue (n : Enumitem) : (emitOne scope n none).1.enumvalue = n.enumvalue := by
  unfold emitOne
  split <;> rfl

theorem emitOne_enumvalueex (n : Enumitem) :
    (emitOne scope n none).1.enumvalueex =
      if !n.error && !n.ignored && n.last && n.enumvalue.isNone then some (lit "0") else n.enumvalueex := by
  unfold emitOne ownValues
  cases n.error <;> rfl

/-- The attributes of the node of an item. -/
theorem enumDeclaration_node (pre : List Edecl) (d : Edecl) (post : List Edecl) : ∃ n,
    (enumDeclaration scope (enumlist (pre ++ d :: post)))[pre.length]? = some n ∧
      n.enumvalue = scannedValue (scanned pre) (edecl d) ∧
      n.enumvalueex =
        if (scannedValue (scanned pre) (edecl d)).isNone then scannedValueex pre.getLast? d else none := by
  cases pre with
  | nil =>
      obtain ⟨v, f, hscan⟩ := scanItem_eq scanStart { edecl d with last := true }
      refine ⟨_, emitChildren_head _ _, ?_, ?_⟩
      · rw [emitOne_enumvalue, hscan]
        rfl
      · rw [emitOne_enumvalueex, hscan]
        change (if !d.error && !d.ignored && true && (scannedValue scanStart (edecl d)).isNone then _ else none) = _
        rw [scanned, List.foldl_nil, List.getLast?_nil, scannedValueex]
        cases d.error <;> cases d.ignored <;> cases (scannedValue scanStart (edecl d)) <;> rfl
  | cons a pre =>
      have hc := scanItems_getElem? (nextScan scanStart (edecl a)) pre post d
      change _ = some (scanItem (scanned (a :: pre)) (edecl d)) at hc
      obtain ⟨b, b', hlast, hb, herror, hignored, hsym⟩ : ∃ b b', (a :: pre).getLast? = some b ∧
          (scanItem scanStart { edecl a with last := true } ::
            scanItems (nextScan scanStart (edecl a)) ((pre ++ d :: post).map edecl))[pre.length]? = some b' ∧
          b'.error = b.error ∧ b'.ignored = b.ignored ∧ b'.symName = b.symName := by
        rcases List.eq_nil_or_concat' pre with rfl | ⟨pre, b, rfl⟩
        · obtain ⟨v, f, hscan⟩ := scanItem_eq scanStart { edecl a with last := true }
          exact ⟨a, _, rfl, rfl, by rw [hscan]; exact ⟨rfl, rfl, rfl⟩⟩
        · have hb := scanItems_getElem? (nextScan scanStart (edecl a)) pre (d :: post) b
          obtain ⟨v, f, hscan⟩ := scanItem_eq
            (pre.foldl (fun st d => nextScan st (edecl d)) (nextScan scanStart (edecl a))) (edecl b)
          rw [hscan] at hb
          have hlast : (a :: (pre ++ [b])).getLast? = some b := by
            rw [← List.cons_append, List.getLast?_concat]
          rw [List.length_append, List.length_singleton, List.append_assoc]
          exact ⟨b, _, hlast, List.getElem?_cons_succ.trans hb, rfl, rfl, rfl⟩
      refine ⟨_, emitChildren_succ hb hc, ?_, ?_⟩
      · obtain ⟨v, f, hscan⟩ := scanItem_eq (scanned (a :: pre)) (edecl d)
        rw [emitOne_enumvalue, handed_enumvalue, hscan]
      · obtain ⟨v, f, hscan⟩ := scanItem_eq (scanned (a :: pre)) (edecl d)
        rw [emitOne_enumvalueex, handed_enumvalueex, handed_last, hscan, hlast, scannedValueex, herror, hignored, hsym]
        change (if _ && false && _ then _
          else if _ && (scannedValue (scanned (a :: pre)) (edecl d)).isNone then _ else none) = _
        rw [Bool.and_false, Bool.false_and]
        cases b.error <;> cases b.ignored <;> cases (scannedValue (scanned (a :: pre)) (edecl d)) <;> rfl

/-! ### What C makes of the items -/

/-- The meaning of the texts: `source` is the value of an expression where it is written,
`value` that of a text in the scope of the enum, and `target` that of a text in the target
language. -/
structure Constants where
  source : Expr → ℤ
  value : List Byte → Option ℤ
  target : List Byte → Option ℤ

variable {M : Constants}

/-- The value of an item without an expression, behind some others. -/
def implicitValue (M : Constants) (pre : List Edecl) : ℤ :=
  pre.foldl (fun v d => (d.init.map M.source).getD v + 1) 0

def valueOf (M : Constants) (pre : List Edecl) (d : Edecl) : ℤ := (d.init.map M.source).getD (implicitValue M pre)

/-- The text that stands for an item: its expression as the parser keeps it, or its name. -/
def Edecl.text (d : Edecl) : List Byte := (d.init.map Expr.val).getD d.name

/-- The texts that are made of an item mean what they say, and its names are its value. -/
structure Reads (M : Constants) (ds : List Edecl) : Prop where
  name : ∀ pre d post, ds = pre ++ d :: post → M.value d.name = some (valueOf M pre d)
  symName : ∀ pre d post, ds = pre ++ d :: post → symText d.symName ≠ [] →
    M.target (symText d.symName) = some (valueOf M pre d)
  sum : ∀ d ∈ ds, ∀ k ≤ ds.length,
    M.value (lit "(" ++ d.text ++ lit ") + " ++ decimal k) = (M.value d.text).map (· + (k : ℤ))
  number : ∀ k ≤ ds.length, M.value (decimal k) = some (k : ℤ)
  zero : M.target (lit "0") = some 0
  succ : ∀ d ∈ ds, symText d.symName ≠ [] →
    M.target (symText d.symName ++ lit " + 1") = (M.target (symText d.symName)).map (· + 1)
  one : M.target (lit " + 1") = some 1

/-- Whether the last of some items is ignored. -/
def endsIgnored (pre : List Edecl) : Bool := pre.getLast?.any Edecl.ignored

/-- Every item that isn't ignored has an expression of its value: in `enumvalue`, if the
item before it is ignored, and in `enumvalueex`, if it has no value of its own otherwise. -/
def Valued (M : Constants) (ds : List Edecl) (nodes : List Enumitem) : Prop :=
  ∀ pre d post, ds = pre ++ d :: post → d.ignored = false →
    ∃ n, nodes[pre.length]? = some n ∧
      (endsIgnored pre = true → ∃ e, n.enumvalue = some e ∧ M.value e = some (valueOf M pre d)) ∧
      (endsIgnored pre = false → d.init = none →
        ∃ e, n.enumvalueex = some e ∧ M.target e = some (implicitValue M pre))

/-- The last item that has an expression or isn't ignored. -/
def anchor (pre : List Edecl) : Option Edecl :=
  pre.foldl (fun a d => if d.init.isSome || !d.ignored then some d else a) none

/-- The text of the expression of an item has the value that the expression has. -/
def Kept (M : Constants) (d : Edecl) : Prop := ∀ e ∈ d.init, M.value e.val = some (M.source e)

/-- What the values of an item rests on. -/
def Rests (M : Constants) (ds : List Edecl) : Prop :=
  ∀ pre d post, ds = pre ++ d :: post → d.ignored = false →
    (endsIgnored pre = true → Kept M d ∧ (d.init = none → ∀ a ∈ anchor pre, Kept M a)) ∧
    (endsIgnored pre = false → d.init = none →
      match pre.getLast? with
      | none => d.error = false
      | some b => b.error = false ∧ (symText b.symName ≠ [] ∨ implicitValue M pre = 1))

/-! ### The variables of the loop and the values -/

theorem anchor_concat (pre : List Edecl) (d : Edecl) :
    anchor (pre ++ [d]) = if d.init.isSome || !d.ignored then some d else anchor pre := by
  rw [anchor, List.foldl_append]
  rfl

theorem implicitValue_concat (pre : List Edecl) (d : Edecl) :
    implicitValue M (pre ++ [d]) = valueOf M pre d + 1 := by
  rw [implicitValue, List.foldl_append]
  rfl

theorem endsIgnored_concat (pre : List Edecl) (d : Edecl) : endsIgnored (pre ++ [d]) = d.ignored := by
  rw [endsIgnored, List.getLast?_concat, Option.any_some]

/-- The item `a` has the value `v`, by its name or by its expression. -/
structure Anchored (M : Constants) (a : Edecl) (v : ℤ) : Prop where
  name : a.init = none → M.value a.name = some v
  init : ∀ e ∈ a.init, M.source e = v

/-- What the loop knows behind some items. -/
structure Counted (M : Constants) (pre : List Edecl) : Prop where
  previousIgnored : (scanned pre).previousIgnored = endsIgnored pre
  count_le : (scanned pre).count ≤ pre.length
  start : anchor pre = none → (scanned pre).previous = none ∧ implicitValue M pre = (scanned pre).count
  anchored : ∀ a, anchor pre = some a → a ∈ pre ∧ (scanned pre).previous = some a.text ∧
    ∃ v, Anchored M a v ∧ implicitValue M pre = v + ((scanned pre).count + 1 : ℕ)

/-- The value of an item that the count starts from. -/
theorem Reads.anchored (hr : Reads M ds) (h : ds = pre ++ d :: post) : Anchored M d (valueOf M pre d) where
  name _ := hr.name pre d post h
  init e he := by
    rw [valueOf, Option.mem_def.mp he]
    rfl

theorem counted (hr : Reads M ds) (h : ds = pre ++ post) : Counted M pre := by
  induction pre using List.reverseRecOn generalizing post with
  | nil => exact ⟨rfl, le_rfl, fun _ => ⟨rfl, rfl⟩, nofun⟩
  | append_singleton pre d ih =>
      rw [List.append_assoc, List.singleton_append] at h
      have hpre := ih h
      have hscan := scanned_concat pre d
      rw [nextScan] at hscan
      cases hresets : d.init.isSome || !d.ignored with
      | true =>
          have hflag : (!(edecl d).ignored || (edecl d).enumvalue.isSome) = true := by
            rw [← hresets, edecl, Option.isSome_map, Bool.or_comm]
          rw [if_pos hflag] at hscan
          have hanchor : anchor (pre ++ [d]) = some d := by rw [anchor_concat, hresets, if_pos rfl]
          refine ⟨?_, ?_, fun hnone => ?_, fun a ha => ?_⟩
          · rw [hscan, endsIgnored_concat]
            rfl
          · rw [hscan]
            exact Nat.zero_le _
          · rw [hanchor] at hnone
            cases hnone
          · obtain rfl : d = a := Option.some.inj (hanchor.symm.trans ha)
            refine ⟨by simp, ?_, _, hr.anchored h, ?_⟩
            · rw [hscan]
              rfl
            · rw [implicitValue_concat, hscan]
              rfl
      | false =>
          obtain ⟨hinit, hignored⟩ := Bool.or_eq_false_iff.mp hresets
          have hnone : d.init = none := Option.not_isSome_iff_eq_none.mp (by simp [hinit])
          have hflag : ¬(!(edecl d).ignored || (edecl d).enumvalue.isSome) = true := by
            rw [edecl, Option.isSome_map, Bool.or_comm, hresets]
            exact Bool.false_ne_true
          rw [if_neg hflag] at hscan
          have hanchor : anchor (pre ++ [d]) = anchor pre := by rw [anchor_concat, hresets, if_neg Bool.false_ne_true]
          have hvalue : implicitValue M (pre ++ [d]) = implicitValue M pre + 1 := by
            rw [implicitValue_concat, valueOf, hnone]
            rfl
          refine ⟨?_, ?_, fun hstart => ?_, fun a ha => ?_⟩
          · rw [hscan, endsIgnored_concat]
            exact (by simpa using hignored : d.ignored = true).symm
          · rw [hscan, List.length_append, List.length_singleton]
            exact Nat.succ_le_succ hpre.count_le
          · obtain ⟨hprevious, himplicit⟩ := hpre.start (hanchor ▸ hstart)
            rw [hscan, hvalue, himplicit]
            exact ⟨hprevious, rfl⟩
          · obtain ⟨hmem, hprevious, v, hv, himplicit⟩ := hpre.anchored a (hanchor ▸ ha)
            refine ⟨List.mem_append_left _ hmem, ?_, v, hv, ?_⟩
            · rw [hscan]
              exact hprevious
            · rw [hscan, hvalue, himplicit]
              exact Int.add_assoc v _ 1

/-! ### The values of the items -/

/-- The text of an item is its value, if it is kept. -/
theorem Anchored.text_iff {v : ℤ} (h : Anchored M a v) : M.value a.text = some v ↔ Kept M a := by
  cases hinit : a.init with
  | none =>
      rw [Edecl.text, hinit]
      exact iff_of_true (h.name hinit) fun e he => by rw [hinit] at he; cases he
  | some e =>
      rw [Edecl.text, hinit, Kept, hinit]
      change M.value e.val = some v ↔ ∀ e' ∈ some e, _
      rw [← h.init e (by rw [hinit]; rfl)]
      exact ⟨fun h e' he' => Option.some.inj he' ▸ h, fun h => h e rfl⟩

/-- The value of an item behind an ignored one. -/
theorem enumvalue_iff (hr : Reads M ds) (h : ds = pre ++ d :: post) (hd : d.ignored = false)
    (hend : endsIgnored pre = true) :
    (∃ e, scannedValue (scanned pre) (edecl d) = some e ∧ M.value e = some (valueOf M pre d)) ↔
      Kept M d ∧ (d.init = none → ∀ a ∈ anchor pre, Kept M a) := by
  have hpre := counted hr h
  have hlength : (scanned pre).count + 1 ≤ ds.length := by
    rw [h, List.length_append, List.length_cons]
    have hle := hpre.count_le
    omega
  rw [scannedValue, hpre.previousIgnored, hend]
  cases hinit : d.init with
  | some e =>
      have htext : (edecl d).enumvalue = some d.text := by rw [edecl, Edecl.text, hinit]; rfl
      rw [htext, ← (hr.anchored h).text_iff]
      simp
  | none =>
      have htext : (edecl d).enumvalue = none := by rw [edecl, hinit]; rfl
      have hkept : Kept M d := fun e he => by rw [hinit] at he; cases he
      have hvalue : valueOf M pre d = implicitValue M pre := by rw [valueOf, hinit]; rfl
      have hignored : (edecl d).ignored = false := hd
      rw [htext, hignored, hvalue]
      simp only [Bool.not_false, Option.isNone_none, Bool.and_self, if_true, Option.some.injEq, exists_eq_left',
        hkept, true_and, forall_const]
      cases hanchor : anchor pre with
      | none =>
          obtain ⟨hprevious, himplicit⟩ := hpre.start hanchor
          rw [hprevious, himplicit]
          exact iff_of_true (hr.number _ (by omega)) nofun
      | some a =>
          obtain ⟨hmem, hprevious, v, hv, himplicit⟩ := hpre.anchored a hanchor
          rw [hprevious, himplicit]
          dsimp only
          rw [hr.sum a (h ▸ List.mem_append_left _ hmem) _ hlength]
          simp only [Option.mem_some_iff, forall_eq']
          rw [← hv.text_iff]
          cases M.value a.text <;> simp

/-- The value of an item that is first or behind one that isn't ignored. -/
theorem enumvalueex_iff (hr : Reads M ds) (h : ds = pre ++ d :: post) (hd : d.ignored = false)
    (hend : endsIgnored pre = false) :
    (∃ e, scannedValueex pre.getLast? d = some e ∧ M.target e = some (implicitValue M pre)) ↔
      match pre.getLast? with
      | none => d.error = false
      | some b => b.error = false ∧ (symText b.symName ≠ [] ∨ implicitValue M pre = 1) := by
  rcases List.eq_nil_or_concat' pre with rfl | ⟨p, b, rfl⟩
  · rw [List.getLast?_nil, scannedValueex, hd]
    cases d.error with
    | true => simp
    | false =>
        have hzero : M.target (lit "0") = some (implicitValue M []) := hr.zero
        simpa using hzero
  · rw [endsIgnored_concat] at hend
    rw [List.getLast?_concat, scannedValueex, hend]
    rw [List.append_assoc, List.singleton_append] at h
    dsimp only
    cases b.error with
    | true => simp
    | false =>
        by_cases hsym : symText b.symName = []
        · rw [hsym]
          have hone : M.target ([] ++ lit " + 1") = some 1 := hr.one
          simp only [Bool.not_false, Bool.and_self, if_true, Option.some.injEq, exists_eq_left', hone]
          simp [eq_comm]
        · have hvalue : M.target (symText b.symName ++ lit " + 1") = some (implicitValue M (p ++ [b])) := by
            rw [hr.succ b (h ▸ List.mem_append_right _ List.mem_cons_self) hsym, hr.symName p b _ h hsym,
              implicitValue_concat]
            rfl
          simp [hvalue, hsym]

/-- The attributes of every item evaluate to its value exactly where every item behind
ignored ones rests on a text that is kept, and every other one without an expression is
the first one or behind one with a name. -/
theorem enumDeclaration_valued_iff (hr : Reads M ds) :
    Valued M ds (enumDeclaration scope (enumlist ds)) ↔ Rests M ds := by
  refine forall_congr' fun pre => forall_congr' fun d => forall_congr' fun post => forall_congr' fun h =>
    forall_congr' fun hd => ?_
  obtain ⟨n, hn, henumvalue, henumvalueex⟩ := @enumDeclaration_node scope pre d post
  have hother (hend : endsIgnored pre = false) (hinit : d.init = none) :
      n.enumvalueex = scannedValueex pre.getLast? d := by
    have hnone : scannedValue (scanned pre) (edecl d) = none := by
      rw [scannedValue, (counted hr h).previousIgnored, hend, Bool.and_false, if_neg Bool.false_ne_true, edecl, hinit]
      rfl
    rw [henumvalueex, hnone, Option.isNone_none, if_pos rfl]
  rw [h, hn]
  simp only [Option.some.injEq, exists_eq_left']
  refine and_congr (forall_congr' fun hend => ?_) (forall_congr' fun hend => forall_congr' fun hinit => ?_)
  · rw [henumvalue]
    exact enumvalue_iff hr h hd hend
  · rw [hother hend hinit]
    exact enumvalueex_iff hr h hd hend

/-! ### An ignored item and one behind it -/

/-- The value of a name, a number, or one of them, maybe in parentheses, with a number added. -/
def constantText (names : List (List Byte × ℤ)) (t : List Byte) : Option ℤ :=
  let operand := (t.takeWhile (· != chr ' ')).filter fun c => c != chr '(' && c != chr ')'
  let v := if operand.all isdigit then some (digitsVal operand : ℤ) else names.lookup operand
  match t.dropWhile (· != chr ' ') with
  | [] => v
  | plus => v.map (· + (digitsVal (plus.drop 3) : ℤ))

/-- What C makes of a number and of a character constant. -/
def literalValue : Expr → ℤ
  | .num _ text => digitsVal text
  | .charconst text => (text.headD 0).toNat
  | _ => 0

/-- `enum { A = e, B };`, with `%ignore A;`. -/
def ignoredFirst (e : Expr) : List Edecl :=
  [⟨lit "A", some e, none, true, false⟩, ⟨lit "B", none, some (lit "B"), false, false⟩]

def literalConstants (e : Expr) : Constants where
  source := literalValue
  value := constantText [(lit "A", literalValue e), (lit "B", literalValue e + 1)]
  target := constantText [(lit "B", literalValue e + 1)]

theorem ignoredFirst_cases {e : Expr} (h : ignoredFirst e = pre ++ d :: post) :
    pre = [] ∧ d = ⟨lit "A", some e, none, true, false⟩ ∨
      pre = [⟨lit "A", some e, none, true, false⟩] ∧ d = ⟨lit "B", none, some (lit "B"), false, false⟩ := by
  rcases pre with _ | ⟨a, _ | ⟨b, pre⟩⟩
  · exact .inl ⟨rfl, (List.cons.inj h).1.symm⟩
  · obtain ⟨ha, h⟩ := List.cons.inj h
    exact .inr ⟨by rw [ha], (List.cons.inj h).1.symm⟩
  · have hlength := congrArg List.length h
    simp [ignoredFirst] at hlength

theorem reads_ignoredFirst {e : Expr}
    (hsum : ∀ k ≤ 2, (literalConstants e).value (lit "(" ++ e.val ++ lit ") + " ++ decimal k) =
      ((literalConstants e).value e.val).map (· + (k : ℤ))) : Reads (literalConstants e) (ignoredFirst e) where
  name pre d post h := by
    obtain ⟨rfl, rfl⟩ | ⟨rfl, rfl⟩ := ignoredFirst_cases h
    · rfl
    · rfl
  symName pre d post h hsym := by
    obtain ⟨rfl, rfl⟩ | ⟨rfl, rfl⟩ := ignoredFirst_cases h
    · exact absurd rfl hsym
    · rfl
  sum d hd k hk := by
    rcases List.mem_cons.mp hd with rfl | hd
    · exact hsum k hk
    · obtain rfl := List.mem_singleton.mp hd
      have hk : k ≤ 2 := hk
      interval_cases k <;> rfl
  number k hk := by
    have hk : k ≤ 2 := hk
    interval_cases k <;> rfl
  zero := rfl
  succ d hd hsym := by
    rcases List.mem_cons.mp hd with rfl | hd
    · exact absurd rfl hsym
    · obtain rfl := List.mem_singleton.mp hd
      rfl
  one := rfl

/-- The character constant of an ignored item loses its quotes: `B` becomes `(a) + 1`. -/
theorem ignoredChar_not_valued : ¬∀ scope M ds, Reads M ds → Valued M ds (enumDeclaration scope (enumlist ds)) := by
  intro h
  have hr : Reads (literalConstants (.charconst (lit "a"))) (ignoredFirst (.charconst (lit "a"))) :=
    reads_ignoredFirst fun k hk => by interval_cases k <;> rfl
  obtain ⟨n, hn, hvalue, -⟩ := h none _ _ hr [_] _ [] rfl rfl
  obtain rfl := Option.some.inj hn
  obtain ⟨e, he, hvalue⟩ := hvalue rfl
  obtain rfl := Option.some.inj he
  cases hvalue

theorem ignoredNumber_valued :
    Valued (literalConstants (.num .int (lit "5"))) (ignoredFirst (.num .int (lit "5")))
      (enumDeclaration none (enumlist (ignoredFirst (.num .int (lit "5"))))) := by
  refine (enumDeclaration_valued_iff (reads_ignoredFirst fun k hk => by interval_cases k <;> rfl)).mpr ?_
  intro pre d post h hd
  obtain ⟨rfl, rfl⟩ | ⟨rfl, rfl⟩ := ignoredFirst_cases h
  · cases hd
  · refine ⟨fun _ => ⟨nofun, fun _ a ha e he => ?_⟩, nofun⟩
    obtain rfl := Option.some.inj ha
    obtain rfl := Option.some.inj he
    rfl

end Swig.Modules
