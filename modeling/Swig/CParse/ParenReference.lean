import Swig.CParse.DeclaratorType

/-!
The rule `LPAREN AND direct_declarator RPAREN` puts the reference before the
constructors of the inner declarator. The declarators for which this makes a
difference, and with them all declarators whose encoding is the type of the name.
-/

namespace Swig.CParse

open SType ByteBlock

variable {s v v' : SwigType} {g : CppType → CppType}

/-- The value of a direct declarator if its rule for references put them behind the
constructors of the inner declarator, as all other rules do. -/
def Direct.behind : Direct → Option Decl
  | .idcolon id => some (.name id)
  | .notIdcolon id => some (.name (chr '~' :: id))
  | .parenPointer p d => p.value.bind fun p => d.behind.map (Decl.wrap p)
  | .parenAnd d => d.behind.map (Decl.wrap (addReference []))
  | .parenMember cls d => d.behind.map (Decl.wrap (addMemberpointer [] cls))
  | .arrayEmpty d => (addArray [] []).bind fun t => d.behind.map (Decl.wrap t)
  | .array d val => (addArray [] val).bind fun t => d.behind.map (Decl.wrap t)
  | .function d parms => d.behind.map (Decl.addFunction parms)

theorem Direct.behind_builds (d : Direct) : Builds d.behind d.declares d.Defined := by
  induction d with
  | idcolon id => exact builds_name id
  | notIdcolon id => exact builds_name _
  | parenPointer p d ih => exact ih.wrap p.adds
  | parenAnd d ih => exact ih.wrap_some adds_reference
  | parenMember cls d ih => exact ih.wrap_some (adds_memberpointer cls)
  | arrayEmpty d ih => exact ih.arrayEmpty
  | array d val ih => exact ih.wrap (adds_array val)
  | function d parms ih => exact ih.addFunction parms

/-! ### The first constructor -/

/-- The number of constructors over the base. -/
def CppType.depth : CppType → ℕ
  | .base _ => 0
  | .pointer _ _ t => t.depth + 1
  | .reference t => t.depth + 1
  | .memberPointer _ t => t.depth + 1
  | .array _ t => t.depth + 1
  | .function _ t => t.depth + 1

/-- A constructor that is no reference is put on a type. -/
def Wraps (g : CppType → CppType) : Prop := ∀ t, (g t).isReference = false ∧ t.depth < (g t).depth

theorem Pointer.wraps (p : Pointer) : Wraps p.apply := by
  intro t
  induction p generalizing t with
  | starQualifierPointer q p ih => exact ⟨(ih _).1, (Nat.lt_succ_self _).trans (ih (q.point t)).2⟩
  | starPointer p ih => exact ⟨(ih _).1, (Nat.lt_succ_self _).trans (ih (.pointer false false t)).2⟩
  | starQualifier q => exact ⟨rfl, Nat.lt_succ_self _⟩
  | star => exact ⟨rfl, Nat.lt_succ_self _⟩

/-- Only a reference and a base are encoded by a text that may start with an `r`. -/
theorem CppType.encode_head {t : CppType} (href : t.isReference = false) (hdepth : 0 < t.depth) :
    ∃ c rest, t.encode = c :: rest ∧ c ≠ chr 'r' := by
  cases t with
  | base => exact absurd hdepth (Nat.lt_irrefl 0)
  | reference => cases href
  | pointer const volatile t =>
      cases const <;> cases volatile
      · exact ⟨chr 'p', _, rfl, by decide⟩
      all_goals exact ⟨chr 'q', _, rfl, by decide⟩
  | memberPointer cls t => exact ⟨chr 'm', _, rfl, by decide⟩
  | array size t => exact ⟨chr 'a', _, rfl, by decide⟩
  | function parms t => exact ⟨chr 'f', _, rfl, by decide⟩

/-- There is no reference to a reference. -/
theorem CppType.head_ne_r {t : CppType} {rest : SwigType} (hlegal : t.Legal) (hdepth : 1 < t.depth)
    (h : t.encode = lit "r." ++ rest) : rest.head? ≠ some (chr 'r') := by
  cases t with
  | reference t =>
      obtain ⟨c, rest', henc, hc⟩ := encode_head hlegal.1 (Nat.lt_of_succ_lt_succ hdepth)
      have hrest : rest = c :: rest' := by
        rw [← henc]
        exact (List.append_cancel_left h).symm
      rw [hrest]
      intro hr
      exact hc (Option.some.inj hr)
  | base => exact absurd hdepth (Nat.not_lt_zero 1)
  | _ =>
      obtain ⟨c, rest', henc, hc⟩ := encode_head rfl (Nat.zero_lt_of_lt hdepth)
      rw [henc] at h
      exact absurd (List.cons.inj h).1 hc

theorem Wraps.head (hg : Wraps g) (hs : Reads s g) : ∃ c rest, s = c :: rest ∧ c ≠ chr 'r' := by
  have hbase := hs (.base [])
  rw [CppType.encode, List.append_nil] at hbase
  obtain ⟨href, hdepth⟩ := hg (.base [])
  rw [← hbase]
  exact CppType.encode_head href hdepth

/-! ### Two values of a declarator -/

/-- How the value of a direct declarator and the value with references put behind
are built side by side. -/
inductive Direct.Compared : Direct → SwigType → SwigType → Prop
  | name {d : Direct} (h : d.IsName) : Compared d [] []
  | wrap {d w : Direct} {v v' s : SwigType} {g : CppType → CppType} (h : Compared d v v') (hs : Reads s g)
      (hg : Wraps g) (hw : ∀ t, w.declares t = d.declares (g t)) (hand : w.AndsAtName ↔ d.AndsAtName) :
      Compared w (v ++ s) (v' ++ s)
  | parenAnd {d : Direct} {v v' : SwigType} (h : Compared d v v') :
      Compared (.parenAnd d) (lit "r." ++ v) (v' ++ lit "r.")

/-- What holds of the two values of a declarator. -/
structure Direct.Comparable (d : Direct) (x y : Option Decl) : Prop where
  compared : ∀ v v', x.map Decl.text = some v → y.map Decl.text = some v' → d.Compared v v'
  dotted : ∀ v, x.map Decl.text = some v → Dotted v
  dotted' : ∀ v', y.map Decl.text = some v' → Dotted v'

namespace Direct

variable {d w : Direct} {x y : Option Decl} {o : Option SwigType} {good : Prop}

theorem comparable_name (id : List Byte) (h : d.IsName) : d.Comparable (some (.name id)) (some (.name id)) where
  compared := by
    rintro _ _ ⟨⟩ ⟨⟩
    exact .name h
  dotted := by
    rintro _ ⟨⟩
    exact .inl rfl
  dotted' := by
    rintro _ ⟨⟩
    exact .inl rfl

/-- The same text put behind both values. -/
theorem Comparable.wrap (h : d.Comparable x y) (ho : Adds o g good) (hg : Wraps g)
    (hw : ∀ t, w.declares t = d.declares (g t)) (hand : w.AndsAtName ↔ d.AndsAtName) :
    w.Comparable (o.bind fun s => x.map (Decl.wrap s)) (o.bind fun s => y.map (Decl.wrap s)) where
  compared := by
    intro _ _ hx hy
    obtain ⟨s, u, hs, hu, rfl⟩ := text_of_wrap h.dotted hx
    obtain ⟨s', u', hs', hu', rfl⟩ := text_of_wrap h.dotted' hy
    cases hs.symm.trans hs'
    exact .wrap (h.compared u u' hu hu') (ho.reads s hs) hg hw hand
  dotted := by
    intro _ hx
    obtain ⟨s, u, hs, hu, rfl⟩ := text_of_wrap h.dotted hx
    exact (h.dotted u hu).append (ho.dotted s hs)
  dotted' := by
    intro _ hy
    obtain ⟨s, u, hs, hu, rfl⟩ := text_of_wrap h.dotted' hy
    exact (h.dotted' u hu).append (ho.dotted s hs)

/-- The two places of a reference in parentheses. -/
theorem Comparable.parenAnd (h : d.Comparable x y) :
    (Direct.parenAnd d).Comparable (x.map fun d => { d with type := some (addReference (d.type.getD [])) })
      (y.map (Decl.wrap (addReference []))) where
  compared := by
    intro _ _ hx hy
    rw [Option.map_map] at hx
    obtain ⟨e, rfl, rfl⟩ := Option.map_eq_some_iff.mp hx
    obtain ⟨s, u, hs, hu, rfl⟩ := text_of_wrap (v := some (addReference [])) h.dotted' hy
    cases hs
    exact .parenAnd (h.compared _ _ rfl hu)
  dotted := by
    intro _ hx
    rw [Option.map_map] at hx
    obtain ⟨e, rfl, rfl⟩ := Option.map_eq_some_iff.mp hx
    exact Dotted.append (.inr rfl) (h.dotted _ rfl)
  dotted' := by
    intro _ hy
    obtain ⟨s, u, hs, hu, rfl⟩ := text_of_wrap (v := some (addReference [])) h.dotted' hy
    cases hs
    exact (h.dotted' u hu).append (.inr rfl)

theorem Comparable.function (h : d.Comparable x y) (parms : List SwigType) :
    (Direct.function d parms).Comparable (x.map (Decl.addFunction parms)) (y.map (Decl.addFunction parms)) := by
  have hwrap := h.wrap (adds_function parms) (fun _ => ⟨rfl, Nat.lt_succ_self _⟩) (w := .function d parms)
    (fun _ => rfl) .rfl
  constructor
  · rw [text_addFunction, text_addFunction]
    exact hwrap.compared
  · rw [text_addFunction]
    exact hwrap.dotted
  · rw [text_addFunction]
    exact hwrap.dotted'

theorem comparable (d : Direct) : d.Comparable d.value d.behind := by
  induction d with
  | idcolon id => exact comparable_name id trivial
  | notIdcolon id => exact comparable_name _ trivial
  | parenPointer p d ih => exact ih.wrap p.adds p.wraps (fun _ => rfl) .rfl
  | parenAnd d ih => exact ih.parenAnd
  | parenMember cls d ih =>
      exact ih.wrap (adds_memberpointer cls) (fun _ => ⟨rfl, Nat.lt_succ_self _⟩) (fun _ => rfl) .rfl
  | arrayEmpty d ih =>
      exact ih.wrap (adds_array []) (fun _ => ⟨rfl, Nat.lt_succ_self _⟩) (fun _ => rfl) .rfl
  | array d val ih =>
      exact ih.wrap (adds_array val) (fun _ => ⟨rfl, Nat.lt_succ_self _⟩) (fun _ => rfl) .rfl
  | function d parms ih => exact ih.function parms

/-! ### Where the two values agree -/

theorem Compared.depth_le (h : d.Compared v v') (t : CppType) : t.depth ≤ (d.declares t).depth := by
  induction h generalizing t with
  | name h => rw [declares_name h]
  | wrap h hs hg hw hand ih =>
      rw [hw]
      exact (hg t).2.le.trans (ih _)
  | parenAnd h ih => exact (Nat.le_succ _).trans (ih (.reference t))

theorem Compared.depth_lt (h : d.Compared v v') (hne : ¬ d.IsName) (t : CppType) :
    t.depth < (d.declares t).depth := by
  cases h with
  | name h => exact absurd h hne
  | wrap h hs hg hw hand =>
      rw [hw]
      exact (hg t).2.trans_le (h.depth_le _)
  | parenAnd h => exact (Nat.lt_succ_self _).trans_le (h.depth_le (.reference t))

theorem Compared.eq_nil (h : d.Compared v v') (hname : d.IsName) : v = [] ∧ v' = [] := by
  cases h with
  | name => exact ⟨rfl, rfl⟩
  | wrap h hs hg hw hand =>
      have hlt := (hg (.base [])).2.trans_le (h.depth_le _)
      rw [← hw, declares_name hname] at hlt
      exact absurd hlt (lt_irrefl _)
  | parenAnd => exact hname.elim

theorem Compared.ne_nil (h : d.Compared v v') (hne : ¬ d.IsName) : v' ≠ [] := by
  cases h with
  | name h => exact absurd h hne
  | wrap h hs hg =>
      obtain ⟨c, rest, rfl, -⟩ := hg.head hs
      exact List.append_ne_nil_of_right_ne_nil _ (List.cons_ne_nil _ _)
  | parenAnd => exact List.append_ne_nil_of_right_ne_nil _ (List.cons_ne_nil _ _)

theorem Compared.eq_of_andsAtName (h : d.Compared v v') (hand : d.AndsAtName) : v = v' := by
  induction h with
  | name => rfl
  | wrap h hs hg hw hiff ih => rw [ih (hiff.mp hand)]
  | parenAnd h =>
      obtain ⟨rfl, rfl⟩ := h.eq_nil hand
      rfl

/-- Where the true encoding starts with a reference, so does the one built. -/
theorem Compared.head_r (h : d.Compared v v') (hr : v'.head? = some (chr 'r')) : v.head? = some (chr 'r') := by
  induction h with
  | name => exact hr
  | @wrap _ _ v v' s _ h hs hg hw hand ih =>
      cases v' with
      | nil =>
          obtain ⟨c, rest, rfl, hc⟩ := hg.head hs
          cases hr
          exact absurd rfl hc
      | cons b bs =>
          have hv := ih hr
          rw [List.head?_append, hv]
          rfl
  | parenAnd => rfl

theorem Compared.reads (h : d.Compared v v') : Reads v' d.declares := by
  induction h with
  | name h =>
      intro t
      rw [declares_name h, List.nil_append]
  | wrap h hs hg hw hand ih =>
      intro t
      rw [hw]
      exact ih.comp hs t
  | parenAnd h ih => exact ih.comp reads_reference

/-- A reference in parentheses before something else than a name is put in front of
a true encoding that starts with a reference, and so of a reference. -/
theorem Compared.andsAtName (h : d.Compared v v') {t : CppType} (hlegal : (d.declares t).Legal) (heq : v = v') :
    d.AndsAtName := by
  induction h generalizing t with
  | @name d h =>
      cases d with
      | idcolon => trivial
      | notIdcolon => trivial
      | _ => exact h.elim
  | wrap h hs hg hw hand ih =>
      rw [hw] at hlegal
      exact hand.mpr (ih hlegal (List.append_cancel_right heq))
  | @parenAnd d v v' h ih =>
      by_contra hname
      have hhead : v'.head? = some (chr 'r') := by
        have hne := h.ne_nil hname
        obtain ⟨c, rest, rfl⟩ := List.exists_cons_of_ne_nil hne
        exact congrArg List.head? heq.symm
      have htext : (d.declares (.reference t)).encode = lit "r." ++ (v ++ t.encode) := by
        rw [h.reads, ← List.append_assoc, heq, List.append_assoc]
        rfl
      have hdepth : 1 < (d.declares (.reference t)).depth :=
        (Nat.succ_le_succ (Nat.zero_le _)).trans_lt (h.depth_lt hname (.reference t))
      apply CppType.head_ne_r hlegal hdepth htext
      rw [List.head?_append, h.head_r hhead]
      rfl

end Direct

/-! ### Declarators -/

/-- A parse tree of a declarator with or without a name. -/
inductive DeclTree
  | declarator (d : Declarator)
  | abstractDeclarator (d : Abstract)

def DeclTree.value : DeclTree → Option Decl
  | .declarator d => d.value
  | .abstractDeclarator d => d.value

def DeclTree.declares : DeclTree → CppType → CppType
  | .declarator d => d.declares
  | .abstractDeclarator d => d.declares

def DeclTree.Good : DeclTree → Prop
  | .declarator d => d.Good
  | .abstractDeclarator d => d.Good

/-- The encoding built is the type of the name, read from the name outwards. -/
def DeclTree.Encodes (d : DeclTree) : Prop := ∃ r, d.value = some r ∧ Reads r.text d.declares

theorem encodes_of_builds {d : DeclTree} (h : Builds d.value d.declares d.Good) : d.Encodes ↔ d.Good := by
  constructor
  · rintro ⟨r, hr, -⟩
    rw [← h.defined, hr]
    rfl
  · intro hgood
    obtain ⟨v, hv⟩ := Option.isSome_iff_exists.mp (h.defined.mpr hgood)
    obtain ⟨r, hr, rfl⟩ := Option.map_eq_some_iff.mp hv
    exact ⟨r, hr, h.reads _ hv⟩

theorem Direct.value_isSome (d : Direct) : d.value.isSome ↔ d.Defined := by
  induction d with
  | idcolon => exact iff_of_true rfl trivial
  | notIdcolon => exact iff_of_true rfl trivial
  | parenPointer p d ih =>
      rw [Defined, ← ih, ← p.adds.defined, value]
      cases p.value <;> cases d.value <;> simp
  | parenAnd d ih => rw [Defined, ← ih, value, Option.isSome_map]
  | parenMember cls d ih => rw [Defined, ← ih, value, Option.isSome_map]
  | arrayEmpty d ih =>
      rw [Defined, ← ih, value]
      exact iff_of_eq (congrArg (· = true) (Option.isSome_map ..))
  | array d val ih =>
      rw [Defined, ← ih, ← (adds_array val).defined, value]
      cases addArray [] val <;> cases d.value <;> simp
  | function d parms ih => rw [Defined, ← ih, value, Option.isSome_map]

/-- For a legal direct declarator the encoding built is the type of the name exactly
when all is defined and each reference in parentheses stands before a name. -/
theorem Direct.encodes_iff_good (d : Direct) {t : CppType} (hlegal : (d.declares t).Legal) :
    (DeclTree.declarator (.direct d)).Encodes ↔ d.Good := by
  have hbehind := d.behind_builds
  constructor
  · rintro ⟨r, hr, hreads⟩
    obtain ⟨x, hx, rfl⟩ := Option.map_eq_some_iff.mp hr
    have hdef : d.Defined := by
      rw [← value_isSome, hx]
      rfl
    obtain ⟨v', hv'⟩ := Option.isSome_iff_exists.mp (hbehind.defined.mpr hdef)
    have hcomp := d.comparable.compared _ v' (by rw [hx, Option.map_some]) hv'
    refine ⟨hdef, hcomp.andsAtName hlegal ?_⟩
    exact List.append_cancel_right ((hreads (.base [])).symm.trans (hbehind.reads v' hv' _))
  · rintro ⟨hdef, hand⟩
    obtain ⟨v', hv'⟩ := Option.isSome_iff_exists.mp (hbehind.defined.mpr hdef)
    obtain ⟨x, hx⟩ := Option.isSome_iff_exists.mp (d.value_isSome.mpr hdef)
    have hcomp := d.comparable.compared _ v' (by rw [hx, Option.map_some]) hv'
    refine ⟨{ x with type := some (x.type.getD []) }, by rw [DeclTree.value, Declarator.value, hx]; rfl, ?_⟩
    have heq : x.text = v' := hcomp.eq_of_andsAtName hand
    exact heq ▸ hbehind.reads v' hv'

theorem DeclTree.encodes_iff_of_legal (d : DeclTree) {t : CppType} (hlegal : (d.declares t).Legal) :
    d.Encodes ↔ d.Good := by
  cases d with
  | declarator d =>
      by_cases hdirect : ∃ e, d = .direct e
      · obtain ⟨e, rfl⟩ := hdirect
        exact e.encodes_iff_good hlegal
      · exact encodes_of_builds (d.builds fun e he => hdirect ⟨e, he⟩)
  | abstractDeclarator d => exact encodes_of_builds d.builds

/-- The encoding built for a legal declarator is the type of the name exactly when
the declarator is good, and good declarators of one type have one encoding. -/
theorem DeclTree.encodes_iff (d : DeclTree) (b : List Byte) (hlegal : (d.declares (.base b)).Legal) :
    (d.Encodes ↔ d.Good) ∧ ∀ d' : DeclTree, d.Good → d'.Good → d'.declares = d.declares →
      d'.value.map Decl.text = d.value.map Decl.text := by
  refine ⟨d.encodes_iff_of_legal hlegal, ?_⟩
  intro d' hgood hgood' heq
  have hlegal' : (d'.declares (.base b)).Legal := heq ▸ hlegal
  obtain ⟨r, hr, hreads⟩ := (d.encodes_iff_of_legal hlegal).mpr hgood
  obtain ⟨r', hr', hreads'⟩ := (d'.encodes_iff_of_legal hlegal').mpr hgood'
  have htext : r'.text = r.text := by
    have h := hreads' (.base [])
    rw [heq, hreads] at h
    exact (List.append_cancel_right h).symm
  rw [hr, hr', Option.map_some, Option.map_some, htext]

/-- `(&r)[3]`. -/
def refToArray : DeclTree := .declarator (.direct (.array (.parenAnd (.idcolon (lit "r"))) (lit "3")))

theorem refToArray_encodes_iff :
    ((refToArray.declares (.base (lit "int"))).Legal ∧ refToArray.Good) ∧
      (refToArray.Encodes ↔ refToArray.Good) :=
  ⟨⟨⟨rfl, rfl, rfl, trivial⟩, ⟨Nat.le_add_left 1 506, trivial⟩, trivial⟩,
    (DeclTree.encodes_iff refToArray (lit "int") ⟨rfl, rfl, rfl, trivial⟩).1⟩

/-- `(&f(int))[3]`. -/
def funcToRef : DeclTree :=
  .declarator (.direct (.array (.parenAnd (.function (.idcolon (lit "f")) [lit "int"])) (lit "3")))

/-- The function that returns a reference to an array is encoded as a reference to a
function that returns an array. -/
theorem funcToRef_wrong : (funcToRef.declares (.base (lit "int"))).Legal ∧ ¬ funcToRef.Encodes := by
  refine ⟨⟨rfl, rfl, rfl, rfl, rfl, trivial⟩, ?_⟩
  rintro ⟨r, hr, hreads⟩
  have hvalue : r.text = lit "r.f(int).a(3)." := by
    cases hr
    rfl
  have h := hreads (.base [])
  rw [hvalue] at h
  exact absurd h (by decide)

end Swig.CParse
