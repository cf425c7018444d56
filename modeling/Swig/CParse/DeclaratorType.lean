import Swig.CParse.Declarator

/-!
The encoding that the declarator rules build is the type that C++ gives the name.
All rules but one put a new constructor behind those nearer to the name; the rule
for a reference in parentheses puts it before them.
-/

namespace Swig.CParse

open SType

/-- A text of constructors, each with its dot. -/
def Dotted (s : SwigType) : Prop := s = [] ∨ s.getLast? = some (chr '.')

/-- The text `s` is what the declarator adds to the encoding of a type. -/
def Reads (s : SwigType) (declares : CppType → CppType) : Prop := ∀ t, (declares t).encode = s ++ t.encode

/-- The search for one qualifier in the other would read bytes that were not written. -/
def TypeQualifier.Good (q : TypeQualifier) : Prop := ¬ (q.has .const_qual = true ∧ q.has .volatile = true)

def Pointer.Good : Pointer → Prop
  | .starQualifierPointer q p => q.Good ∧ p.Good
  | .starPointer p => p.Good
  | .starQualifier q => q.Good
  | .star => True

/-- The text of an array bound fits its buffer. -/
def Fits (val : List Byte) : Prop := val.length ≤ 507

def NotsoDirect.Good : NotsoDirect → Prop
  | .idcolon _ => True
  | .notIdcolon _ => True
  | .parenIdcolon _ => True
  | .parenPointer p d => p.Good ∧ d.Good
  | .parenMember _ d => d.Good
  | .arrayEmpty d => d.Good
  | .array d val => Fits val ∧ d.Good
  | .function d _ => d.Good

/-- The declarator is just a name. -/
def Direct.IsName : Direct → Prop
  | .idcolon _ => True
  | .notIdcolon _ => True
  | _ => False

/-- A reference in parentheses stands before a name only. -/
def Direct.AndsAtName : Direct → Prop
  | .idcolon _ => True
  | .notIdcolon _ => True
  | .parenPointer _ d => d.AndsAtName
  | .parenAnd d => d.IsName
  | .parenMember _ d => d.AndsAtName
  | .arrayEmpty d => d.AndsAtName
  | .array d _ => d.AndsAtName
  | .function d _ => d.AndsAtName

def Direct.Defined : Direct → Prop
  | .idcolon _ => True
  | .notIdcolon _ => True
  | .parenPointer p d => p.Good ∧ d.Defined
  | .parenAnd d => d.Defined
  | .parenMember _ d => d.Defined
  | .arrayEmpty d => d.Defined
  | .array d val => Fits val ∧ d.Defined
  | .function d _ => d.Defined

def Direct.Good (d : Direct) : Prop := d.Defined ∧ d.AndsAtName

def Declarator.Good : Declarator → Prop
  | .pointer p d => p.Good ∧ d.Good
  | .pointerAnd p d => p.Good ∧ d.Good
  | .direct d => d.Good
  | .and d => d.Good
  | .member _ d => d.Good
  | .pointerMember p _ d => p.Good ∧ d.Good
  | .pointerMemberAnd p _ d => p.Good ∧ d.Good
  | .memberAnd _ d => d.Good

mutual

def Abstract.Good : Abstract → Prop
  | .pointer p => p.Good
  | .pointerDirect p d => p.Good ∧ d.Good
  | .pointerAnd p => p.Good
  | .pointerAndDirect p d => p.Good ∧ d.Good
  | .direct d => d.Good
  | .andDirect d => d.Good
  | .and => True
  | .member _ => True
  | .pointerMember p _ => p.Good
  | .pointerMemberDirect p _ d => p.Good ∧ d.Good

def DirectAbstract.Good : DirectAbstract → Prop
  | .directArrayEmpty d => d.Good
  | .directArray d val => Fits val ∧ d.Good
  | .arrayEmpty => True
  | .array val => Fits val
  | .paren d => d.Good
  | .directFunction d _ => d.Good
  | .function _ => True

end

/-! ### Pushing constructors -/

variable {s t : SwigType} {f g : CppType → CppType}

theorem push_dotted (h : Dotted s) : push t s = s ++ t := by
  rcases h with rfl | h
  · rfl
  · have hne : s ≠ [] := by
      rintro rfl
      cases h
    rw [push, if_neg hne, if_neg]
    rintro ⟨-, hlast⟩
    exact hlast h

theorem Dotted.append (hs : Dotted s) (ht : Dotted t) : Dotted (s ++ t) := by
  rcases ht with rfl | ht
  · rwa [List.append_nil]
  · exact .inr (by rw [List.getLast?_append, ht]; rfl)

theorem Reads.comp (hf : Reads s f) (hg : Reads t g) : Reads (s ++ t) fun x => f (g x) := by
  intro x
  rw [hf, hg, List.append_assoc]

theorem dotted_qualifierText (c v : Bool) : Dotted (qualifierText c v) := by
  cases c <;> cases v <;> first | exact .inl rfl | exact .inr rfl

/-- What a declarator has built so far. -/
def Decl.text (d : Decl) : SwigType := d.type.getD []

theorem Decl.text_wrap (d : Decl) (hd : Dotted d.text) : (d.wrap s).text = d.text ++ s := by
  rw [text] at hd
  rw [text, text, Decl.wrap]
  cases htype : d.type with
  | none => rfl
  | some type =>
      rw [htype] at hd
      exact push_dotted hd

/-! ### What is built -/

/-- A text that is defined when `good` holds, and is then what `g` adds. -/
structure Adds (v : Option SwigType) (g : CppType → CppType) (good : Prop) : Prop where
  defined : v.isSome ↔ good
  dotted : ∀ s, v = some s → Dotted s
  reads : ∀ s, v = some s → Reads s g

/-- The same for the type of a declarator. -/
abbrev Builds (v : Option Decl) (f : CppType → CppType) (good : Prop) : Prop :=
  Adds (v.map Decl.text) f good

variable {v : Option SwigType} {w : Option Decl} {good good' : Prop}

protected theorem Adds.some (hs : Dotted s) (h : Reads s g) : Adds (some s) g True where
  defined := by simp
  dotted := by
    rintro _ ⟨⟩
    exact hs
  reads := by
    rintro _ ⟨⟩
    exact h

/-- One more constructor at the front of a text. -/
theorem Adds.map {k : SwigType → SwigType} (h : Adds v g good) (hs : Dotted s) (hf : Reads s f)
    (hk : ∀ t, k t = s ++ t) : Adds (v.map k) (fun x => f (g x)) good where
  defined := by rw [Option.isSome_map, h.defined]
  dotted := by
    intro _ hv
    obtain ⟨t, ht, rfl⟩ := Option.map_eq_some_iff.mp hv
    rw [hk]
    exact hs.append (h.dotted t ht)
  reads := by
    intro _ hv
    obtain ⟨t, ht, rfl⟩ := Option.map_eq_some_iff.mp hv
    rw [hk]
    exact hf.comp (h.reads t ht)

theorem text_of_wrap (hw : ∀ u, w.map Decl.text = some u → Dotted u) {x : SwigType}
    (h : (v.bind fun s => w.map (Decl.wrap s)).map Decl.text = some x) :
    ∃ s u, v = some s ∧ w.map Decl.text = some u ∧ x = u ++ s := by
  obtain ⟨r, hr', rfl⟩ := Option.map_eq_some_iff.mp h
  obtain ⟨s, hs, hsr⟩ := Option.bind_eq_some_iff.mp hr'
  obtain ⟨d, hd, rfl⟩ := Option.map_eq_some_iff.mp hsr
  have htext : w.map Decl.text = some d.text := by rw [hd, Option.map_some]
  exact ⟨s, d.text, hs, htext, d.text_wrap (hw _ htext)⟩

/-- `if ($$.type) SwigType_push(t,$$.type); $$.type = t;` where the text `t` is
defined on its own conditions. -/
theorem Builds.wrap (h : Builds w f good') (hv : Adds v g good) :
    Builds (v.bind fun s => w.map (Decl.wrap s)) (fun x => f (g x)) (good ∧ good') where
  defined := by
    rw [← hv.defined, ← h.defined]
    cases v <;> cases w <;> simp
  dotted := by
    intro _ hr
    obtain ⟨s, u, hs, hu, rfl⟩ := text_of_wrap h.dotted hr
    exact (h.dotted u hu).append (hv.dotted s hs)
  reads := by
    intro _ hr
    obtain ⟨s, u, hs, hu, rfl⟩ := text_of_wrap h.dotted hr
    exact (h.reads u hu).comp (hv.reads s hs)

/-- The same for a text that is always defined. -/
theorem Builds.wrap_some (h : Builds w f good) (hs : Adds (some s) g True) :
    Builds (w.map (Decl.wrap s)) (fun x => f (g x)) good := by
  have hwrap := h.wrap hs
  rwa [Option.bind_some, true_and] at hwrap

theorem adds_function (parms : List SwigType) : Adds (some (SType.addFunction [] parms)) (.function parms) True := by
  have hdotted : Dotted (SType.addFunction [] parms) := by
    refine .inr ?_
    rw [SType.addFunction, List.append_nil, List.getLast?_append]
    rfl
  have hreads : Reads (SType.addFunction [] parms) (.function parms) := by
    intro t
    simp [SType.addFunction, CppType.encode]
  exact .some hdotted hreads

theorem text_addFunction (w : Option Decl) (parms : List SwigType) :
    (w.map (Decl.addFunction parms)).map Decl.text =
      (w.map (Decl.wrap (SType.addFunction [] parms))).map Decl.text := by
  cases w with
  | none => rfl
  | some d =>
      rw [Option.map_some, Option.map_some, Option.map_some, Option.map_some, Decl.addFunction]
      split <;> rfl

theorem Builds.addFunction (h : Builds w f good) (parms : List SwigType) :
    Builds (w.map (Decl.addFunction parms)) (fun x => f (.function parms x)) good := by
  rw [Builds, text_addFunction]
  exact h.wrap_some (adds_function parms)

theorem Adds.noName (h : Adds v g good) : Builds (v.map Decl.noName) g good := by
  rw [Builds, Option.map_map]
  cases v <;> exact h

/-! ### Constructors -/

theorem reads_pointer : Reads (lit "p.") (.pointer false false) := fun _ => rfl

theorem reads_reference : Reads (lit "r.") .reference := fun _ => rfl

theorem adds_pointer : Adds (some (addPointer [])) (.pointer false false) True := .some (.inr rfl) reads_pointer

theorem Adds.reference (h : Adds v g good) : Adds (v.map addReference) (fun t => .reference (g t)) good :=
  h.map (.inr rfl) reads_reference fun _ => rfl

theorem dotted_memberpointer (cls : List Byte) : Dotted (lit "m(" ++ cls ++ lit ").") := by
  refine .inr ?_
  rw [List.getLast?_append]
  rfl

theorem reads_memberpointer (cls : List Byte) : Reads (lit "m(" ++ cls ++ lit ").") (.memberPointer cls) := fun _ => rfl

theorem Adds.memberpointer (h : Adds v g good) (cls : List Byte) :
    Adds (v.map (addMemberpointer · cls)) (fun t => .memberPointer cls (g t)) good :=
  h.map (dotted_memberpointer cls) (reads_memberpointer cls) fun _ => rfl

theorem adds_reference : Adds (some (addReference [])) .reference True := .some (.inr rfl) reads_reference

theorem adds_memberpointer (cls : List Byte) : Adds (some (addMemberpointer [] cls)) (.memberPointer cls) True := by
  rw [addMemberpointer, List.append_nil]
  exact .some (dotted_memberpointer cls) (reads_memberpointer cls)

theorem adds_array (val : List Byte) : Adds (addArray [] val) (.array val) (Fits val) where
  defined := by
    rw [addArray, Fits]
    split <;> simp <;> omega
  dotted s hs := by
    rw [addArray] at hs
    split at hs <;> cases hs
    refine .inr ?_
    rw [List.append_nil, List.getLast?_append]
    rfl
  reads s hs := by
    rw [addArray] at hs
    split at hs <;> cases hs
    intro t
    simp [CppType.encode]

theorem Adds.of_fits (h : Adds v g (Fits [])) : Adds v g True :=
  ⟨h.defined.trans (iff_true_intro (Nat.zero_le _)), h.dotted, h.reads⟩

/-! ### Qualifiers and pointers -/

theorem TypeQualifier.value_eq (q : TypeQualifier) : q.value =
    if q.has .const_qual = true ∧ q.has .volatile = true then none
    else some (qualifierText (q.has .const_qual) (q.has .volatile)) := by
  induction q with
  | raw q => cases q <;> rfl
  | cons q rest ih =>
      rw [value, ih]
      cases q <;> cases hc : rest.has .const_qual <;> cases hv : rest.has .volatile <;> simp [has, hc, hv] <;> rfl

theorem TypeQualifier.adds (q : TypeQualifier) : Adds (q.value.map (push (addPointer []))) q.point q.Good := by
  have hpush (c v : Bool) : push (addPointer []) (qualifierText c v) = qualifierText c v ++ lit "p." := by
    rw [push_dotted (dotted_qualifierText c v)]
    rfl
  rw [value_eq, Good]
  split
  · exact ⟨iff_of_false Bool.false_ne_true (not_not.mpr ‹_›), nofun, nofun⟩
  · rw [Option.map_some, hpush]
    refine ⟨iff_of_true rfl ‹_›, ?_, ?_⟩
    · rintro _ ⟨⟩
      exact (dotted_qualifierText _ _).append (.inr rfl)
    · rintro _ ⟨⟩ t
      rw [point, CppType.encode, List.append_assoc]

/-- A text pushed on another one. -/
theorem Adds.push {v' : Option SwigType} (hv : Adds v g good) (hv' : Adds v' f good') :
    Adds (v.bind fun s => v'.map (SType.push s)) (fun t => f (g t)) (good ∧ good') where
  defined := by
    rw [← hv.defined, ← hv'.defined]
    cases v <;> cases v' <;> simp
  dotted := by
    intro _ hr
    obtain ⟨s, hs, hsr⟩ := Option.bind_eq_some_iff.mp hr
    obtain ⟨t, ht, rfl⟩ := Option.map_eq_some_iff.mp hsr
    rw [push_dotted (hv'.dotted t ht)]
    exact (hv'.dotted t ht).append (hv.dotted s hs)
  reads := by
    intro _ hr
    obtain ⟨s, hs, hsr⟩ := Option.bind_eq_some_iff.mp hr
    obtain ⟨t, ht, rfl⟩ := Option.map_eq_some_iff.mp hsr
    rw [push_dotted (hv'.dotted t ht)]
    exact (hv'.reads t ht).comp (hv.reads s hs)

/-- The same on a text that is always defined. -/
theorem Adds.push_some (hv : Adds v g good) (hs : Adds (some s) f True) :
    Adds (v.map (SType.push · s)) (fun t => f (g t)) good := by
  have h := hv.push hs
  rw [and_true] at h
  exact Option.map_eq_bind ▸ h

theorem Pointer.adds (p : Pointer) : Adds p.value p.apply p.Good := by
  induction p with
  | starQualifierPointer q p ih =>
      have h := q.adds.push ih
      rwa [Option.bind_map] at h
  | starPointer p ih =>
      have h := adds_pointer.push ih
      rwa [Option.bind_some, true_and] at h
  | starQualifier q => exact q.adds
  | star => exact adds_pointer

/-! ### Declarators -/

theorem builds_name (id : List Byte) : Builds (some (Decl.name id)) (fun t => t) True :=
  .some (.inl rfl) fun _ => rfl

theorem Builds.arrayEmpty (h : Builds w f good) :
    Builds ((addArray [] []).bind fun s => w.map (Decl.wrap s)) (fun t => f (.array [] t)) good :=
  h.wrap_some (adds_array []).of_fits

theorem NotsoDirect.builds (d : NotsoDirect) : Builds d.value d.declares d.Good := by
  induction d with
  | idcolon id => exact builds_name id
  | notIdcolon id => exact builds_name _
  | parenIdcolon id => exact builds_name id
  | parenPointer p d ih => exact ih.wrap p.adds
  | parenMember cls d ih => exact ih.wrap_some (adds_memberpointer cls)
  | arrayEmpty d ih => exact ih.arrayEmpty
  | array d val ih => exact ih.wrap (adds_array val)
  | function d parms ih => exact ih.addFunction parms

mutual

theorem Abstract.builds : (d : Abstract) → Builds d.value d.declares d.Good
  | .pointer p => p.adds.noName
  | .pointerDirect p d => d.builds.wrap p.adds
  | .pointerAnd p => by
      have h := p.adds.reference.noName
      rwa [Option.map_map] at h
  | .pointerAndDirect p d => by
      have h := d.builds.wrap p.adds.reference
      rwa [Option.bind_map] at h
  | .direct d => d.builds
  | .andDirect d => d.builds.wrap_some adds_reference
  | .and => adds_reference.noName
  | .member cls => (adds_memberpointer cls).noName
  | .pointerMember p cls => by
      have h := (p.adds.push_some (adds_memberpointer cls)).noName
      rwa [Option.map_map] at h
  | .pointerMemberDirect p cls d => by
      have h := d.builds.wrap (p.adds.memberpointer cls)
      rwa [Option.bind_map] at h

theorem DirectAbstract.builds : (d : DirectAbstract) → Builds d.value d.declares d.Good
  | .directArrayEmpty d => d.builds.arrayEmpty
  | .directArray d val => d.builds.wrap (adds_array val)
  | .arrayEmpty => (adds_array []).of_fits.noName
  | .array val => (adds_array val).noName
  | .paren d => d.builds
  | .directFunction d parms => d.builds.addFunction parms
  | .function parms => adds_function parms

end

theorem Declarator.builds (d : Declarator) (h : ∀ e, d ≠ .direct e) : Builds d.value d.declares d.Good := by
  cases d with
  | pointer p d => exact d.builds.wrap p.adds
  | pointerAnd p d =>
      have hwrap := d.builds.wrap p.adds.reference
      rwa [Option.bind_map] at hwrap
  | direct d => exact absurd rfl (h d)
  | and d => exact d.builds.wrap_some adds_reference
  | member cls d => exact d.builds.wrap_some (adds_memberpointer cls)
  | pointerMember p cls d =>
      have hwrap := d.builds.wrap (p.adds.push_some (adds_memberpointer cls))
      rwa [Option.bind_map] at hwrap
  | pointerMemberAnd p cls d =>
      have hwrap := d.builds.wrap (p.adds.memberpointer cls).reference
      rwa [Option.map_map, Option.bind_map] at hwrap
  | memberAnd cls d => exact d.builds.wrap_some (adds_memberpointer cls).reference

theorem Direct.declares_name {d : Direct} (h : d.IsName) (t : CppType) : d.declares t = t := by
  cases d with
  | idcolon => rfl
  | notIdcolon => rfl
  | _ => exact h.elim

end Swig.CParse
