import Swig.Typemap.Register

/-!
What registering does to the hashes of the current scope: the key under which a type is
found stays the same, and one method of one slot changes.
-/

namespace Swig.Typemap

open DOH SType Naming ByteBlock

/-- A template stays one when its default arguments are applied and it is qualified. -/
structure LawfulTypeFns extends TypeFns where
  istemplate_key : ∀ t, istemplate t → istemplate (toTypeFns.key t)

/-- The key where the hash of a type is found or made, of the keys that are there. -/
def TypeFns.home (f : TypeFns) (known : SwigType → Prop) [DecidablePred known] (type : SwigType) : SwigType :=
  if known (f.key type) then f.key type
  else if istemplate type ∧ known (templatePrefix (f.key type)) then templatePrefix (f.key type)
  else f.key type

variable {f : TypeFns} {T : Typemaps} {k : SwigType} {n : Option (List Byte)} {m tm_method : List Byte}
  {p : Parm} {change : Method → Method} {type : SwigType}

theorem TypeHash.slot_setSlot (tm : TypeHash) (n n' : Option (List Byte)) (tm1 : StringTable Method) :
    (tm.setSlot n tm1).slot n' = if n' = n then some tm1 else tm.slot n' := by
  cases n with
  | none =>
      cases n' with
      | none => rfl
      | some name => rfl
  | some name =>
      cases n' with
      | none => rfl
      | some name' =>
          simp only [setSlot, slot, StringTable.get_set, Option.some.injEq]

namespace Typemaps

/-- The current scope has a hash for the key. -/
def Known (T : Typemaps) (k : SwigType) : Prop := ((T.typemaps T.tm_scope).get k).isSome

instance (T : Typemaps) : DecidablePred T.Known := fun _ => inferInstanceAs (Decidable (_ = true))

def home (f : TypeFns) (T : Typemaps) (type : SwigType) : SwigType := f.home T.Known type

/-- The methods of a key and a name in the current scope. -/
def slotAt (T : Typemaps) (k : SwigType) (n : Option (List Byte)) : Option (StringTable Method) :=
  ((T.typemaps T.tm_scope).get k).bind (·.slot n)

def methodAt (T : Typemaps) (k : SwigType) (n : Option (List Byte)) (tm_method : List Byte) : Option Method :=
  (T.slotAt k n).bind (·.get tm_method)

/-- The code that a method of the current scope carries. -/
def codeAt (T : Typemaps) (k : SwigType) (n : Option (List Byte)) (tm_method : List Byte) : Option (List Byte) :=
  (T.methodAt k n tm_method).bind Method.code

theorem known_of_slotAt (h : (T.slotAt k n).isSome) : T.Known k := by
  obtain ⟨tm1, htm1⟩ := Option.isSome_iff_exists.mp h
  obtain ⟨tm, htm, -⟩ := Option.bind_eq_some_iff.mp htm1
  exact Option.isSome_of_eq_some htm

theorem slotAt_of_methodAt (h : (T.methodAt k n m).isSome) : (T.slotAt k n).isSome := by
  obtain ⟨e, he⟩ := Option.isSome_iff_exists.mp h
  obtain ⟨tm1, htm1, -⟩ := Option.bind_eq_some_iff.mp he
  exact Option.isSome_of_eq_some htm1

theorem methodAt_of_codeAt (h : (T.codeAt k n m).isSome) : (T.methodAt k n m).isSome := by
  obtain ⟨c, hc⟩ := Option.isSome_iff_exists.mp h
  obtain ⟨e, he, -⟩ := Option.bind_eq_some_iff.mp hc
  exact Option.isSome_of_eq_some he

/-! ### The key of a type -/

theorem home_of_known (h : T.Known (f.key type)) : T.home f type = f.key type := by
  rw [home, TypeFns.home, if_pos h]

theorem home_eq_or (f : TypeFns) (T : Typemaps) (type : SwigType) :
    T.home f type = f.key type ∨
      istemplate type ∧ ¬T.Known (f.key type) ∧ T.Known (templatePrefix (f.key type)) ∧
        T.home f type = templatePrefix (f.key type) := by
  unfold home TypeFns.home
  split
  · exact .inl rfl
  · rename_i hkey
    split
    · rename_i htemplate
      exact .inr ⟨htemplate.1, hkey, htemplate.2, rfl⟩
    · exact .inl rfl

theorem home_of_not_known (h : ¬T.Known (T.home f type)) : T.home f type = f.key type := by
  rcases T.home_eq_or f type with hkey | ⟨-, -, hknown, hhome⟩
  · exact hkey
  · rw [hhome] at h
    exact absurd hknown h

theorem home_of_templatePrefix (ht : istemplate type) (hkey : ¬T.Known (f.key type))
    (hknown : T.Known (templatePrefix (f.key type))) : T.home f type = templatePrefix (f.key type) := by
  rw [home, TypeFns.home, if_neg hkey, if_pos ⟨ht, hknown⟩]

theorem get_eq_none (h : ¬T.Known k) : (T.typemaps T.tm_scope).get k = none :=
  Option.not_isSome_iff_eq_none.mp h

theorem getTypemap_current (f : TypeFns) (T : Typemaps) (type : SwigType) :
    T.getTypemap f T.tm_scope type =
      ((T.typemaps T.tm_scope).get (T.home f type)).map (T.home f type, ·) := by
  rw [getTypemap]
  by_cases hkey : T.Known (f.key type)
  · obtain ⟨tm, hget⟩ := Option.isSome_iff_exists.mp hkey
    rw [home_of_known hkey, hget]
    rfl
  · rw [get_eq_none hkey]
    rcases T.home_eq_or f type with hhome | ⟨ht, -, hprefix, hhome⟩
    · rw [hhome, get_eq_none hkey]
      split_ifs with ht
      · have hprefix : ¬T.Known (templatePrefix (f.key type)) := fun h =>
          ht.2 ((home_of_templatePrefix ht.1 hkey h).symm.trans hhome)
        rw [get_eq_none hprefix]
        rfl
      · rfl
    · have hne : templatePrefix (f.key type) ≠ f.key type := fun h => hkey (h ▸ hprefix)
      rw [hhome, if_pos ⟨ht, hne⟩]

/-! ### One change -/

@[simp]
theorem touch_tm_scope : (T.touch f tm_method p change).tm_scope = T.tm_scope := rfl

theorem setScope_get (T : Typemaps) (k k' : SwigType) (tm : TypeHash) :
    ((T.setScope T.tm_scope k tm).typemaps T.tm_scope).get k' =
      if k' = k then some tm else (T.typemaps T.tm_scope).get k' := by
  change (Function.update T.typemaps T.tm_scope _ T.tm_scope).get k' = _
  rw [Function.update_self, StringTable.get_set]

/-- The hash at the key of a type, or a new one. -/
def hashAt (T : Typemaps) (k : SwigType) : TypeHash := ((T.typemaps T.tm_scope).get k).getD .new

theorem touch_eq (f : TypeFns) (T : Typemaps) (tm_method : List Byte) (p : Parm) (change : Method → Method) :
    T.touch f tm_method p change =
      T.setScope T.tm_scope (T.home f p.type) ((T.hashAt (T.home f p.type)).setSlot p.name
        ((((T.hashAt (T.home f p.type)).slot p.name).getD .new).set tm_method
          (change (((((T.hashAt (T.home f p.type)).slot p.name).getD .new).get tm_method).getD .new)))) := by
  rw [touch, getTypemap_current, hashAt]
  cases hget : (T.typemaps T.tm_scope).get (T.home f p.type) with
  | some tm => rfl
  | none =>
      have hknown : ¬T.Known (T.home f p.type) := by
        rw [Known, hget]
        exact Bool.false_ne_true
      rw [home_of_not_known hknown]
      rfl

theorem known_touch : (T.touch f tm_method p change).Known k ↔ k = T.home f p.type ∨ T.Known k := by
  rw [touch_eq, Known]
  change (((T.setScope T.tm_scope _ _).typemaps T.tm_scope).get k).isSome ↔ _
  rw [setScope_get]
  by_cases hk : k = T.home f p.type
  · simp [hk]
  · simp [hk, Known]

theorem get_slot_hashAt (T : Typemaps) (k : SwigType) (n : Option (List Byte)) (m : List Byte) :
    (((T.hashAt k).slot n).getD .new).get m = T.methodAt k n m := by
  rw [hashAt, methodAt, slotAt]
  cases (T.typemaps T.tm_scope).get k with
  | some tm =>
      rw [Option.getD_some, Option.bind_some]
      cases tm.slot n with
      | some tm1 => rfl
      | none => exact StringTable.get_new m
  | none =>
      cases n with
      | none => exact StringTable.get_new m
      | some name =>
          rw [Option.getD_none, TypeHash.slot, TypeHash.new, StringTable.get_new]
          exact StringTable.get_new m

theorem methodAt_touch :
    (T.touch f tm_method p change).methodAt k n m =
      if k = T.home f p.type ∧ n = p.name ∧ m = tm_method then
        some (change ((T.methodAt (T.home f p.type) p.name tm_method).getD .new))
      else T.methodAt k n m := by
  rw [touch_eq, get_slot_hashAt, methodAt, slotAt]
  change ((((T.setScope T.tm_scope _ _).typemaps T.tm_scope).get k).bind _).bind _ = _
  rw [setScope_get]
  by_cases hk : k = T.home f p.type
  · rw [if_pos hk, Option.bind_some, TypeHash.slot_setSlot]
    by_cases hn : n = p.name
    · rw [if_pos hn, Option.bind_some, StringTable.get_set]
      by_cases hm : m = tm_method
      · rw [if_pos hm, if_pos ⟨hk, hn, hm⟩]
      · rw [if_neg hm, if_neg fun h => hm h.2.2, get_slot_hashAt, hk, hn]
    · rw [if_neg hn, if_neg fun h => hn h.2.1, hk, ← get_slot_hashAt]
      cases (T.hashAt (T.home f p.type)).slot n with
      | some tm1 => rfl
      | none => exact (StringTable.get_new m).symm
  · rw [if_neg hk, if_neg fun h => hk h.1]
    rfl

theorem slotAt_touch_self : ((T.touch f tm_method p change).slotAt (T.home f p.type) p.name).isSome := by
  rw [touch_eq, slotAt]
  change ((((T.setScope T.tm_scope _ _).typemaps T.tm_scope).get _).bind _).isSome
  rw [setScope_get, if_pos rfl, Option.bind_some, TypeHash.slot_setSlot, if_pos rfl]
  rfl

theorem slotAt_touch (h : (T.slotAt k n).isSome) : ((T.touch f tm_method p change).slotAt k n).isSome := by
  rw [touch_eq, slotAt]
  change ((((T.setScope T.tm_scope _ _).typemaps T.tm_scope).get k).bind _).isSome
  rw [setScope_get]
  by_cases hk : k = T.home f p.type
  · rw [if_pos hk, Option.bind_some, TypeHash.slot_setSlot]
    split
    · rfl
    · rw [slotAt, hk] at h
      rw [hashAt]
      cases hget : (T.typemaps T.tm_scope).get (T.home f p.type) with
      | some tm =>
          rw [hget] at h
          exact h
      | none =>
          rw [hget] at h
          cases h
  · rw [if_neg hk]
    exact h

/-! ### A key that has been found stays the key -/

theorem not_istemplate_templatePrefix (t : SwigType) : istemplate (templatePrefix t) = false := by
  have hnone : indexOf (lit "<(") (templatePrefix t) = none := by
    rw [templatePrefix]
    cases hi : indexOf (lit "<(") t with
    | none => exact hi
    | some i =>
        by_contra hsome
        obtain ⟨j, hj⟩ := Option.ne_none_iff_exists'.mp hsome
        obtain ⟨hocc, -⟩ := (indexOf_spec _ _).1 j hj
        have hlen := indexOf_le hj
        rw [List.length_take] at hlen
        have hjt : Occurs (lit "<(") t j := by
          rw [Occurs, List.drop_take] at hocc
          exact hocc.trans (List.take_prefix _ _)
        refine ((indexOf_spec _ _).1 i hi).2 j ?_ hjt
        change j + 2 ≤ _ at hlen
        omega
  rw [istemplate, hnone]
  rfl

theorem home_touch (F : LawfulTypeFns) (h : T.Known (T.home F.toTypeFns type)) :
    (T.touch F.toTypeFns tm_method p change).home F.toTypeFns type = T.home F.toTypeFns type := by
  rcases T.home_eq_or F.toTypeFns type with hhome | ⟨ht, hkey, hprefix, hhome⟩
  · rw [hhome] at h ⊢
    exact home_of_known (known_touch.mpr (.inr h))
  · have hnew : ¬F.key type = T.home F.toTypeFns p.type := by
      intro heq
      rcases T.home_eq_or F.toTypeFns p.type with hp | ⟨-, -, -, hp⟩
      · rw [hp] at heq
        cases hpt : istemplate p.type with
        | true =>
            -- the other type would have been found under the prefix, too
            have hpp := home_of_templatePrefix hpt (heq ▸ hkey) (heq ▸ hprefix)
            rw [hp, ← heq] at hpp
            exact hkey (hpp ▸ hprefix)
        | false =>
            have hplain : F.key p.type = p.type := if_neg (Bool.eq_false_iff.mp hpt)
            have htemplate := F.istemplate_key type ht
            rw [heq, hplain, hpt] at htemplate
            exact Bool.false_ne_true htemplate
      · have htemplate := F.istemplate_key type ht
        rw [heq, hp, not_istemplate_templatePrefix] at htemplate
        exact Bool.false_ne_true htemplate
    rw [hhome]
    refine home_of_templatePrefix ht (fun hk => ?_) (known_touch.mpr (.inr hprefix))
    exact (known_touch.mp hk).elim hnew hkey

end Typemaps

end Swig.Typemap
