import Swig.Typemap.Found

/-!
A list of parameters is registered, found and cleared, and no other list changes, as long
as the type of its last parameter has a hash of its own.
-/

namespace Swig.Typemap

open DOH SType Naming

variable {F : LawfulTypeFns} {T T' T'' : Typemaps} {m tm_method : List Byte} {p last : Parm} {before : List Parm}
  {change : Method → Method} {type : SwigType}

/-! ### What stays when parameters are registered -/

/-- Nothing is taken away from the current scope, and what has been found keeps its key. -/
structure Grows (F : LawfulTypeFns) (T T' : Typemaps) : Prop where
  tm_scope : T'.tm_scope = T.tm_scope
  known : ∀ k, T.Known k → T'.Known k
  slotAt : ∀ k n, (T.slotAt k n).isSome → (T'.slotAt k n).isSome
  methodAt : ∀ k n m, (T.methodAt k n m).isSome → (T'.methodAt k n m).isSome
  home : ∀ type, T.Known (T.home F.toTypeFns type) → T'.home F.toTypeFns type = T.home F.toTypeFns type

namespace Grows

theorem refl (F : LawfulTypeFns) (T : Typemaps) : Grows F T T :=
  ⟨rfl, fun _ h => h, fun _ _ h => h, fun _ _ _ h => h, fun _ _ => rfl⟩

theorem trans (h : Grows F T T') (h' : Grows F T' T'') : Grows F T T'' where
  tm_scope := h'.tm_scope.trans h.tm_scope
  known k hk := h'.known k (h.known k hk)
  slotAt k n hs := h'.slotAt k n (h.slotAt k n hs)
  methodAt k n m hm := h'.methodAt k n m (h.methodAt k n m hm)
  home type hk := by
    rw [h'.home type (by rw [h.home type hk]; exact h.known _ hk), h.home type hk]

theorem touch (F : LawfulTypeFns) (T : Typemaps) (tm_method : List Byte) (p : Parm) (change : Method → Method) :
    Grows F T (T.touch F.toTypeFns tm_method p change) where
  tm_scope := rfl
  known _ hk := Typemaps.known_touch.mpr (.inr hk)
  slotAt _ _ hs := Typemaps.slotAt_touch hs
  methodAt k n m hm := by
    rw [Typemaps.methodAt_touch]
    split
    · rfl
    · exact hm
  home _ hk := Typemaps.home_touch F hk

/-- A parameter that is found is found later on, too. -/
theorem found (h : Grows F T T')
    (hget : (T.slotAt (T.home F.toTypeFns p.type) p.name).isSome) :
    (T'.slotAt (T'.home F.toTypeFns p.type) p.name).isSome := by
  rw [h.home _ (Typemaps.known_of_slotAt hget)]
  exact h.slotAt _ _ hget

end Grows

theorem home_touch_self :
    (T.touch F.toTypeFns tm_method p change).home F.toTypeFns p.type = T.home F.toTypeFns p.type := by
  by_cases hk : T.Known (T.home F.toTypeFns p.type)
  · exact Typemaps.home_touch F hk
  · have hkey := Typemaps.home_of_not_known hk
    rw [hkey]
    exact Typemaps.home_of_known (Typemaps.known_touch.mpr (.inl hkey.symm))

theorem codeAt_touch_id (k : SwigType) (n : Option (List Byte)) (m : List Byte) :
    (T.touch F.toTypeFns tm_method p id).codeAt k n m = T.codeAt k n m := by
  rw [Typemaps.codeAt, Typemaps.methodAt_touch, Typemaps.codeAt]
  split
  · rename_i h
    obtain ⟨rfl, rfl, rfl⟩ := h
    cases T.methodAt (T.home F.toTypeFns p.type) p.name m with
    | none => rfl
    | some e => rfl
  · rfl

/-- The parameters before the last one. -/
def touchAll (f : TypeFns) (T : Typemaps) (tmap_method : List Byte) : List Parm → Typemaps
  | [] => T
  | p :: ps => touchAll f (T.touch f (methodName tmap_method) p id) (newop tmap_method p) ps

theorem register_append (f : TypeFns) (T : Typemaps) (m : List Byte) (before : List Parm) (last : Parm)
    (code : Option (List Byte)) (locals : List Parm) (kwargs : List Kwarg) :
    T.register f m (before ++ [last]) code locals kwargs =
      (touchAll f T m before).touch f (methodName (operator m before)) last
        (.filled (operator m before) last code locals kwargs) := by
  induction before generalizing T m with
  | nil => rfl
  | cons p before ih =>
      cases before with
      | nil => rfl
      | cons q before => exact ih _ _

theorem grows_touchAll (F : LawfulTypeFns) (T : Typemaps) (m : List Byte) (ps : List Parm) :
    Grows F T (touchAll F.toTypeFns T m ps) := by
  induction ps generalizing T m with
  | nil => exact .refl F T
  | cons p ps ih => exact (Grows.touch F T _ p id).trans (ih _ _)

theorem codeAt_touchAll (k : SwigType) (n : Option (List Byte)) (m m' : List Byte) (ps : List Parm) :
    (touchAll F.toTypeFns T m ps).codeAt k n m' = T.codeAt k n m' := by
  induction ps generalizing T m with
  | nil => rfl
  | cons p ps ih => exact (ih _).trans (codeAt_touch_id k n m')

/-- The slot of each parameter is there. -/
theorem touchAll_method {a b : List Parm} :
    let T' := touchAll F.toTypeFns T m (a ++ p :: b)
    (T'.methodAt (T'.home F.toTypeFns p.type) p.name (methodName (operator m a))).isSome := by
  induction a generalizing T m with
  | nil =>
      have hgrows := grows_touchAll F (T.touch F.toTypeFns (methodName m) p id) (newop m p) b
      have hknown : (T.touch F.toTypeFns (methodName m) p id).Known
          ((T.touch F.toTypeFns (methodName m) p id).home F.toTypeFns p.type) := by
        rw [home_touch_self]
        exact Typemaps.known_touch.mpr (.inl rfl)
      change ((touchAll _ _ _ b).methodAt ((touchAll _ _ _ b).home _ _) _ _).isSome
      rw [hgrows.home _ hknown, home_touch_self]
      refine hgrows.methodAt _ _ _ ?_
      rw [Typemaps.methodAt_touch, if_pos ⟨rfl, rfl, rfl⟩]
      rfl
  | cons q a ih => exact ih

/-! ### The tables that are there for the last parameter -/

/-- The keys of the scope after some parameters have been registered. -/
def keysAfter (f : TypeFns) : List SwigType → List Parm → List SwigType
  | keys, [] => keys
  | keys, p :: ps => keysAfter f (f.home (· ∈ keys) p.type :: keys) ps

theorem home_congr (f : TypeFns) {K K' : SwigType → Prop} [DecidablePred K] [DecidablePred K']
    (h : ∀ k, K k ↔ K' k) (type : SwigType) : f.home K type = f.home K' type := by
  simp only [TypeFns.home, h]

theorem known_touchAll {keys : List SwigType} (h : ∀ k, T.Known k ↔ k ∈ keys) (m : List Byte) (ps : List Parm)
    (k : SwigType) : (touchAll F.toTypeFns T m ps).Known k ↔ k ∈ keysAfter F.toTypeFns keys ps := by
  induction ps generalizing T m keys with
  | nil => exact h k
  | cons p ps ih =>
      refine ih (fun k => ?_) _
      rw [Typemaps.known_touch, List.mem_cons, h, Typemaps.home, home_congr F.toTypeFns h]

theorem home_touchAll (m : List Byte) (ps : List Parm) (type : SwigType) :
    (touchAll F.toTypeFns T m ps).home F.toTypeFns type =
      F.home (· ∈ keysAfter F.toTypeFns (T.typemaps T.tm_scope).keys ps) type :=
  home_congr F.toTypeFns (known_touchAll (fun _ => StringTable.mem_keys_iff.symm) m ps) type

/-! ### Clearing -/

theorem typemapGet_current (hname : p.name ≠ some []) :
    T.typemapGet F.toTypeFns p.type p.name T.tm_scope = T.slotAt (T.home F.toTypeFns p.type) p.name := by
  rw [Typemaps.typemapGet, if_neg (Nat.lt_irrefl _), Typemaps.getTypemap_current, cnameOf_eq hname, Typemaps.slotAt,
    Option.bind_map]
  rfl

/-- Every parameter is found in the current scope. -/
def Typemaps.Found (F : LawfulTypeFns) (T : Typemaps) (ps : List Parm) : Prop :=
  ∀ p ∈ ps, (T.slotAt (T.home F.toTypeFns p.type) p.name).isSome

theorem clearLoop_eq_some (hnames : ∀ p ∈ before ++ [last], p.name ≠ some []) {r : Parm × List Byte} :
    T.clearLoop F.toTypeFns m (before ++ [last]) = some r ↔
      T.Found F (before ++ [last]) ∧ r = (last, operator m before) := by
  induction before generalizing m with
  | nil =>
      rw [List.nil_append, Typemaps.clearLoop, typemapGet_current (hnames last List.mem_cons_self), Typemaps.Found,
        List.forall_mem_singleton]
      cases T.slotAt (T.home F.toTypeFns last.type) last.name with
      | none => simp
      | some tm1 => simp [operator, eq_comm]
  | cons p before ih =>
      have ih := @ih (newop m p) fun q hq => hnames q (List.mem_cons_of_mem p hq)
      rw [List.cons_append, Typemaps.clearLoop.eq_def]
      dsimp only
      rw [typemapGet_current (hnames p List.mem_cons_self), Typemaps.Found, List.forall_mem_cons]
      cases hslot : T.slotAt (T.home F.toTypeFns p.type) p.name with
      | none => simp
      | some tm1 =>
          rw [Option.isSome_some, eq_self_iff_true, true_and]
          rw [show operator m (p :: before) = operator (newop m p) before from rfl]
          cases before with
          | nil => exact ih
          | cons q before => exact ih

/-- What is there is changed in place. -/
theorem clearAt_eq (hname : p.name ≠ some []) :
    (T.clearAt F.toTypeFns p tm_method).getD T =
      if (T.methodAt (T.home F.toTypeFns p.type) p.name tm_method).isSome then
        T.touch F.toTypeFns tm_method p .cleared
      else T := by
  rw [Typemaps.clearAt, Typemaps.touch, Typemaps.methodAt, Typemaps.slotAt, Typemaps.getTypemap_current,
    cnameOf_eq hname]
  cases (T.typemaps T.tm_scope).get (T.home F.toTypeFns p.type) with
  | none => rfl
  | some tm =>
      cases hslot : tm.slot p.name with
      | none => simp [hslot]
      | some tm1 =>
          cases hget : tm1.get tm_method with
          | none => simp [hslot, hget]
          | some tm2 => simp [hslot, hget]

theorem codeAt_touch (k : SwigType) (n : Option (List Byte)) (m : List Byte) :
    (T.touch F.toTypeFns tm_method p change).codeAt k n m =
      if k = T.home F.toTypeFns p.type ∧ n = p.name ∧ m = tm_method then
        (change ((T.methodAt (T.home F.toTypeFns p.type) p.name tm_method).getD .new)).code
      else T.codeAt k n m := by
  rw [Typemaps.codeAt, Typemaps.methodAt_touch, Typemaps.codeAt]
  split
  · rfl
  · rfl

theorem codeAt_clearAt (hname : p.name ≠ some []) (k : SwigType) (n : Option (List Byte)) (m : List Byte) :
    ((T.clearAt F.toTypeFns p tm_method).getD T).codeAt k n m =
      if k = T.home F.toTypeFns p.type ∧ n = p.name ∧ m = tm_method then none else T.codeAt k n m := by
  rw [clearAt_eq hname]
  split
  · exact codeAt_touch k n m
  · rename_i hnone
    split
    · rename_i hslot
      obtain ⟨rfl, rfl, rfl⟩ := hslot
      rw [Typemaps.codeAt, Option.not_isSome_iff_eq_none.mp hnone]
      rfl
    · rfl

end Swig.Typemap
