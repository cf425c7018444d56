import Swig.DOH.HashIteration
import Swig.DOH.StringTable

/-!
`Swig_name_object_inherit` (`naming.c`): the entries of a base class are copied to a
derived class, in the hash that is iterated over.
-/

namespace Swig.Naming

open DOH Lib Chain

variable {O : Type} [DecidableEq O]

/-! ### The function -/

/-- The loop over the declarators of `n`: those that `newh` does not have are copied. -/
def copyEntries (newh n : StringTable O) : StringTable O :=
  n.items.foldl (fun newh oi => if (newh.get oi.1).isSome then newh else newh.set oi.1 oi.2) newh

/-- The call: `alloc` gives the addresses of new nodes. -/
structure Inherit where
  base : List Byte
  derived : List Byte
  alloc : ℕ → ℕ

namespace Inherit

variable (I : Inherit)

def bprefix : List Byte := I.base ++ lit "::"

def dprefix : List Byte := I.derived ++ lit "::"

def nkey (k : List Byte) : List Byte := I.dprefix ++ k.drop I.bprefix.length

/-- The loop body for one entry, when `c` nodes have been made. -/
def inheritOne (c : ℕ) (h : LinkedHash (StringTable O)) (ki : HashNode (StringTable O)) :
    Option (ℕ × LinkedHash (StringTable O)) :=
  if I.bprefix.isPrefixOf ki.key then do
    let newh ← h.getattr (I.nkey ki.key)
    let (c, h) ← match newh with
      | some _ => some (c, h)
      | none => (h.setattr (I.nkey ki.key) .new (I.alloc c)).map fun r => (c + 1, r.2)
    -- `newh` is changed in place
    let r ← h.setattr (I.nkey ki.key) (copyEntries (newh.getD .new) ki.object) (I.alloc c)
    return (c, r.2)
  else some (c, h)

def inheritLoop : ℕ → ℕ → LinkedHash (StringTable O) → Option (HashNode (StringTable O)) × LinkedIterator →
    Option (LinkedHash (StringTable O))
  | _, _, h, (none, _) => some h
  | 0, _, _, (some _, _) => none
  | fuel + 1, c, h, (some ki, iter) => do
      let (c, h) ← I.inheritOne c h ki
      let s ← h.nextiter iter
      inheritLoop fuel c h s

/-- `Swig_name_object_inherit`, in at most `fuel` rounds. -/
def nameObjectInherit (fuel : ℕ) (namehash : LinkedHash (StringTable O)) : Option (LinkedHash (StringTable O)) := do
  let s ← namehash.firstiter
  I.inheritLoop fuel 0 namehash s

end Inherit

/-! ### Copying the declarators -/

variable {newh n : StringTable O} {d : List Byte} {o : O}

/-- `newh` has all declarators of `n`. -/
def Covers (newh n : StringTable O) : Prop := ∀ d, (n.get d).isSome → (newh.get d).isSome

theorem get_copyOne (newh : StringTable O) (oi : List Byte × O) (d : List Byte) :
    (if (newh.get oi.1).isSome then newh else newh.set oi.1 oi.2).get d =
      if d = oi.1 then (newh.get d).or (some oi.2) else newh.get d := by
  cases hget : newh.get oi.1 with
  | some o =>
      rw [Option.isSome_some, if_pos rfl]
      split
      · rename_i h
        rw [h, hget, Option.some_or]
      · rfl
  | none =>
      rw [Option.isSome_none, if_neg Bool.false_ne_true, StringTable.get_set]
      split
      · rename_i h
        rw [h, hget, Option.none_or]
      · rfl

theorem get_copy_notMem {l : List (List Byte × O)} (h : d ∉ l.map Prod.fst) (newh : StringTable O) :
    (l.foldl (fun newh oi => if (newh.get oi.1).isSome then newh else newh.set oi.1 oi.2) newh).get d =
      newh.get d := by
  induction l generalizing newh with
  | nil => rfl
  | cons oi l ih =>
      rw [List.map_cons] at h
      have hl := List.not_mem_of_not_mem_cons h
      rw [List.foldl_cons, ih hl, get_copyOne, if_neg (List.ne_of_not_mem_cons h)]

theorem get_copy_mem {l : List (List Byte × O)} (hnodup : (l.map Prod.fst).Nodup) (h : (d, o) ∈ l)
    (newh : StringTable O) :
    (l.foldl (fun newh oi => if (newh.get oi.1).isSome then newh else newh.set oi.1 oi.2) newh).get d =
      (newh.get d).or (some o) := by
  induction l generalizing newh with
  | nil => cases h
  | cons oi l ih =>
      obtain ⟨hnew, hnodup⟩ := List.nodup_cons.mp hnodup
      rw [List.foldl_cons]
      rcases List.mem_cons.mp h with rfl | h
      · rw [get_copy_notMem hnew, get_copyOne, if_pos rfl]
      · have hne : d ≠ oi.1 := fun heq => hnew (heq ▸ List.mem_map_of_mem h)
        rw [ih hnodup h, get_copyOne, if_neg hne]

theorem get_copyEntries (newh n : StringTable O) (d : List Byte) :
    (copyEntries newh n).get d = (newh.get d).or (n.get d) := by
  have hkeys : n.items.map Prod.fst = n.keys := List.map_map ..
  rw [copyEntries]
  cases hget : n.get d with
  | some o => exact get_copy_mem (hkeys ▸ n.nodup_keys) (StringTable.mem_items_iff.mpr hget) newh
  | none =>
      have hnot : d ∉ n.items.map Prod.fst := by
        rw [hkeys, StringTable.mem_keys_iff, hget]
        exact Bool.false_ne_true
      rw [get_copy_notMem hnot, Option.or_none]

theorem copyEntries_of_covers (h : Covers newh n) : copyEntries newh n = newh := by
  have hitems : ∀ oi ∈ n.items, (newh.get oi.1).isSome := fun oi hoi =>
    h oi.1 (Option.isSome_of_eq_some (StringTable.mem_items_iff.mp hoi))
  rw [copyEntries]
  generalize n.items = l at hitems ⊢
  induction l with
  | nil => rfl
  | cons oi l ih =>
      obtain ⟨hoi, hl⟩ := List.forall_mem_cons.mp hitems
      rw [List.foldl_cons, if_pos hoi, ih hl]

/-! ### What the entries come to -/

namespace Inherit

variable (I : Inherit) {m : StringMap (StringTable O)} {k : List Byte} {P : List (HashNode (StringTable O))}
  {e : HashNode (StringTable O)}

/-- The map after the round of an entry of the base class. -/
def step (m : StringMap (StringTable O)) (e : HashNode (StringTable O)) : StringMap (StringTable O) :=
  m.insert (I.nkey e.key) (copyEntries ((m.lookup (I.nkey e.key)).getD .new) e.object)

variable {I}

theorem nkey_inj {k k' : List Byte} (h : I.bprefix <+: k) (h' : I.bprefix <+: k') (heq : I.nkey k = I.nkey k') :
    k = k' := by
  obtain ⟨x, rfl⟩ := h
  obtain ⟨x', rfl⟩ := h'
  have hx := List.append_cancel_left heq
  rw [List.drop_left, List.drop_left] at hx
  rw [hx]

theorem nkey_append (x : List Byte) : I.nkey (I.bprefix ++ x) = I.dprefix ++ x := by
  rw [nkey, List.drop_left]

theorem lookup_step_self : (I.step m e).lookup (I.nkey e.key) =
    some (copyEntries ((m.lookup (I.nkey e.key)).getD .new) e.object) := Finmap.lookup_insert _

theorem lookup_step_ne (h : k ≠ I.nkey e.key) : (I.step m e).lookup k = m.lookup k := Finmap.lookup_insert_of_ne _ h

theorem lookup_foldl_ne (h : ∀ e ∈ P, k ≠ I.nkey e.key) : (P.foldl I.step m).lookup k = m.lookup k := by
  induction P generalizing m with
  | nil => rfl
  | cons e P ih =>
      obtain ⟨he, hP⟩ := List.forall_mem_cons.mp h
      rw [List.foldl_cons, ih hP, lookup_step_ne he]

/-- The entries to come, with the keys of the base class. -/
structure Entries (I : Inherit) (P : List (HashNode (StringTable O))) : Prop where
  base : ∀ e ∈ P, I.bprefix <+: e.key
  nodup : (P.map HashNode.key).Nodup

omit [DecidableEq O] in
theorem Entries.tail (h : Entries I (e :: P)) : Entries I P :=
  ⟨fun e' he' => h.base e' (List.mem_cons_of_mem e he'), (List.nodup_cons.mp h.nodup).2⟩

omit [DecidableEq O] in
/-- Different entries have different names in the derived class. -/
theorem Entries.nkey_ne (h : Entries I (e :: P)) {e' : HashNode (StringTable O)} (he' : e' ∈ P) :
    I.nkey e'.key ≠ I.nkey e.key := by
  intro heq
  have hkey := nkey_inj (h.base e' (List.mem_cons_of_mem e he')) (h.base e List.mem_cons_self) heq
  exact (List.nodup_cons.mp h.nodup).1 (hkey ▸ List.mem_map_of_mem he')

theorem lookup_foldl_mem (h : Entries I P) (he : e ∈ P) : (P.foldl I.step m).lookup (I.nkey e.key) =
    some (copyEntries ((m.lookup (I.nkey e.key)).getD .new) e.object) := by
  induction P generalizing m with
  | nil => cases he
  | cons e' P ih =>
      rw [List.foldl_cons]
      rcases List.mem_cons.mp he with rfl | he
      · rw [lookup_foldl_ne fun e' he' => (h.nkey_ne he').symm, lookup_step_self]
      · rw [ih h.tail he, lookup_step_ne (h.nkey_ne he)]

/-- The number of entries that are new to the derived class. -/
def newCount (I : Inherit) (m : StringMap (StringTable O)) (P : List (HashNode (StringTable O))) : ℕ :=
  P.countP fun e => (m.lookup (I.nkey e.key)).isNone

/-- The entries can be copied one after the other: the names in the derived class are not those
of entries to come, unless they have all declarators, and the table need not grow. -/
structure Ready (I : Inherit) (m : StringMap (StringTable O)) (P : List (HashNode (StringTable O))) (size : ℕ) : Prop
    extends Entries I P where
  safe : ∀ e ∈ P, ¬I.bprefix <+: I.nkey e.key ∨ ∃ newh, m.lookup (I.nkey e.key) = some newh ∧ Covers newh e.object
  room : I.newCount m P = 0 ∨ m.keys.card + I.newCount m P < 2 * size

omit [DecidableEq O] in
theorem card_insert (m : StringMap (StringTable O)) (k : List Byte) (v : StringTable O) :
    (m.insert k v).keys.card = m.keys.card + if (m.lookup k).isNone then 1 else 0 := by
  have hkeys : (m.insert k v).keys = insert k m.keys := by
    ext k'
    rw [Finmap.mem_keys, Finmap.mem_insert, Finset.mem_insert, Finmap.mem_keys]
  rw [hkeys]
  cases hk : m.lookup k with
  | none =>
      rw [Finset.card_insert_of_notMem]
      · rfl
      · rw [Finmap.mem_keys]
        exact Finmap.lookup_eq_none.mp hk
  | some v' =>
      rw [Finset.insert_eq_of_mem]
      · rfl
      · rw [Finmap.mem_keys]
        exact Finmap.mem_of_lookup_eq_some hk

theorem Ready.step {size : ℕ} (h : Ready I m (e :: P) size) : Ready I (I.step m e) P size where
  toEntries := h.tail
  safe e' he' := by
    rcases h.safe e' (List.mem_cons_of_mem e he') with hout | ⟨newh, hnewh, hcovers⟩
    · exact .inl hout
    · exact .inr ⟨newh, (lookup_step_ne (h.nkey_ne he')).trans hnewh, hcovers⟩
  room := by
    have hcount : I.newCount (I.step m e) P = I.newCount m P := by
      refine List.countP_congr fun e' he' => ?_
      rw [lookup_step_ne (h.nkey_ne he')]
    have hroom := h.room
    rw [newCount, List.countP_cons] at hroom
    rw [hcount, Inherit.step, card_insert]
    rw [newCount] at *
    split at hroom
    · rw [if_pos ‹_›]
      omega
    · rw [if_neg ‹_›]
      omega

/-! ### The rounds -/

/-- The entries of the base class among some nodes. -/
def entriesOf (I : Inherit) (l : List (ℕ × HashNode (StringTable O))) : List (HashNode (StringTable O)) :=
  (l.filter fun c => I.bprefix.isPrefixOf c.2.key).map Prod.snd

variable {h : LinkedHash (StringTable O)} {t : List (List (ℕ × HashNode (StringTable O)))} {iter : LinkedIterator}
  {cur : ℕ × HashNode (StringTable O)} {rest : List (ℕ × HashNode (StringTable O))} {c : ℕ}

/-- The addresses of the nodes to come are free. -/
structure Fresh (I : Inherit) (h : LinkedHash (StringTable O)) (c : ℕ) : Prop where
  injective : Function.Injective I.alloc
  free : ∀ i ≥ c, h.heap (I.alloc i) = none

omit [DecidableEq O] in
theorem Fresh.new {h' : LinkedHash (StringTable O)} {k : List Byte} {v : StringTable O} {r : ℕ} (hf : I.Fresh h c)
    (hset : h.setattr k v (I.alloc c) = some (r, h')) : I.Fresh h' (c + 1) where
  injective := hf.injective
  free i hi := LinkedHash.setattr_none hset (fun _ heq => by have := hf.injective heq; omega) (hf.free i (by omega))

omit [DecidableEq O] in
theorem Fresh.found {h' : LinkedHash (StringTable O)} {k : List Byte} {v : StringTable O} {new : ℕ} (hf : I.Fresh h c)
    (hset : h.setattr k v new = some (1, h')) : I.Fresh h' c where
  injective := hf.injective
  free i hi := LinkedHash.setattr_none hset (fun h => absurd h Nat.one_ne_zero) (hf.free i hi)

omit [DecidableEq O] in
theorem nitems_eq (hh : h.Holds t m) : h.nitems = m.keys.card := by
  rw [← hh.represents.binds.length_eq]
  exact hh.represents.nitems_eq

/-- An object that is there is changed in place. -/
theorem assign_spec (hh : h.Holds t m) (hr : LinkedHash.Resumes t iter rest) {k : List Byte} {v : StringTable O}
    (hk : m.lookup k = some v) (v' : StringTable O) (new : ℕ) : ∃ h' t' rest' a, h.setattr k v' new = some (1, h') ∧
      h'.Holds t' (m.insert k v') ∧ LinkedHash.Resumes t' iter rest' ∧
      LinkedHash.Patched [(a, ⟨k, v⟩)] [(a, ⟨k, v'⟩)] rest rest' ∧ t'.length = t.length := by
  have hmem := (hh.represents.binds.mem_iff k v).mpr hk
  rw [LinkedHash.nodes_plain] at hmem
  obtain ⟨⟨a, e⟩, hc, rfl⟩ := List.mem_map.mp hmem
  obtain ⟨i, hi⟩ := Buckets.mem_bucket_iff.mp hc
  obtain ⟨front, back, hsplit⟩ := List.append_of_mem hi
  obtain ⟨h', hset, hh'⟩ := LinkedHash.setattr_found hh hsplit v' new
  obtain ⟨rest', hr', hpatch⟩ := hr.replace hsplit ⟨k, v'⟩
  exact ⟨h', _, rest', a, hset, hh', hr', hpatch, List.length_set ..⟩

/-- The round of an entry of the base class: the derived class has the entry, and the same
entries are still to come. -/
theorem inheritOne_spec (hh : h.Holds t m) (hr : LinkedHash.Resumes t iter rest) (hf : I.Fresh h c)
    (hready : I.Ready m (e :: P) t.length) : ∃ c' h' t' rest', I.inheritOne c h e = some (c', h') ∧
      h'.Holds t' (I.step m e) ∧ LinkedHash.Resumes t' iter rest' ∧ I.entriesOf rest' = I.entriesOf rest ∧
      rest'.length ≤ rest.length + 1 ∧ I.Fresh h' c' ∧ t'.length = t.length := by
  have hbase : I.bprefix.isPrefixOf e.key := List.isPrefixOf_iff_prefix.mpr (hready.base e List.mem_cons_self)
  rw [inheritOne, if_pos hbase, LinkedHash.getattr_spec hh, Option.bind_eq_bind, Option.bind_some, step]
  cases hk : m.lookup (I.nkey e.key) with
  | some newh =>
      obtain ⟨h', t', rest', a, hset, hh', hr', hpatch, hlen⟩ :=
        assign_spec hh hr hk (copyEntries newh e.object) (I.alloc c)
      have hfilter : I.entriesOf rest' = I.entriesOf rest := by
        rw [entriesOf, entriesOf, hpatch.filter]
        rcases hready.safe e List.mem_cons_self with hout | ⟨newh', hnewh, hcovers⟩
        · have hout : I.bprefix.isPrefixOf (I.nkey e.key) = false :=
            Bool.eq_false_iff.mpr fun h => hout (List.isPrefixOf_iff_prefix.mp h)
          simp [hout]
        · obtain rfl : newh = newh' := Option.some.inj (hk.symm.trans hnewh)
          rw [copyEntries_of_covers hcovers]
      refine ⟨c, h', t', rest', ?_, hh', hr', hfilter, ?_, hf.found hset, hlen⟩
      · rw [Option.getD_some]
        simp only [Option.bind_eq_bind, Option.bind_some, hset]
        rfl
      · have hle := hpatch.length_le
        simp only [List.length_singleton] at hle
        omega
  | none =>
      have hnotMem : I.nkey e.key ∉ m.keys := by
        rw [Finmap.mem_keys]
        exact Finmap.lookup_eq_none.mp hk
      have hout : I.bprefix.isPrefixOf (I.nkey e.key) = false := by
        rcases hready.safe e List.mem_cons_self with hout | ⟨newh', hnewh, -⟩
        · exact Bool.eq_false_iff.mpr fun h => hout (List.isPrefixOf_iff_prefix.mp h)
        · rw [hk] at hnewh
          cases hnewh
      obtain ⟨h₁, hset₁, hnitems, hsize, hh₁⟩ := LinkedHash.setattr_missing hh hnotMem .new (hf.free c (Nat.le_refl c))
      have hsmall : h₁.nitems < 2 * h₁.hashsize := by
        have hroom := hready.room
        rw [newCount, List.countP_cons, hk] at hroom
        rw [hnitems, hsize, hh.lays.hashsize_eq, nitems_eq hh]
        simp only [Option.isNone_none, if_true] at hroom
        omega
      have hresize : h₁.resize = some h₁ := by rw [LinkedHash.resize, if_pos hsmall]
      rw [hresize, Option.map_some] at hset₁
      have hlt : stringHash (I.nkey e.key) % h.hashsize < t.length := by
        rw [hh.lays.hashsize_eq]
        refine Nat.mod_lt _ ?_
        have hpos := hh.represents.hashsize_pos
        rwa [LinkedHash.hashsize_plain] at hpos
      obtain ⟨rest₁, hr₁, hpatch₁⟩ := hr.append hlt (I.alloc c, ⟨I.nkey e.key, .new⟩)
      obtain ⟨h', t', rest', a, hset, hh', hr', hpatch, hlen⟩ :=
        assign_spec hh₁ hr₁ (Finmap.lookup_insert m) (copyEntries .new e.object) (I.alloc (c + 1))
      rw [Finmap.insert_insert] at hh'
      refine ⟨c + 1, h', t', rest', ?_, hh', hr', ?_, ?_, (hf.new hset₁).found hset, ?_⟩
      · rw [Option.getD_none]
        simp only [Option.bind_eq_bind, Option.bind_some, hset₁, Option.map_some, hset]
        rfl
      · rw [entriesOf, entriesOf, hpatch.filter (by simp [hout]), hpatch₁.filter (by simp [hout])]
      · have hle := hpatch.length_le
        have hle₁ := hpatch₁.length_le
        simp only [List.length_singleton, List.length_nil] at hle hle₁
        omega
      · rw [hlen, List.length_set]

omit [DecidableEq O] in
theorem entriesOf_cons (cur : ℕ × HashNode (StringTable O)) (rest : List (ℕ × HashNode (StringTable O))) :
    I.entriesOf (cur :: rest) =
      if I.bprefix.isPrefixOf cur.2.key then cur.2 :: I.entriesOf rest else I.entriesOf rest := by
  rw [entriesOf, List.filter_cons]
  split
  · rfl
  · rfl

/-- By induction on the rounds. A round may put one more node before the iterator, but then
there is an entry less to come. -/
theorem inheritLoop_spec {fuel : ℕ} (hh : h.Holds t m) (hs : LinkedHash.Stands t iter cur rest) (hf : I.Fresh h c)
    (hready : I.Ready m (I.entriesOf (cur :: rest)) t.length)
    (hfuel : (cur :: rest).length + (I.entriesOf (cur :: rest)).length ≤ fuel) :
    ∃ h' t', I.inheritLoop fuel c h (some cur.2, iter) = some h' ∧
      h'.Holds t' ((I.entriesOf (cur :: rest)).foldl I.step m) := by
  induction fuel generalizing h t m iter cur rest c with
  | zero =>
      rw [List.length_cons] at hfuel
      omega
  | succ fuel ih =>
      obtain ⟨c₁, h₁, t₁, m₁, rest₁, hone, hh₁, hr₁, hf₁, hready₁, hfuel₁, hfold⟩ :
          ∃ c₁ h₁ t₁ m₁ rest₁, I.inheritOne c h cur.2 = some (c₁, h₁) ∧ h₁.Holds t₁ m₁ ∧
            LinkedHash.Resumes t₁ iter rest₁ ∧ I.Fresh h₁ c₁ ∧ I.Ready m₁ (I.entriesOf rest₁) t₁.length ∧
            rest₁.length + (I.entriesOf rest₁).length ≤ fuel ∧
            (I.entriesOf (cur :: rest)).foldl I.step m = (I.entriesOf rest₁).foldl I.step m₁ := by
        rw [entriesOf_cons] at hready hfuel ⊢
        by_cases hbase : I.bprefix.isPrefixOf cur.2.key = true
        · rw [if_pos hbase] at hready hfuel ⊢
          obtain ⟨c₁, h₁, t₁, rest₁, hone, hh₁, hr₁, hentries, hle, hf₁, hlen⟩ :=
            inheritOne_spec hh hs.resumes hf hready
          refine ⟨c₁, h₁, t₁, _, rest₁, hone, hh₁, hr₁, hf₁, ?_, ?_, by rw [hentries]; rfl⟩
          · rw [hentries, hlen]
            exact hready.step
          · rw [hentries]
            simp only [List.length_cons] at hfuel
            omega
        · rw [if_neg hbase] at hready hfuel ⊢
          refine ⟨c, h, t, m, rest, by rw [inheritOne, if_neg hbase], hh, hs.resumes, hf, hready, ?_, rfl⟩
          rw [List.length_cons] at hfuel
          omega
      rw [hfold, inheritLoop, hone, Option.bind_eq_bind, Option.bind_some]
      dsimp only
      obtain ⟨rfl, iter', hnext⟩ | ⟨cur', rest', iter', rfl, hnext, hs'⟩ := LinkedHash.nextiter_spec hh₁.lays hr₁
      · refine ⟨h₁, t₁, ?_, hh₁⟩
        rw [hnext, Option.bind_eq_bind, Option.bind_some]
        cases fuel <;> rfl
      · obtain ⟨h', t', hloop, hh'⟩ := ih hh₁ hs' hf₁ hready₁ hfuel₁
        refine ⟨h', t', ?_, hh'⟩
        rw [hnext, Option.bind_eq_bind, Option.bind_some, hloop]

/-! ### What is inherited -/

/-- Every declarator of an entry of the base class is there for the derived class, with its own
object if there was one; nothing else is changed. -/
structure Inherited (I : Inherit) (m m' : StringMap (StringTable O)) : Prop where
  copied : ∀ x n d o, m.lookup (I.bprefix ++ x) = some n → n.get d = some o →
    ∃ n', m'.lookup (I.dprefix ++ x) = some n' ∧
      n'.get d = some (((m.lookup (I.dprefix ++ x)).bind (·.get d)).getD o)
  others : ∀ k d, (¬∃ x n, k = I.dprefix ++ x ∧ m.lookup (I.bprefix ++ x) = some n ∧ (n.get d).isSome) →
    (m'.lookup k).bind (·.get d) = (m.lookup k).bind (·.get d)

/-- The keys of the base class whose name in the derived class is new. -/
def newKeys (I : Inherit) (m : StringMap (StringTable O)) : Finset (List Byte) :=
  m.keys.filter fun k => I.bprefix.isPrefixOf k ∧ I.nkey k ∉ m.keys

omit [DecidableEq O] in
theorem newKeys_card_le (I : Inherit) (m : StringMap (StringTable O)) : (I.newKeys m).card ≤ m.keys.card :=
  Finset.card_filter_le _ _

omit [DecidableEq O] in
theorem newCount_eq (hbinds : Binds (l : List (HashNode (StringTable O))) m)
    (hP : P = l.filter fun e => I.bprefix.isPrefixOf e.key) : I.newCount m P = (I.newKeys m).card := by
  have hnodup : ((P.filter fun e => (m.lookup (I.nkey e.key)).isNone).map HashNode.key).Nodup := by
    rw [hP]
    exact hbinds.nodup.sublist ((List.filter_sublist.trans List.filter_sublist).map _)
  rw [newCount, List.countP_eq_length_filter, ← List.length_map (f := HashNode.key),
    ← List.toFinset_card_of_nodup hnodup]
  congr 1
  ext k
  rw [List.mem_toFinset, List.mem_map, newKeys, Finset.mem_filter, hbinds.mem_keys_iff]
  constructor
  · rintro ⟨e, he, rfl⟩
    obtain ⟨heP, hnone⟩ := List.mem_filter.mp he
    rw [hP] at heP
    obtain ⟨hel, hbase⟩ := List.mem_filter.mp heP
    refine ⟨⟨e, hel, rfl⟩, hbase, ?_⟩
    rw [Finmap.mem_keys]
    exact Finmap.lookup_eq_none.mp (Option.isNone_iff_eq_none.mp hnone)
  · rintro ⟨⟨e, hel, rfl⟩, hbase, hnew⟩
    refine ⟨e, List.mem_filter.mpr ⟨hP ▸ List.mem_filter.mpr ⟨hel, hbase⟩, ?_⟩, rfl⟩
    rw [Finmap.mem_keys] at hnew
    exact Option.isNone_iff_eq_none.mpr (Finmap.lookup_eq_none.mpr hnew)

theorem inherited_foldl (hP : I.Entries P) (hmem : ∀ e, e ∈ P ↔ I.bprefix <+: e.key ∧ m.lookup e.key = some e.object) :
    I.Inherited m (P.foldl I.step m) where
  copied x n d o hn ho := by
    have he : (⟨I.bprefix ++ x, n⟩ : HashNode (StringTable O)) ∈ P := (hmem _).mpr ⟨List.prefix_append _ _, hn⟩
    have hlookup := lookup_foldl_mem (m := m) hP he
    rw [nkey_append] at hlookup
    refine ⟨_, hlookup, ?_⟩
    rw [get_copyEntries, ho]
    cases m.lookup (I.dprefix ++ x) with
    | none =>
        rw [Option.getD_none, StringTable.get_new]
        rfl
    | some newh =>
        rw [Option.getD_some, Option.bind_some]
        cases newh.get d <;> rfl
  others k d hnot := by
    by_cases hk : ∃ e ∈ P, k = I.nkey e.key
    · obtain ⟨e, he, rfl⟩ := hk
      obtain ⟨⟨x, hx⟩, hlookup⟩ := (hmem e).mp he
      have hnone : e.object.get d = none := by
        by_contra hsome
        refine hnot ⟨x, e.object, ?_, hx ▸ hlookup, Option.isSome_iff_ne_none.mpr hsome⟩
        rw [← hx, nkey_append]
      rw [lookup_foldl_mem hP he, Option.bind_some, get_copyEntries, hnone, Option.or_none]
      cases m.lookup (I.nkey e.key) with
      | none => exact StringTable.get_new d
      | some newh => rfl
    · rw [lookup_foldl_ne fun e he heq => hk ⟨e, he, heq⟩]

/-- The names in the derived class are not those of the base class, unless they have all
declarators, and the table does not grow to twice its number of buckets. -/
structure Independent (I : Inherit) (h : LinkedHash (StringTable O)) (m : StringMap (StringTable O)) : Prop where
  safe : ∀ x n, m.lookup (I.bprefix ++ x) = some n →
    ¬I.bprefix <+: I.dprefix ++ x ∨ ∃ newh, m.lookup (I.dprefix ++ x) = some newh ∧ Covers newh n
  room : I.newKeys m = ∅ ∨ h.nitems + (I.newKeys m).card < 2 * h.hashsize

/-- The loop ends, and all entries are inherited. -/
theorem nameObjectInherit_inherited (hv : h.Valid m) (hf : I.Fresh h 0) (hindependent : I.Independent h m) :
    ∃ rounds, ∀ fuel ≥ rounds, ∃ h' m', I.nameObjectInherit fuel h = some h' ∧ h'.Valid m' ∧ I.Inherited m m' := by
  obtain ⟨t, hh⟩ := hv
  have hbinds := hh.represents.binds
  rw [LinkedHash.nodes_plain] at hbinds
  have hfilter : I.entriesOf t.flatten = (t.flatten.map Prod.snd).filter fun e => I.bprefix.isPrefixOf e.key := by
    rw [entriesOf, List.filter_map]
    rfl
  have hmem : ∀ e, e ∈ I.entriesOf t.flatten ↔ I.bprefix <+: e.key ∧ m.lookup e.key = some e.object := by
    intro e
    rw [hfilter, List.mem_filter, List.isPrefixOf_iff_prefix, ← hbinds.mem_iff, and_comm]
  have hentries : I.Entries (I.entriesOf t.flatten) := by
    refine ⟨fun e he => ((hmem e).mp he).1, ?_⟩
    rw [hfilter]
    exact hbinds.nodup.sublist (List.filter_sublist.map _)
  have hready : I.Ready m (I.entriesOf t.flatten) t.length := by
    refine ⟨hentries, fun e he => ?_, ?_⟩
    · obtain ⟨⟨x, hx⟩, hlookup⟩ := (hmem e).mp he
      rw [← hx, nkey_append]
      exact hindependent.safe x e.object (hx ▸ hlookup)
    · rw [newCount_eq hbinds hfilter, ← nitems_eq hh, ← hh.lays.hashsize_eq, Finset.card_eq_zero]
      exact hindependent.room
  refine ⟨t.flatten.length + (I.entriesOf t.flatten).length, fun fuel hfuel => ?_⟩
  obtain ⟨hempty, iter, hfirst⟩ | ⟨cur, rest, iter, hnodes, hfirst, hs⟩ := LinkedHash.firstiter_spec hh.lays
  · have hinherited := inherited_foldl hentries hmem
    rw [hempty] at hinherited
    refine ⟨h, m, ?_, ⟨t, hh⟩, hinherited⟩
    rw [nameObjectInherit, hfirst, Option.bind_eq_bind, Option.bind_some]
    cases fuel <;> rfl
  · have hinherited := inherited_foldl hentries hmem
    rw [hnodes] at hready hfuel hinherited
    obtain ⟨h', t', hloop, hh'⟩ := inheritLoop_spec hh hs hf hready hfuel
    refine ⟨h', _, ?_, ⟨t', hh'⟩, hinherited⟩
    rw [nameObjectInherit, hfirst, Option.bind_eq_bind, Option.bind_some, hloop]

theorem inheritLoop_succ {fuel : ℕ} {s : Option (HashNode (StringTable O)) × LinkedIterator}
    {h' : LinkedHash (StringTable O)} (hloop : I.inheritLoop fuel c h s = some h') :
    I.inheritLoop (fuel + 1) c h s = some h' := by
  induction fuel generalizing c h s with
  | zero =>
      obtain ⟨_ | ki, iter⟩ := s
      · exact hloop
      · cases hloop
  | succ fuel ih =>
      obtain ⟨_ | ki, iter⟩ := s
      · exact hloop
      · rw [inheritLoop, Option.bind_eq_bind] at hloop ⊢
        obtain ⟨⟨c₁, h₁⟩, hone, hloop⟩ := Option.bind_eq_some_iff.mp hloop
        obtain ⟨s₁, hnext, hloop⟩ := Option.bind_eq_some_iff.mp hloop
        rw [hone, Option.bind_some]
        dsimp only
        rw [Option.bind_eq_bind, hnext, Option.bind_some]
        exact ih hloop

/-- With more rounds the result is the same. -/
theorem nameObjectInherit_le {fuel fuel' : ℕ} (hle : fuel ≤ fuel') {h' : LinkedHash (StringTable O)}
    (hinherit : I.nameObjectInherit fuel h = some h') : I.nameObjectInherit fuel' h = some h' := by
  induction hle with
  | refl => exact hinherit
  | step _ ih =>
      obtain ⟨s, hfirst, hloop⟩ := Option.bind_eq_some_iff.mp ih
      rw [nameObjectInherit, hfirst, Option.bind_eq_bind, Option.bind_some]
      exact inheritLoop_succ hloop

/-! ### Some classes -/

/-- The hash with one declarator of one name. -/
def oneEntry (key : List Byte) : LinkedHash (StringTable ℕ) :=
  (LinkedHash.new.setattr key (StringTable.new.set (lit "()") 1) 0).elim LinkedHash.new Prod.snd

def oneMap (key : List Byte) : StringMap (StringTable ℕ) := Finmap.insert key (StringTable.new.set (lit "()") 1) ∅

/-- `key` is new in the empty hash. -/
theorem exists_oneEntry (key : List Byte) : ∃ r, LinkedHash.new.setattr key (StringTable.new.set (lit "()") 1) 0 =
    some (r, oneEntry key) ∧ (oneEntry key).Valid (oneMap key) := by
  have hfresh : (LinkedHash.new : LinkedHash (StringTable ℕ)).heap 0 = none := rfl
  obtain ⟨r, h', hset, hv⟩ :=
    (LinkedHash.valid_new (StringTable ℕ)).setattr key (StringTable.new.set (lit "()") 1) hfresh
  have hentry : oneEntry key = h' := by rw [oneEntry, hset, Option.elim_some]
  exact ⟨r, hentry ▸ hset, hentry ▸ hv⟩

theorem fresh_oneEntry (base derived key : List Byte) : Fresh ⟨base, derived, (· + 1)⟩ (oneEntry key) 0 where
  injective := Nat.succ_injective
  free i _ := by
    obtain ⟨r, hset, -⟩ := exists_oneEntry key
    exact LinkedHash.setattr_none hset (fun _ h => absurd h (Nat.succ_ne_zero i)) rfl

theorem lookup_oneMap (key k : List Byte) :
    (oneMap key).lookup k = if k = key then some (StringTable.new.set (lit "()") 1) else none := by
  split
  · rename_i h
    rw [h]
    exact Finmap.lookup_insert _
  · rename_i h
    rw [oneMap, Finmap.lookup_insert_of_ne _ h, Finmap.lookup_empty]

theorem independent_oneEntry :
    Independent ⟨lit "B", lit "D", (· + 1)⟩ (oneEntry (lit "B::f")) (oneMap (lit "B::f")) where
  safe x n _ := .inl fun ⟨y, hy⟩ => by cases hy
  room := by
    have hle := newKeys_card_le ⟨lit "B", lit "D", (· + 1)⟩ (oneMap (lit "B::f"))
    have hcard : (oneMap (lit "B::f")).keys.card ≤ 1 := by decide +kernel
    have hnitems : (oneEntry (lit "B::f")).nitems = 1 := by decide +kernel
    have hsize : (oneEntry (lit "B::f")).hashsize = 7 := by decide +kernel
    rw [hnitems, hsize]
    exact .inr (by omega)

theorem nameObjectInherit_inherited_oneEntry : ∃ rounds, ∀ fuel ≥ rounds, ∃ h' m',
    nameObjectInherit ⟨lit "B", lit "D", (· + 1)⟩ fuel (oneEntry (lit "B::f")) = some h' ∧ h'.Valid m' ∧
      Inherited ⟨lit "B", lit "D", (· + 1)⟩ (oneMap (lit "B::f")) m' := by
  obtain ⟨r, -, hv⟩ := exists_oneEntry (lit "B::f")
  exact nameObjectInherit_inherited hv (fresh_oneEntry _ _ _) independent_oneEntry

/-- `B::D::run` goes to a bucket before the iterator, and is inherited by `B::D` again. -/
theorem not_inherited_nested : ¬∀ (I : Inherit) (h : LinkedHash (StringTable ℕ)) (m : StringMap (StringTable ℕ)),
    h.Valid m → I.Fresh h 0 → ∃ rounds, ∀ fuel ≥ rounds, ∃ h' m',
      I.nameObjectInherit fuel h = some h' ∧ h'.Valid m' ∧ I.Inherited m m' := by
  intro hclaim
  obtain ⟨r, -, hv⟩ := exists_oneEntry (lit "B::run")
  obtain ⟨rounds, hrounds⟩ := hclaim ⟨lit "B", lit "B::D", (· + 1)⟩ _ _ hv (fresh_oneEntry _ _ _)
  obtain ⟨h', m', hinherit, ⟨t, hh⟩, hinherited⟩ := hrounds (max rounds 4) (Nat.le_max_left ..)
  have htwice : ((nameObjectInherit ⟨lit "B", lit "B::D", (· + 1)⟩ 4 (oneEntry (lit "B::run"))).bind fun h =>
      (h.getattr (lit "B::D::D::run")).bind fun n => n.bind (·.get (lit "()"))) = some 1 := by decide +kernel
  obtain ⟨h'', hfour, hget⟩ := Option.bind_eq_some_iff.mp htwice
  obtain rfl : h' = h'' := Option.some.inj (hinherit.symm.trans (nameObjectInherit_le (Nat.le_max_right ..) hfour))
  rw [LinkedHash.getattr_spec hh, Option.bind_some, hinherited.others] at hget
  · rw [lookup_oneMap, if_neg (by decide)] at hget
    cases hget
  · rintro ⟨x, n, hkey, hlookup, -⟩
    rw [lookup_oneMap] at hlookup
    split at hlookup
    · rename_i hx
      have happend : lit "B::" ++ x = lit "B::" ++ lit "run" := hx
      obtain rfl := List.append_cancel_left happend
      exact absurd hkey (by decide)
    · cases hlookup

end Inherit

end Swig.Naming
