import Swig.DOH.PoolOps

/-!
The counts through the hash operations.
-/

namespace Swig.DOH.Pool

open RefCount Swig.Lib

variable {p p' : Pool} {owned : ℕ → ℕ} {S S' : ℕ → List ℕ} {hand : List ℕ} {busy fresh : Option ℕ}
  {ho k c : ℕ} {b : DohBase} {t : List (List Node)} {nitems : ℕ}

/-! ### The slots of a table -/

theorem slots_of_table (ht : p.table ho = some (t, nitems)) :
    p.slots ho = (ObjData.hash t nitems).slots := by
  obtain ⟨b, hb, hdata⟩ := table_eq_some ht
  rw [Pool.slots_eq hb, hdata]

theorem Extends.table (h : p'.Extends p) (ht : p.table ho = some (t, nitems)) :
    p'.table ho = some (t, nitems) := by
  obtain ⟨b, hb, hdata⟩ := table_eq_some ht
  exact table_eq (h ho b hb) hdata

/-- Tables with the same nodes have the same slots. -/
theorem slots_perm {t' : List (List Node)} {n n' : ℕ} (h : t'.flatten.Perm t.flatten) :
    (ObjData.hash t' n').slots.Perm (ObjData.hash t n).slots :=
  h.flatMap_right _

/-- Replacing a chain replaces the slots of its nodes. -/
theorem exists_slots_set {hv : ℕ} (h : hv < t.length) : ∃ rest, ∀ n,
    (ObjData.hash t n).slots.Perm ((Buckets.bucket t hv).flatMap (fun n => [n.key, n.object]) ++ rest) ∧
      ∀ chain n', (ObjData.hash (t.set hv chain) n').slots.Perm
        (chain.flatMap (fun n => [n.key, n.object]) ++ rest) := by
  obtain ⟨rest, hold, hnew⟩ := Buckets.exists_flatten_set_perm h
  refine ⟨rest.flatMap fun n => [n.key, n.object], fun n => ⟨?_, fun chain n' => ?_⟩⟩
  · rw [← List.flatMap_append]
    exact hold.flatMap_right _
  · rw [← List.flatMap_append]
    exact (hnew chain).flatMap_right _

theorem node_slots_perm {chain : List Node} {i : ℕ} (hi : i < chain.length) :
    (chain.flatMap fun n => [n.key, n.object]).Perm
      (chain[i].key :: chain[i].object :: (chain.eraseIdx i).flatMap fun n => [n.key, n.object]) :=
  ((List.getElem_cons_eraseIdx_perm hi).symm.flatMap_right fun n : Node => [n.key, n.object])

theorem empty_slots (m n : ℕ) : (ObjData.hash (List.replicate m []) n).slots = [] := by
  show (List.replicate m []).flatten.flatMap _ = []
  rw [List.flatten_replicate_nil, List.flatMap_nil]

theorem key_mem_slots {n : Node} (hn : n ∈ t.flatten) : n.key ∈ (ObjData.hash t nitems).slots :=
  List.mem_flatMap.mpr ⟨n, hn, List.mem_cons_self⟩

theorem object_mem_slots {n : Node} (hn : n ∈ t.flatten) : n.object ∈ (ObjData.hash t nitems).slots :=
  List.mem_flatMap.mpr ⟨n, hn, List.mem_cons_of_mem _ List.mem_cons_self⟩

/-! ### Finding a key -/

theorem exists_hashval (hb : p.get k = some b) : ∃ hv, p.hashval k = some hv := by
  apply Option.isSome_iff_exists.mp
  cases hdata : b.data <;> simp [hashval, hb, hdata]

theorem exists_cmp {o₁ o₂ : ℕ} {b₁ b₂ : DohBase} (h₁ : p.get o₁ = some b₁) (h₂ : p.get o₂ = some b₂) :
    ∃ r, p.cmp o₁ o₂ = some r := by
  apply Option.isSome_iff_exists.mp
  cases hd₁ : b₁.data <;> cases hd₂ : b₂.data <;> simp [cmp, h₁, h₂, hd₁, hd₂]

theorem exists_chainIndex {chain : List Node} (hchain : ∀ n ∈ chain, ∃ b, p.get n.key = some b)
    (hb : p.get k = some b) : ∃ i, p.chainIndex k chain = some i ∧ ∀ j ∈ i, j < chain.length := by
  induction chain with
  | nil => exact ⟨none, rfl, by simp⟩
  | cons n chain ih =>
      obtain ⟨bn, hbn⟩ := hchain n List.mem_cons_self
      obtain ⟨r, hr⟩ := exists_cmp hbn hb
      obtain ⟨i, hi, hlt⟩ := ih fun m hm => hchain m (List.mem_cons_of_mem n hm)
      by_cases hzero : r = 0
      · refine ⟨some 0, by simp [chainIndex, hr, hzero], fun j hj => ?_⟩
        cases hj
        exact Nat.succ_pos _
      · refine ⟨i.map (· + 1), by simp [chainIndex, hr, hzero, hi], fun j hj => ?_⟩
        obtain ⟨m, hm, rfl⟩ := Option.mem_map.mp hj
        exact Nat.succ_lt_succ (hlt m hm)

theorem Extends.hashval {hv : ℕ} (h : p'.Extends p) (hk : p.hashval k = some hv) :
    p'.hashval k = some hv := by
  simp only [Pool.hashval, Option.bind_eq_bind, Option.bind_eq_some_iff] at hk ⊢
  obtain ⟨b, hb, hval⟩ := hk
  exact ⟨b, h k b hb, hval⟩

theorem Extends.cmp {o₁ o₂ : ℕ} {r : ℤ} (h : p'.Extends p) (hr : p.cmp o₁ o₂ = some r) :
    p'.cmp o₁ o₂ = some r := by
  simp only [Pool.cmp, Option.bind_eq_bind, Option.bind_eq_some_iff] at hr ⊢
  obtain ⟨b₁, hb₁, b₂, hb₂, hval⟩ := hr
  exact ⟨b₁, h o₁ b₁ hb₁, b₂, h o₂ b₂ hb₂, hval⟩

theorem Extends.chainIndex {chain : List Node} {i : Option ℕ} (h : p'.Extends p)
    (hi : p.chainIndex k chain = some i) : p'.chainIndex k chain = some i := by
  induction chain generalizing i with
  | nil => exact hi
  | cons n chain ih =>
      simp only [Pool.chainIndex, Option.bind_eq_bind, Option.bind_eq_some_iff] at hi ⊢
      obtain ⟨r, hr, hrest⟩ := hi
      refine ⟨r, h.cmp hr, ?_⟩
      split at hrest
      · rw [if_pos ‹_›]
        exact hrest
      · rw [if_neg ‹_›]
        obtain ⟨j, hj, hval⟩ := Option.bind_eq_some_iff.mp hrest
        exact Option.bind_eq_some_iff.mpr ⟨j, ih hj, hval⟩

theorem Extends.lookup {r : ℕ × Option ℕ} (h : p'.Extends p) (hr : p.lookup t k = some r) :
    p'.lookup t k = some r := by
  simp only [Pool.lookup, Option.bind_eq_bind, Option.bind_eq_some_iff] at hr ⊢
  obtain ⟨hv, hhv, i, hi, hval⟩ := hr
  exact ⟨hv, h.hashval hhv, i, h.chainIndex hi, hval⟩

/-- Looking up a key finds its bucket, and a node of the chain there or none. -/
theorem exists_lookup (hkeys : ∀ n ∈ t.flatten, ∃ b, p.get n.key = some b) (hpos : 0 < t.length)
    (hb : p.get k = some b) : ∃ hv i, p.lookup t k = some (hv, i) ∧ hv < t.length ∧
      ∀ j ∈ i, j < (Buckets.bucket t hv).length := by
  obtain ⟨hv, hhv⟩ := exists_hashval hb
  obtain ⟨i, hi, hlt⟩ := exists_chainIndex
    (fun n hn => hkeys n (Buckets.mem_bucket_iff.mpr ⟨_, hn⟩)) hb
  exact ⟨hv % t.length, i, by simp [lookup, hhv, hi], Nat.mod_lt _ hpos, hlt⟩

theorem Ready.keys_get (h : Ready p owned S hand busy fresh)
    (hS : S ho = (ObjData.hash t nitems).slots) : ∀ n ∈ t.flatten, ∃ b, p.get n.key = some b :=
  fun _ hn => h.counted.exists_of_ref _ (.inr (.inl ⟨ho, hS ▸ key_mem_slots hn⟩))

theorem Ready.length_pos (h : Ready p owned S hand busy fresh) (ht : p.table ho = some (t, nitems)) :
    0 < t.length := by
  obtain ⟨b, hb, hdata⟩ := table_eq_some ht
  exact h.table_pos ho b t nitems hb hdata

/-! ### `resize` -/

theorem exists_rehash {nodes : List Node} (hkeys : ∀ n ∈ nodes, ∃ b, p.get n.key = some b)
    (hpos : 0 < t.length) : ∃ t', nodes.foldlM (fun t' n => do
        return Buckets.push t' ((← p.hashval n.key) % t.length) n) t = some t' ∧
      t'.length = t.length ∧ t'.flatten.Perm (nodes ++ t.flatten) := by
  induction nodes generalizing t with
  | nil => exact ⟨t, rfl, rfl, .refl _⟩
  | cons n nodes ih =>
      obtain ⟨b, hb⟩ := hkeys n List.mem_cons_self
      obtain ⟨hv, hhv⟩ := exists_hashval hb
      have hlen := Buckets.length_push t (hv % t.length) n
      obtain ⟨t', ht', hlen', hperm⟩ := ih (t := Buckets.push t (hv % t.length) n)
        (fun m hm => hkeys m (List.mem_cons_of_mem n hm)) (by rwa [hlen])
      rw [hlen] at ht' hlen'
      refine ⟨t', ?_, hlen', hperm.trans ?_⟩
      · rw [List.foldlM_cons, hhv]
        exact ht'
      · exact ((Buckets.flatten_push_perm (Nat.mod_lt _ hpos) n).append_left nodes).trans
          List.perm_middle

theorem Sound.hashResize (h : Sound p owned) (ht : p.table ho = some (t, nitems))
    (hho : Held owned p.slots ho) : ∃ p' t', p.hashResize ho = some p' ∧ Sound p' owned ∧
      p'.table ho = some t' ∧ ∀ c ≠ ho, p'.slots c = p.slots c := by
  obtain ⟨b, hb, hdata⟩ := table_eq_some ht
  by_cases hsmall : nitems < 2 * t.length
  · exact ⟨p, _, by simp [Pool.hashResize, ht, hsmall], h, ht, fun _ _ => rfl⟩
  · obtain ⟨t', ht', hlen, hperm⟩ := exists_rehash (t := List.replicate (newSize t.length) [])
      (Ready.keys_get h (slots_of_table ht)) (by simpa using newSize_pos _)
    rw [List.length_replicate] at ht' hlen
    rw [List.flatten_replicate_nil, List.append_nil] at hperm
    obtain ⟨b₀, hb₀, hlive⟩ := h.counted.live_of_held hho
    have h₁ := (Ready.weaken h (some ho)).place hb₀ hlive (ObjData.hash t' nitems).slots
      [] fun x => by
        rw [slots_of_table ht, (slots_perm hperm).count_eq x]
    obtain ⟨p₂, hp₂, h₂, hget⟩ := h₁.store (hho.update_self _) hb (by simp [hdata])
      (.hash t' nitems) (by rw [Function.update_self]) fun t₀ n₀ heq => by
        cases heq
        rw [hlen]
        exact newSize_pos _
    refine ⟨p₂, _, ?_, h₂.sound, table_eq (by rw [hget, if_pos rfl]) rfl, fun c hc => ?_⟩
    · rw [Pool.hashResize, ht]
      refine (if_neg hsmall).trans ?_
      exact (congrArg (Option.bind · _) ht').trans hp₂
    · rw [← h₂.slots_eq, Function.update_of_ne hc]

/-! ### `Hash_setattr` and `Hash_delattr` -/

/-- The object in the slot of the key. -/
def slotObject (p : Pool) (ho : ℕ) (k : Value) : Option ℕ := do
  let (k, p) := p.resolve k
  let (hashtable, _) ← p.table ho
  let (hv, i) ← p.lookup hashtable k
  let n ← (Buckets.bucket hashtable hv)[← i]?
  return n.object

/-- The caller holds the value without the slot that it will replace. -/
def HeldWithout (p : Pool) (owned : ℕ → ℕ) (ho : ℕ) (k : Value) : Value → Prop
  | .cstr _ => True
  | .obj o => ∀ old ∈ p.slotObject ho k, o ≠ old →
      Held owned (Function.update p.slots ho ((p.slots ho).erase old)) o

theorem table_pos_set {chain : List Node} {n : ℕ} (hpos : 0 < t.length) :
    ∀ t' m, ObjData.hash (t.set hv chain) n = .hash t' m → 0 < t'.length := by
  intro t' m heq
  cases heq
  rwa [List.length_set]

variable {key v : Value}

theorem Sound.hashDelattr (h : Sound p owned) (ht : p.table ho = some (t, nitems))
    (hho : Held owned p.slots ho) (hk : key.Given owned p.slots) :
    ∃ r p', p.hashDelattr ho key = some (r, p') ∧ Sound p' owned := by
  obtain ⟨k, p₁, bk, hp₁, h₁, hext, hbk⟩ := Ready.resolve h hk
  have ht₁ := hext.table ht
  have hS := slots_of_table ht
  obtain ⟨hv, i, hlookup, hlt, hi⟩ := exists_lookup (h₁.keys_get hS) (h₁.length_pos ht₁) hbk
  cases i with
  | none =>
      refine ⟨0, p₁, ?_, h₁.sound⟩
      simp [Pool.hashDelattr, hp₁, ht₁, hlookup]
  | some i =>
      have hi := hi i rfl
      set chain := Buckets.bucket t hv with hchain
      obtain ⟨rest, hperm⟩ := exists_slots_set hlt
      -- the references of the node are in hand
      have hcount (x : ℕ) :
          (ObjData.hash (t.set hv (chain.eraseIdx i)) nitems).slots.count x +
            [chain[i].key, chain[i].object].count x = (p.slots ho).count x := by
        rw [hS, ((hperm nitems).2 _ _).count_eq x, (hperm nitems).1.count_eq x, List.count_append,
          List.count_append, (node_slots_perm hi).count_eq x]
        simp only [List.count_cons, List.count_nil]
        omega
      obtain ⟨b, hb, hdata⟩ := table_eq_some ht₁
      obtain ⟨b₀, hb₀, hlive⟩ := h₁.counted.live_of_held hho
      have h₂ := (h₁.weaken (some ho)).place hb₀ hlive _ _ hcount
      have hheld := hho.update_self
        (ObjData.hash (t.set hv (chain.eraseIdx i)) nitems).slots
      obtain ⟨p₃, hp₃, h₃, hget₃⟩ := h₂.store hheld hb (by simp [hdata])
        (.hash (t.set hv (chain.eraseIdx i)) nitems) (by rw [Function.update_self])
        (table_pos_set (h₁.length_pos ht₁))
      obtain ⟨p₄, S₄, hp₄, h₄, hkept₄⟩ := h₃.delete (by simp)
      obtain ⟨p₅, S₅, hp₅, h₅, hkept₅⟩ := h₄.delete (by simp)
      have hkept := hkept₄.trans hkept₅
      obtain ⟨b₅, hb₅, hd₅⟩ := hkept.data h₅.counted hheld (by rw [hget₃, if_pos rfl])
      obtain ⟨p₆, hp₆, h₆, -⟩ := (h₅.weaken (some ho)).store (hkept.mono hheld) hb₅ (by simp [hd₅])
        (.hash (t.set hv (chain.eraseIdx i)) (nitems - 1))
        (by rw [hkept.held ho hheld, Function.update_self]; rfl)
        (table_pos_set (h₁.length_pos ht₁))
      refine ⟨1, p₆, ?_, h₆.sound⟩
      simp [Pool.hashDelattr, hp₁, ht₁, hlookup, ← hchain, hi, hp₃, hp₄, hp₅, table_eq hb₅ hd₅, hp₆]

/-- What is held without any slot of the table is held with some. -/
theorem held_update {l : List ℕ} (h : Held owned (Function.update S ho []) c) :
    Held owned (Function.update S ho l) c := by
  refine h.mono (fun _ => id) fun d _ x hx => ?_
  by_cases hd : d = ho
  · rw [hd, Function.update_self] at hx
    cases hx
  · rwa [Function.update_of_ne hd] at hx ⊢

variable {hv i o : ℕ}

/-- Another object for the key: the old one is deleted before the new one is
counted. -/
theorem Ready.replaceObject (h : Ready p owned S [] none fresh)
    (ht : p.table ho = some (t, nitems)) (hS : S ho = (ObjData.hash t nitems).slots)
    (hho : Held owned S ho) (hhv : hv < t.length) (hi : i < (Buckets.bucket t hv).length)
    (hfresh : ∀ x ∈ fresh, x = o) (hb : p.get o = some b)
    (hkeep : Held owned (Function.update S ho ((S ho).erase (Buckets.bucket t hv)[i].object)) o ∨
      ¬b.Live) :
    ∃ p₁ p₂ p₃, p.delete (Buckets.bucket t hv)[i].object = some p₁ ∧
      p₁.setData ho (.hash (t.set hv ((Buckets.bucket t hv).set i
        { (Buckets.bucket t hv)[i] with object := o })) nitems) = some p₂ ∧
      p₂.incref o = some p₃ ∧ Sound p₃ owned ∧ (∃ t', p₃.table ho = some t') ∧
      ∀ c ≠ ho, Held owned (Function.update S ho []) c → p₃.slots c = S c := by
  set chain := Buckets.bucket t hv with hchain
  set old := chain[i].object with hold
  obtain ⟨rest, hperm⟩ := exists_slots_set hhv
  have hmem : old ∈ S ho := by
    rw [hS]
    exact object_mem_slots (Buckets.mem_bucket_iff.mpr ⟨hv, List.getElem_mem hi⟩)
  obtain ⟨bt, hbt, hdata⟩ := table_eq_some ht
  have herase (x : ℕ) : ((S ho).erase old).count x + [old].count x = (S ho).count x := by
    have := (List.perm_cons_erase hmem).count_eq x
    rw [List.count_cons] at this
    rw [List.count_singleton]
    omega
  obtain ⟨p₁, S₁, b₁, hp₁, h₁, hkept, hheld, hS₁, hb₁, hd₁⟩ := h.drop hho hbt _ _ herase
  have hget : ∃ b', p₁.get o = some b' := by
    rcases hkeep with hkeep | hdead
    · obtain ⟨b', hb', -⟩ := h₁.counted.live_of_held (hkept.mono hkeep)
      exact ⟨b', hb'⟩
    · exact ⟨b, hkept.same o b hb (.inr hdead)⟩
  have hcount (x : ℕ) : (ObjData.hash (t.set hv (chain.set i { chain[i] with object := o }))
      nitems).slots.count x = (o :: S₁ ho).count x := by
    have hnew := ((List.set_perm_cons_eraseIdx hi { chain[i] with object := o }).flatMap_right
      fun n : Node => [n.key, n.object]).count_eq x
    have holds := herase x
    rw [hS, (hperm nitems).1.count_eq x, List.count_append, (node_slots_perm hi).count_eq x,
      ← hold] at holds
    rw [((hperm nitems).2 _ _).count_eq x, List.count_append, hnew, hS₁, hS]
    simp only [List.flatMap_cons, List.count_append, List.count_cons, List.count_nil] at holds ⊢
    omega
  obtain ⟨p₂, p₃, hp₂, hp₃, h₃, b₃, hb₃, hd₃⟩ := h₁.insert hheld hb₁ (by simp [hd₁, hdata]) hget
    hfresh _ hcount (table_pos_set (h.length_pos ht))
  refine ⟨p₁, p₂, p₃, by simpa using hp₁, hp₂, hp₃, h₃.sound, ⟨_, table_eq hb₃ hd₃⟩,
    fun c hc hheldc => ?_⟩
  rw [← h₃.slots_eq, Function.update_of_ne hc, hkept.held c (held_update hheldc),
    Function.update_of_ne hc]

/-- A node for a new key. -/
theorem Ready.addNode {k : ℕ} {bk : DohBase} (h : Ready p owned S [] none fresh)
    (ht : p.table ho = some (t, nitems)) (hS : S ho = (ObjData.hash t nitems).slots)
    (hho : Held owned S ho) (hhv : hv < t.length) (hfresh : ∀ x ∈ fresh, x = o)
    (hbk : p.get k = some bk) (hb : p.get o = some b) :
    ∃ p₁ p₂ p₃ p₄, p.incref k = some p₁ ∧ p₁.incref o = some p₂ ∧
      p₂.setData ho (.hash (t.set hv (Buckets.bucket t hv ++ [⟨k, o⟩])) (nitems + 1)) = some p₃ ∧
      p₃.hashResize ho = some p₄ ∧ Sound p₄ owned ∧ (∃ t', p₄.table ho = some t') ∧
      ∀ c ≠ ho, p₄.slots c = S c := by
  obtain ⟨rest, hperm⟩ := exists_slots_set hhv
  obtain ⟨hp₁, h₁⟩ := h.incref hbk fresh fun x => .inr
  obtain ⟨bo, hbo, -⟩ := data_put_refcount (r := bk.refcount + 1) hbk hb
  obtain ⟨hp₂, h₂⟩ := h₁.incref hbo none fun x hx => .inl (hfresh x hx)
  obtain ⟨bt, hbt, hdata⟩ := table_eq_some ht
  obtain ⟨bt₁, hbt₁, hd₁⟩ := data_put_refcount (r := bk.refcount + 1) hbk hbt
  obtain ⟨bt₂, hbt₂, hd₂⟩ := data_put_refcount (r := bo.refcount + 1) hbo hbt₁
  obtain ⟨b₀, hb₀, hlive⟩ := h₂.counted.live_of_held hho
  have hcount (x : ℕ) : (ObjData.hash (t.set hv (Buckets.bucket t hv ++ [⟨k, o⟩]))
      (nitems + 1)).slots.count x + [].count x = (S ho).count x + [o, k].count x := by
    rw [hS, ((hperm nitems).2 _ _).count_eq x, (hperm nitems).1.count_eq x, List.flatMap_append]
    simp only [List.flatMap_singleton, List.count_append, List.count_cons, List.count_nil]
    omega
  have h₃ := (h₂.weaken (some ho)).place hb₀ hlive _ _ hcount
  obtain ⟨p₃, hp₃, h₃, hget⟩ := h₃.store (hho.update_self _) hbt₂ (by simp [hd₂, hd₁, hdata])
    (.hash (t.set hv (Buckets.bucket t hv ++ [⟨k, o⟩])) (nitems + 1))
    (by rw [Function.update_self]) (table_pos_set (h.length_pos ht))
  obtain ⟨p₄, t₄, hp₄, h₄, ht₄, hslots⟩ := h₃.sound.hashResize
    (table_eq (by rw [hget, if_pos rfl]) rfl) (h₃.slots_eq ▸ hho.update_self _)
  refine ⟨_, _, p₃, p₄, hp₁, hp₂, hp₃, hp₄, h₄, ⟨t₄, ht₄⟩, fun c hc => ?_⟩
  rw [hslots c hc, ← h₃.slots_eq, Function.update_of_ne hc]

/-- A string that is referred to has a count. -/
theorem Ready.settle (h : Ready p owned S hand busy fresh)
    (hlive : ∀ x ∈ fresh, ∃ b, p.get x = some b ∧ b.Live) : Ready p owned S hand busy none := by
  refine { h with live := fun x b hb => .inl ?_ }
  rcases h.live x b hb with hl | ⟨hx, -⟩
  · exact hl
  · obtain ⟨b', hb', hl⟩ := hlive x hx
    rw [hb] at hb'
    cases hb'
    exact hl

theorem Sound.hashSetattr (h : Sound p owned) (ht : p.table ho = some (t, nitems))
    (hho : Held owned p.slots ho) (hk : key.Given owned p.slots) (hgiven : v.Given owned p.slots)
    (hkeep : p.HeldWithout owned ho key v) :
    ∃ r p', p.hashSetattr ho key (some v) = some (r, p') ∧ Sound p' owned ∧
      (∃ t', p'.table ho = some t') ∧
      ∀ c ≠ ho, Held owned (Function.update p.slots ho []) c → p'.slots c = p.slots c := by
  obtain ⟨k, p₁, bk, hp₁, h₁, hext, hbk⟩ := Ready.resolve h hk
  have ht₁ := hext.table ht
  have hS := slots_of_table ht
  obtain ⟨hv, i, hlookup, hlt, hi⟩ := exists_lookup (h₁.keys_get hS) (h₁.length_pos ht₁) hbk
  obtain ⟨o, p₂, fresh, bo, hp₂, h₂, hext₂, hfresh, hbo, hlive⟩ := h₁.wrap hgiven
  have ht₂ := hext₂.table ht₁
  have hlookup₂ := hext₂.lookup hlookup
  cases i with
  | none =>
      obtain ⟨p₃, p₄, p₅, p₆, hp₃, hp₄, hp₅, hp₆, h₆, ht₆, hslots⟩ := h₂.addNode ht₂ hS hho hlt hfresh
        (hext₂ k bk hbk) hbo
      refine ⟨0, p₆, ?_, h₆, ht₆, fun c hc _ => hslots c hc⟩
      simp [Pool.hashSetattr, hp₁, hp₂, ht₂, hlookup₂, hp₃, hp₄, hp₅, hp₆]
  | some i =>
      have hi := hi i rfl
      by_cases hsame : (Buckets.bucket t hv)[i].object = o
      · -- the object is there already, so it is not a new string
        have hmem : o ∈ p.slots ho := by
          rw [hS, ← hsame]
          exact object_mem_slots (Buckets.mem_bucket_iff.mpr ⟨hv, List.getElem_mem hi⟩)
        have h₃ := h₂.settle fun x hx => hfresh x hx ▸ h₂.counted.live (.inr (.inl ⟨ho, hmem⟩))
        refine ⟨1, p₂, ?_, h₃.sound, ⟨_, ht₂⟩, fun c _ _ => by rw [h₃.slots_eq]⟩
        simp [Pool.hashSetattr, hp₁, hp₂, ht₂, hlookup₂, hi, hsame]
      · have hkeep₂ : Held owned (Function.update p.slots ho
            ((p.slots ho).erase (Buckets.bucket t hv)[i].object)) o ∨ ¬bo.Live := by
          refine hlive.imp_left fun ⟨hvo, _⟩ => ?_
          subst hvo
          apply hkeep _ _ (Ne.symm hsame)
          simp [slotObject, hp₁, ht₁, hlookup, hi]
        obtain ⟨p₃, p₄, p₅, hp₃, hp₄, hp₅, h₅, ht₅, hslots⟩ := h₂.replaceObject ht₂ hS hho hlt hi
          hfresh hbo hkeep₂
        refine ⟨1, p₅, ?_, h₅, ht₅, hslots⟩
        simp [Pool.hashSetattr, hp₁, hp₂, ht₂, hlookup₂, hi, hsame, hp₃, hp₄, hp₅]

/-! ### `Hash_clear` and `CopyHash` -/

theorem Sound.hashClear (h : Sound p owned) (ht : p.table ho = some (t, nitems))
    (hho : Held owned p.slots ho) : ∃ p', p.hashClear ho = some p' ∧ Sound p' owned := by
  obtain ⟨b, hb, hdata⟩ := table_eq_some ht
  obtain ⟨p₁, S₁, b₁, hp₁, h₁, -, hheld, hS₁, hb₁, hd₁⟩ := Ready.drop h hho hb
    [] (ObjData.hash t nitems).slots fun x => by
      rw [slots_of_table ht, List.count_nil, Nat.zero_add]
  obtain ⟨p₂, hp₂, h₂, -⟩ := h₁.store hheld hb₁ (by simp [hd₁, hdata])
    (.hash (List.replicate t.length []) 0)
    (by rw [hS₁, empty_slots]) fun t' m heq => by
      cases heq
      rw [List.length_replicate]
      exact Ready.length_pos h ht
  refine ⟨p₂, ?_, h₂.sound⟩
  simp [Pool.hashClear, ht, hp₁, hp₂]

/-- The nodes that are copied are held by the old table, which the new one does
not change. -/
theorem Sound.copyNodes (h : Sound p owned) (hho : 0 < owned ho) {t' : List (List Node) × ℕ}
    (ht : p.table ho = some t') {nodes : List Node}
    (hnodes : ∀ n ∈ nodes, Held owned (Function.update p.slots ho []) n.key ∧
      Held owned (Function.update p.slots ho []) n.object) :
    ∃ p', nodes.foldlM (fun p n => do
        let (_, p) ← p.hashSetattr ho (.obj n.key) (some (.obj n.object))
        return p) p = some p' ∧ Sound p' owned := by
  induction nodes generalizing p t' with
  | nil => exact ⟨p, rfl, h⟩
  | cons n nodes ih =>
      obtain ⟨hkey, hobject⟩ := hnodes n List.mem_cons_self
      have hall {x : ℕ} (hx : Held owned (Function.update p.slots ho []) x) :
          Held owned p.slots x := by
        rw [← Function.update_eq_self ho p.slots]
        exact held_update hx
      obtain ⟨r, p₁, hp₁, h₁, ⟨t₁, ht₁⟩, hslots⟩ := h.hashSetattr ht
        (.owner hho) (show Value.Given _ _ (.obj n.key) from hall hkey)
        (show Value.Given _ _ (.obj n.object) from hall hobject)
        fun old _ _ => held_update hobject
      have hstay {x : ℕ} (hx : Held owned (Function.update p.slots ho []) x) :
          Held owned (Function.update p₁.slots ho []) x := by
        refine hx.mono (fun _ => id) fun d hd y hy => ?_
        by_cases hdo : d = ho
        · rwa [hdo, Function.update_self] at hy ⊢
        · rw [Function.update_of_ne hdo] at hy ⊢
          rwa [hslots d hdo hd]
      obtain ⟨p₂, hp₂, h₂⟩ := ih h₁ ht₁ fun m hm =>
        (hnodes m (List.mem_cons_of_mem n hm)).imp hstay hstay
      refine ⟨p₂, ?_, h₂⟩
      rw [List.foldlM_cons, hp₁]
      exact hp₂

theorem Sound.copyHash (h : Sound p owned) (ht : p.table ho = some (t, nitems))
    (hho : Held owned p.slots ho) :
    ∃ no p', p.copyHash ho = some (no, p') ∧
      Sound p' (Function.update owned no (owned no + 1)) := by
  have h₁ := Ready.objMalloc h (.hash (List.replicate t.length []) 0) []
    (fun x => by rw [empty_slots]; rfl)
    fun t' m heq => by
      cases heq
      rw [List.length_replicate]
      exact Ready.length_pos h ht
  rw [empty_slots, Ready.update_nil h] at h₁
  have howned : ∀ o, 0 < owned o →
      0 < Function.update owned p.objs.length (owned p.objs.length + 1) o := by
    intro o ho
    by_cases hon : o = p.objs.length
    · rw [hon, Function.update_self]
      omega
    · rwa [Function.update_of_ne hon]
  have hget := get_append p ⟨.hash (List.replicate t.length []) 0, false, 1⟩ p.root p.objs.length
  rw [if_pos rfl] at hget
  have hheld {x : ℕ} (hx : x ∈ (ObjData.hash t nitems).slots) :
      Held (Function.update owned p.objs.length (owned p.objs.length + 1))
        (Function.update p.slots p.objs.length []) x := by
    rw [Ready.update_nil h]
    exact .slot (hho.mono howned fun _ _ _ => id) (slots_of_table ht ▸ hx)
  obtain ⟨p₂, hp₂, h₂⟩ := h₁.own.copyNodes
    (show 0 < Function.update owned _ _ p.objs.length by rw [Function.update_self]; omega) (table_eq hget rfl) fun n hn => by
      rw [← h₁.slots_eq]
      exact ⟨hheld (key_mem_slots hn), hheld (object_mem_slots hn)⟩
  refine ⟨p.objs.length, p₂, ?_, h₂⟩
  rw [Pool.copyHash, ht]
  exact (congrArg (Option.bind · _) hp₂).trans rfl

end Swig.DOH.Pool
