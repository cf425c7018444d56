import Swig.DOH.CType
import Swig.Lib.SearchTree

/-!
The interned keys in memory (`find_key` of `hash.c`).

A node and a `String` object are named by the number of those made before. Interned strings are
never deleted.
-/

namespace Swig.DOH

open SearchTree

/-- The nodes, their root, how many there are, and the contents of the strings made. -/
structure InternTree where
  heap : ℕ → Option (Cell (List Byte) ℕ)
  root : Option ℕ
  nodes : ℕ
  strings : List (List Byte)

namespace InternTree

def new : InternTree := { heap := fun _ => none, root := none, nodes := 0, strings := [] }

/-- The loop of `find_key`: the string found, or the last node and the last comparison. -/
def findLoop (heap : ℕ → Option (Cell (List Byte) ℕ)) (c : List Byte) :
    ℕ → Option ℕ → Ordering → Option ℕ → Option (ℕ ⊕ Option ℕ × Ordering)
  | _, s, d, none => some (.inr (s, d))
  | 0, _, _, some _ => none
  | fuel + 1, _, _, some r => do
      let n ← heap r
      match strcmp n.key c with
      | .eq => some (.inl n.value)
      | .lt => findLoop heap c fuel (some r) .lt n.left
      | .gt => findLoop heap c fuel (some r) .gt n.right

/-- The new node is linked to the last one, or it is the root. -/
def link (k : InternTree) (s : Option ℕ) (d : Ordering) (r : ℕ) : Option InternTree :=
  match s with
  | none => some { k with root := some r }
  | some s => do
      let n ← k.heap s
      some { k with heap := Function.update k.heap s (some (n.graft d r)) }

/-- `find_key`. -/
def findKey (k : InternTree) (c : List Byte) : Option (ℕ × InternTree) := do
  match ← findLoop k.heap c k.nodes none .eq k.root with
  | .inl sstr => return (sstr, k)
  | .inr (s, d) => do
      let r := k.nodes
      let sstr := k.strings.length
      let heap := Function.update k.heap r (some ⟨c, sstr, none, none⟩)
      let k ← link { k with heap, nodes := r + 1, strings := k.strings ++ [c] } s d r
      return (sstr, k)

/-- The calls one after the other, with the strings they return. -/
def run (k : InternTree) : List (List Byte) → Option (List ℕ × InternTree)
  | [] => some ([], k)
  | c :: cs => do
      let (o, k) ← k.findKey c
      let (os, k) ← run k cs
      return (o :: os, k)

/-! ### The tree -/

abbrev Keys := KeyedTree (List Byte) ℕ

/-- The memory holds the search tree `t`, and each key has a string with its contents. -/
structure Holds (k : InternTree) (t : Keys) : Prop where
  lays : Lays k.heap k.root t
  ordered : t.Ordered strcmp
  nodup : t.addresses.Nodup
  made : ∀ a ∈ t.addresses, a < k.nodes
  nodes_eq : t.addresses.length = k.nodes
  string : ∀ c o, (c, o) ∈ t.bindings → k.strings[o]? = some c

variable {k : InternTree} {t : Keys} {c : List Byte} {heap heap' : ℕ → Option (Cell (List Byte) ℕ)}
  {r s : Option ℕ} {d : Ordering} {fuel o : ℕ}

theorem holds_new : new.Holds .nil :=
  { lays := rfl, ordered := trivial, nodup := List.nodup_nil, made := nofun, nodes_eq := rfl, string := nofun }

/-- Where the loop ends when the key is missing: a node put there is inserted. -/
structure Hole (heap : ℕ → Option (Cell (List Byte) ℕ)) (r : Option ℕ) (t : Keys) (c : List Byte) (s : ℕ)
    (d : Ordering) : Prop where
  mem : s ∈ t.addresses
  insert : ∃ n, heap s = some n ∧ ∀ heap' a o, (∀ b ∈ t.addresses, b ≠ s → heap' b = heap b) →
    heap' s = some (n.graft d a) → heap' a = some ⟨c, o, none, none⟩ → Lays heap' r (t.insert strcmp a c o)

theorem Hole.left {a : ℕ} {key : List Byte} {v : ℕ} {left right : Option ℕ} {l r : Keys} {s : ℕ}
    (hcell : heap a = some ⟨key, v, left, right⟩) (hright : Lays heap right r)
    (hnodup : (KeyedTree.node a key v l r).addresses.Nodup) (hcmp : strcmp key c = .lt)
    (h : Hole heap left l c s d) : Hole heap (some a) (.node a key v l r) c s d := by
  obtain ⟨hmem, n, hn, hins⟩ := h
  obtain ⟨ha, -, -, hdisj⟩ : a ∉ l.addresses ++ r.addresses ∧ _ ∧ _ ∧ _ := by
    simpa only [KeyedTree.addresses, List.nodup_cons, List.nodup_append] using hnodup
  rw [List.mem_append, not_or] at ha
  refine ⟨List.mem_cons_of_mem a (List.mem_append_left _ hmem), n, hn, fun heap' b o hother hs hb => ?_⟩
  have hleft := hins heap' b o
    (fun x hx => hother x (List.mem_cons_of_mem a (List.mem_append_left _ hx))) hs hb
  have hcell' : heap' a = some ⟨key, v, left, right⟩ :=
    (hother a List.mem_cons_self fun heq => ha.1 (heq ▸ hmem)).trans hcell
  have hright' : Lays heap' right r := hright.congr fun x hx =>
    hother x (List.mem_cons_of_mem a (List.mem_append_right _ hx)) fun heq => hdisj s hmem x hx heq.symm
  rw [KeyedTree.insert, hcmp]
  exact ⟨rfl, left, right, hcell', hleft, hright'⟩

theorem Hole.right {a : ℕ} {key : List Byte} {v : ℕ} {left right : Option ℕ} {l r : Keys} {s : ℕ}
    (hcell : heap a = some ⟨key, v, left, right⟩) (hleft : Lays heap left l)
    (hnodup : (KeyedTree.node a key v l r).addresses.Nodup) (hcmp : strcmp key c = .gt)
    (h : Hole heap right r c s d) : Hole heap (some a) (.node a key v l r) c s d := by
  obtain ⟨hmem, n, hn, hins⟩ := h
  obtain ⟨ha, -, -, hdisj⟩ : a ∉ l.addresses ++ r.addresses ∧ _ ∧ _ ∧ _ := by
    simpa only [KeyedTree.addresses, List.nodup_cons, List.nodup_append] using hnodup
  rw [List.mem_append, not_or] at ha
  refine ⟨List.mem_cons_of_mem a (List.mem_append_right _ hmem), n, hn, fun heap' b o hother hs hb => ?_⟩
  have hright := hins heap' b o
    (fun x hx => hother x (List.mem_cons_of_mem a (List.mem_append_right _ hx))) hs hb
  have hcell' : heap' a = some ⟨key, v, left, right⟩ :=
    (hother a List.mem_cons_self fun heq => ha.2 (heq ▸ hmem)).trans hcell
  have hleft' : Lays heap' left l := hleft.congr fun x hx =>
    hother x (List.mem_cons_of_mem a (List.mem_append_left _ hx)) fun heq => hdisj x hx s hmem heq
  rw [KeyedTree.insert, hcmp]
  exact ⟨rfl, left, right, hcell', hleft', hright⟩

/-- A leaf's place below a node, on the side of the comparison. -/
theorem hole_leaf {a : ℕ} {key : List Byte} {v : ℕ} {left right : Option ℕ} {l r : Keys}
    (hcell : heap a = some ⟨key, v, left, right⟩) (hl : Lays heap left l) (hr : Lays heap right r)
    (hnodup : (KeyedTree.node a key v l r).addresses.Nodup)
    (hd : strcmp key c = .lt ∧ d = .lt ∧ l = .nil ∨ strcmp key c = .gt ∧ d = .gt ∧ r = .nil) :
    Hole heap (some a) (.node a key v l r) c a d := by
  have ha : a ∉ l.addresses ++ r.addresses := (List.nodup_cons.mp hnodup).1
  have hne {x : ℕ} (hx : x ∈ l.addresses ++ r.addresses) : x ≠ a := fun heq => ha (heq ▸ hx)
  refine ⟨List.mem_cons_self, _, hcell, fun heap' b o hother hs hb => ?_⟩
  have hcongr {x : ℕ} (hx : x ∈ l.addresses ++ r.addresses) : heap' x = heap x :=
    hother x (List.mem_cons_of_mem a hx) (hne hx)
  have hl' : Lays heap' left l := hl.congr fun x hx => hcongr (List.mem_append_left _ hx)
  have hr' : Lays heap' right r := hr.congr fun x hx => hcongr (List.mem_append_right _ hx)
  obtain ⟨hcmp, rfl, rfl⟩ | ⟨hcmp, rfl, rfl⟩ := hd
  · rw [KeyedTree.insert, hcmp]
    exact ⟨rfl, some b, right, hs, ⟨rfl, none, none, hb, rfl, rfl⟩, hr'⟩
  · rw [KeyedTree.insert, hcmp]
    exact ⟨rfl, left, some b, hs, hl', rfl, none, none, hb, rfl, rfl⟩

theorem findLoop_some {a : ℕ} {n : Cell (List Byte) ℕ} (hcell : heap a = some n) :
    findLoop heap c (fuel + 1) s d (some a) =
      match strcmp n.key c with
      | .eq => some (.inl n.value)
      | .lt => findLoop heap c fuel (some a) .lt n.left
      | .gt => findLoop heap c fuel (some a) .gt n.right := by
  rw [findLoop, hcell]
  rfl

/-- The loop finds the string of the key, or the place for it. -/
theorem findLoop_spec (hl : Lays heap r t) (hord : t.Ordered strcmp) (hnodup : t.addresses.Nodup)
    (hfuel : t.addresses.length ≤ fuel) (s : Option ℕ) (d : Ordering) :
    (∃ o, (c, o) ∈ t.bindings ∧ findLoop heap c fuel s d r = some (.inl o)) ∨
      c ∉ t.keys ∧ (t = .nil ∧ findLoop heap c fuel s d r = some (.inr (s, d)) ∨
        ∃ s' d', findLoop heap c fuel s d r = some (.inr (some s', d')) ∧ Hole heap r t c s' d') := by
  induction t generalizing r fuel s d with
  | nil =>
      obtain rfl : r = none := hl
      refine .inr ⟨nofun, .inl ⟨rfl, ?_⟩⟩
      cases fuel <;> rfl
  | node a key v l r' ihl ihr =>
      obtain ⟨fuel, rfl⟩ : ∃ f, fuel = f + 1 :=
        Nat.exists_eq_succ_of_ne_zero (by rintro rfl; cases hfuel)
      have hlen : l.addresses.length ≤ fuel ∧ r'.addresses.length ≤ fuel := by
        rw [KeyedTree.addresses, List.length_cons, List.length_append] at hfuel
        omega
      obtain ⟨rfl, left, right, hcell, hleft, hright⟩ := hl
      obtain ⟨-, hnodupl, hnodupr, -⟩ : a ∉ l.addresses ++ r'.addresses ∧ _ ∧ _ ∧ _ := by
        simpa only [KeyedTree.addresses, List.nodup_cons, List.nodup_append] using hnodup
      rw [findLoop_some hcell]
      cases hcmp : strcmp key c with
      | eq => exact .inl ⟨v, strcmp_eq_iff.mp hcmp ▸ List.mem_cons_self, rfl⟩
      | lt =>
          have hkey : c ≠ key := by
            rintro rfl
            cases hcmp.symm.trans (strcmp_eq_iff.mpr rfl)
          obtain ⟨o, ho, hloop⟩ | ⟨hout, hend⟩ := ihl hleft hord.2.2.1 hnodupl hlen.1 (some a) .lt
          · exact .inl ⟨o, KeyedTree.mem_bindings_node.mpr (.inr (.inl ho)), hloop⟩
          · refine .inr ⟨?_, .inr ?_⟩
            · rw [KeyedTree.keys_node, List.mem_cons, List.mem_append, not_or, not_or]
              exact ⟨hkey, hout, hord.not_mem_lt hcmp⟩
            · obtain ⟨rfl, hloop⟩ | ⟨s', d', hloop, hhole⟩ := hend
              · exact ⟨a, .lt, hloop, hole_leaf hcell hleft hright hnodup (.inl ⟨hcmp, rfl, rfl⟩)⟩
              · exact ⟨s', d', hloop, hhole.left hcell hright hnodup hcmp⟩
      | gt =>
          have hkey : c ≠ key := by
            rintro rfl
            cases hcmp.symm.trans (strcmp_eq_iff.mpr rfl)
          obtain ⟨o, ho, hloop⟩ | ⟨hout, hend⟩ := ihr hright hord.2.2.2 hnodupr hlen.2 (some a) .gt
          · exact .inl ⟨o, KeyedTree.mem_bindings_node.mpr (.inr (.inr ho)), hloop⟩
          · refine .inr ⟨?_, .inr ?_⟩
            · rw [KeyedTree.keys_node, List.mem_cons, List.mem_append, not_or, not_or]
              exact ⟨hkey, hord.not_mem_gt hcmp, hout⟩
            · obtain ⟨rfl, hloop⟩ | ⟨s', d', hloop, hhole⟩ := hend
              · exact ⟨a, .gt, hloop, hole_leaf hcell hleft hright hnodup (.inr ⟨hcmp, rfl, rfl⟩)⟩
              · exact ⟨s', d', hloop, hhole.right hcell hleft hnodup hcmp⟩

/-! ### A call -/

/-- A new key with a new string. -/
theorem Holds.inserted (h : k.Holds t) (hc : c ∉ t.keys)
    (hlays : Lays heap r (t.insert strcmp k.nodes c k.strings.length)) :
    Holds ⟨heap, r, k.nodes + 1, k.strings ++ [c]⟩ (t.insert strcmp k.nodes c k.strings.length) := by
  obtain ⟨haddr, hbind⟩ :
      (t.insert strcmp k.nodes c k.strings.length).addresses.Perm (k.nodes :: t.addresses) ∧ _ :=
    KeyedTree.insert_perm hc
  refine ⟨hlays, h.ordered.insert hc, ?_, fun a ha => ?_, ?_, fun x o hx => ?_⟩
  · rw [haddr.nodup_iff, List.nodup_cons]
    exact ⟨fun hmem => Nat.lt_irrefl _ (h.made _ hmem), h.nodup⟩
  · obtain rfl | ha := List.mem_cons.mp (haddr.mem_iff.mp ha)
    · exact Nat.lt_succ_self _
    · exact Nat.lt_succ_of_lt (h.made a ha)
  · rw [haddr.length_eq, List.length_cons, h.nodes_eq]
  · obtain heq | hx := List.mem_cons.mp (hbind.mem_iff.mp hx)
    · obtain ⟨rfl, rfl⟩ := Prod.mk.inj heq
      exact List.getElem?_concat_length ..
    · have hold := h.string x o hx
      exact List.getElem?_append_left (List.getElem?_eq_some_iff.mp hold).1 ▸ hold

theorem Holds.findKey (h : k.Holds t) (c : List Byte) : ∃ o k' t', k.findKey c = some (o, k') ∧ k'.Holds t' ∧
    (c, o) ∈ t'.bindings ∧ ∀ b ∈ t.bindings, b ∈ t'.bindings := by
  obtain ⟨o, ho, hloop⟩ | ⟨hout, hend⟩ :=
    findLoop_spec (c := c) h.lays h.ordered h.nodup (Nat.le_of_eq h.nodes_eq) none .eq
  · refine ⟨o, k, t, ?_, h, ho, fun b hb => hb⟩
    rw [InternTree.findKey, hloop]
    rfl
  · have hbind : (t.insert strcmp k.nodes c k.strings.length).bindings.Perm ((c, k.strings.length) :: t.bindings) :=
      (KeyedTree.insert_perm hout).2
    have hnew : (c, k.strings.length) ∈ (t.insert strcmp k.nodes c k.strings.length).bindings :=
      hbind.mem_iff.mpr List.mem_cons_self
    have hold : ∀ b ∈ t.bindings, b ∈ (t.insert strcmp k.nodes c k.strings.length).bindings :=
      fun b hb => hbind.mem_iff.mpr (List.mem_cons_of_mem _ hb)
    obtain ⟨rfl, hloop⟩ | ⟨s, d, hloop, hmem, n, hn, hins⟩ := hend
    · have hlays : Lays (Function.update k.heap k.nodes (some ⟨c, k.strings.length, none, none⟩)) (some k.nodes)
          (KeyedTree.nil.insert strcmp k.nodes c k.strings.length) :=
        ⟨rfl, none, none, Function.update_self .., rfl, rfl⟩
      refine ⟨_, _, _, ?_, h.inserted hout hlays, hnew, hold⟩
      rw [InternTree.findKey, hloop]
      rfl
    · have hs : s ≠ k.nodes := Nat.ne_of_lt (h.made s hmem)
      have hread : Function.update k.heap k.nodes (some ⟨c, k.strings.length, none, none⟩) s = some n :=
        (Function.update_of_ne hs ..).trans hn
      have hlays : Lays (Function.update (Function.update k.heap k.nodes (some ⟨c, k.strings.length, none, none⟩)) s
          (some (n.graft d k.nodes))) k.root (t.insert strcmp k.nodes c k.strings.length) := by
        refine hins _ k.nodes _ (fun b hb hbs => ?_) (Function.update_self ..) ?_
        · rw [Function.update_of_ne hbs, Function.update_of_ne (Nat.ne_of_lt (h.made b hb))]
        · rw [Function.update_of_ne hs.symm, Function.update_self]
      refine ⟨_, _, _, ?_, h.inserted hout hlays, hnew, hold⟩
      rw [InternTree.findKey, hloop]
      simp only [Option.bind_eq_bind, Option.bind_some, link, hread, Option.pure_def]

/-! ### Runs -/

theorem Holds.run (h : k.Holds t) (cs : List (List Byte)) : ∃ os k' t', k.run cs = some (os, k') ∧ k'.Holds t' ∧
    List.Forall₂ (fun c o => (c, o) ∈ t'.bindings) cs os ∧ ∀ b ∈ t.bindings, b ∈ t'.bindings := by
  induction cs generalizing k t with
  | nil => exact ⟨[], k, t, rfl, h, .nil, fun b hb => hb⟩
  | cons c cs ih =>
      obtain ⟨o, k₁, t₁, hcall, h₁, ho, hkeep⟩ := h.findKey c
      obtain ⟨os, k₂, t₂, hrun, h₂, hos, hkeep'⟩ := ih h₁
      refine ⟨o :: os, k₂, t₂, ?_, h₂, .cons (hkeep' _ ho) hos, fun b hb => hkeep' b (hkeep b hb)⟩
      simp only [InternTree.run, hcall, hrun, Option.bind_eq_bind, Option.bind_some, Option.pure_def]

/-- The strings of two keys are the same object if the keys are equal. -/
theorem Holds.string_inj (h : k.Holds t) {c c' : List Byte} {o o' : ℕ} (hc : (c, o) ∈ t.bindings)
    (hc' : (c', o') ∈ t.bindings) : o = o' ↔ c = c' := by
  constructor
  · rintro rfl
    exact Option.some.inj ((h.string c o hc).symm.trans (h.string c' o hc'))
  · rintro rfl
    have hinj := List.inj_on_of_nodup_map h.ordered.nodup_keys hc hc' rfl
    exact congrArg Prod.snd hinj

/-- After any calls the memory holds a search tree over distinct keys, and two calls have returned the
same string object if and only if they were made with equal strings. -/
theorem run_interns (cs : List (List Byte)) : ∃ os k t, new.run cs = some (os, k) ∧ os.length = cs.length ∧
    Lays k.heap k.root t ∧ t.addresses.Nodup ∧ t.Ordered strcmp ∧ t.keys.Nodup ∧
    (∀ (i : ℕ) c o, cs[i]? = some c → os[i]? = some o → k.strings[o]? = some c) ∧
    ∀ (i j : ℕ) c c' o o', cs[i]? = some c → cs[j]? = some c' → os[i]? = some o → os[j]? = some o' →
      (o = o' ↔ c = c') := by
  obtain ⟨os, k, t, hrun, h, hos, -⟩ := holds_new.run cs
  have hmem (i : ℕ) (c : List Byte) (o : ℕ) (hc : cs[i]? = some c) (ho : os[i]? = some o) :
      (c, o) ∈ t.bindings := by
    obtain ⟨hi, rfl⟩ := List.getElem?_eq_some_iff.mp hc
    obtain ⟨hi', rfl⟩ := List.getElem?_eq_some_iff.mp ho
    exact hos.get hi hi'
  refine ⟨os, k, t, hrun, hos.length_eq.symm, h.lays, h.nodup, h.ordered, h.ordered.nodup_keys, ?_, ?_⟩
  · exact fun i c o hc ho => h.string c o (hmem i c o hc ho)
  · exact fun i j c c' o o' hc hc' ho ho' => h.string_inj (hmem i c o hc ho) (hmem j c' o' hc' ho')

example : (new.run [lit "b", lit "a", lit "c", lit "a", lit "b"]).map Prod.fst = some [0, 1, 2, 1, 0] := by decide

end InternTree

end Swig.DOH
