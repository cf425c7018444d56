import Swig.DOH.LinkedHash

/-!
Iteration over a hash table with its nodes in memory (`hash.c`).

An iterator keeps the address of the node behind the one it shows. The loop body may delete
the current binding.
-/

namespace Swig.DOH

open Lib Chain

/-- A `DohIterator` on a hash object; `current` is the node that is shown next. -/
structure LinkedIterator where
  current : Option ℕ
  index : ℕ

variable {V : Type}

namespace LinkedHash

/-- The first index from `i` on with a node, `table` being the buckets from `i` on. -/
def skipNull (i : ℕ) : List (Option ℕ) → ℕ
  | [] => i
  | none :: table => skipNull (i + 1) table
  | some _ :: _ => i

/-- Show the node at `current`, or the end. -/
def visit (h : LinkedHash V) (index : ℕ) : Option ℕ → Option (Option (HashNode V) × LinkedIterator)
  | none => some (none, { current := none, index })
  | some a => (h.heap a).map fun n => (some n.data, { current := n.next, index })

/-- `Hash_firstiter`: the binding that is shown, and the iterator. -/
def firstiter (h : LinkedHash V) : Option (Option (HashNode V) × LinkedIterator) :=
  let index := skipNull 0 h.hashtable
  h.visit index (h.head index)

/-- `Hash_nextiter`. -/
def nextiter (h : LinkedHash V) (iter : LinkedIterator) : Option (Option (HashNode V) × LinkedIterator) :=
  match iter.current with
  | none =>
      let index := skipNull (iter.index + 1) (h.hashtable.drop (iter.index + 1))
      h.visit index (h.head index)
  | some a => h.visit iter.index (some a)

/-- The loop body on the hash, which deletes the current binding or does not. -/
def body (h : LinkedHash V) (delete : Bool) (n : HashNode V) : Option (LinkedHash V) :=
  if delete then (h.delattr n.key).map Prod.snd else some h

/-- The loop over the bindings, where `del` tells the rounds in which the body deletes the current
one; with the bindings visited. -/
def iterateLoop (del : ℕ → Bool) : ℕ → ℕ → LinkedHash V → Option (HashNode V) × LinkedIterator →
    Option (List (HashNode V) × LinkedHash V)
  | _, _, h, (none, _) => some ([], h)
  | 0, _, _, (some _, _) => none
  | fuel + 1, round, h, (some n, iter) => do
      let h ← h.body (del round) n
      let s ← h.nextiter iter
      let (visited, h) ← iterateLoop del fuel (round + 1) h s
      return (n :: visited, h)

/-- `for (ki = First(h); ki.key; ki = Next(ki))`, in at most `fuel` rounds. -/
def iterate (del : ℕ → Bool) (fuel : ℕ) (h : LinkedHash V) : Option (List (HashNode V) × LinkedHash V) := do
  let s ← h.firstiter
  iterateLoop del fuel 0 h s

/-! ### Where an iterator is -/

/-- The bindings from the iterator on are `rest`. -/
def Resumes (t : List (List (ℕ × HashNode V))) (iter : LinkedIterator) (rest : List (ℕ × HashNode V)) : Prop :=
  ∃ front back, Buckets.bucket t iter.index = front ++ back ∧ iter.current = first back ∧
    rest = back ++ (t.drop (iter.index + 1)).flatten

/-- The binding that is shown is `c`, and those behind it are `rest`. -/
def Stands (t : List (List (ℕ × HashNode V))) (iter : LinkedIterator) (c : ℕ × HashNode V)
    (rest : List (ℕ × HashNode V)) : Prop :=
  ∃ front back, Buckets.bucket t iter.index = front ++ c :: back ∧ iter.current = first back ∧
    rest = back ++ (t.drop (iter.index + 1)).flatten

variable {h : LinkedHash V} {t : List (List (ℕ × HashNode V))} {m : StringMap V} {iter : LinkedIterator}
  {c : ℕ × HashNode V} {rest : List (ℕ × HashNode V)}

theorem Stands.resumes (hs : Stands t iter c rest) : Resumes t iter rest := by
  obtain ⟨front, back, hbucket, hcurrent, hrest⟩ := hs
  exact ⟨front ++ [c], back, by simp [hbucket], hcurrent, hrest⟩

/-- Skipping the empty buckets from index `i` on reaches the next binding. -/
theorem visit_skipNull (hl : h.Lays t) (i : ℕ) :
    ((t.drop i).flatten = [] ∧ ∃ iter, h.visit (skipNull i (h.hashtable.drop i))
      (h.head (skipNull i (h.hashtable.drop i))) = some (none, iter)) ∨
      ∃ c rest iter, (t.drop i).flatten = c :: rest ∧ h.visit (skipNull i (h.hashtable.drop i))
        (h.head (skipNull i (h.hashtable.drop i))) = some (some c.2, iter) ∧ Stands t iter c rest := by
  have htable := hl.hashtable_eq
  generalize ht : t.drop i = u
  induction u generalizing i with
  | nil =>
      have hlen : t.length ≤ i := List.drop_eq_nil_iff.mp ht
      have hdrop : h.hashtable.drop i = [] := by
        rw [htable]
        exact List.drop_eq_nil_iff.mpr (by simpa using hlen)
      refine .inl ⟨rfl, { current := none, index := i }, ?_⟩
      have hhead : h.head i = none := by
        rw [head, List.getD_eq_getElem?_getD, htable, List.getElem?_eq_none (by simpa using hlen), Option.getD_none]
      rw [hdrop, skipNull, hhead, visit]
  | cons b u ih =>
      have hi : i < t.length := by
        by_contra hle
        rw [List.drop_eq_nil_iff.mpr (Nat.le_of_not_lt hle)] at ht
        cases ht
      rw [List.drop_eq_getElem_cons hi, List.cons_eq_cons] at ht
      obtain ⟨hb, hu⟩ := ht
      have hdrop : h.hashtable.drop i = first b :: h.hashtable.drop (i + 1) := by
        rw [htable, List.drop_eq_getElem_cons (by simpa using hi), List.getElem_map, hb]
      have hbucket : Buckets.bucket t i = b := by rw [Buckets.bucket_eq_getElem hi, hb]
      have hchain := hl.chain i
      rw [hbucket] at hchain
      rw [hdrop, List.flatten_cons]
      cases b with
      | nil => simpa [skipNull, first] using ih (i + 1) hu
      | cons c b =>
          obtain ⟨a, n⟩ := c
          refine .inr ⟨(a, n), b ++ u.flatten, { current := first b, index := i }, rfl, ?_, [], b, hbucket, rfl, ?_⟩
          · have hskip : skipNull i (first ((a, n) :: b) :: h.hashtable.drop (i + 1)) = i := rfl
            rw [hskip, hchain.start_eq, first, List.head?_cons, Option.map_some, visit, hchain.load]
            rfl
          · rw [hu]

theorem firstiter_spec (hl : h.Lays t) : (t.flatten = [] ∧ ∃ iter, h.firstiter = some (none, iter)) ∨
    ∃ c rest iter, t.flatten = c :: rest ∧ h.firstiter = some (some c.2, iter) ∧ Stands t iter c rest :=
  visit_skipNull hl 0

theorem nextiter_spec (hl : h.Lays t) (hr : Resumes t iter rest) :
    (rest = [] ∧ ∃ iter', h.nextiter iter = some (none, iter')) ∨
      ∃ c rest' iter', rest = c :: rest' ∧ h.nextiter iter = some (some c.2, iter') ∧ Stands t iter' c rest' := by
  obtain ⟨front, back, hbucket, hcurrent, rfl⟩ := hr
  cases back with
  | nil =>
      rw [nextiter, hcurrent]
      exact visit_skipNull hl (iter.index + 1)
  | cons c back =>
      obtain ⟨a, n⟩ := c
      have hchain := hl.chain iter.index
      rw [hbucket] at hchain
      obtain ⟨mid, -, hback⟩ := hchain.of_append
      refine .inr ⟨(a, n), back ++ (t.drop (iter.index + 1)).flatten, { current := first back, index := iter.index },
        rfl, ?_, front, back, hbucket, rfl, rfl⟩
      rw [nextiter, hcurrent, first, List.head?_cons, Option.map_some]
      dsimp only
      rw [visit, hback.load]
      rfl

/-- The body deletes the binding that is shown, and the iterator does not notice. -/
theorem Stands.delete (hh : h.Holds t m) (hs : Stands t iter c rest) : ∃ h' t', h.delattr c.2.key = some (1, h') ∧
    h'.Holds t' (m.erase c.2.key) ∧ Resumes t' iter rest ∧ h'.heap c.1 = none := by
  obtain ⟨front, back, hbucket, hcurrent, hrest⟩ := hs
  obtain ⟨h', hdelete, hh', hfreed⟩ := delattr_spec hh hbucket
  have hlt : iter.index < t.length :=
    Buckets.lt_length_of_mem (hbucket ▸ List.mem_append_right front List.mem_cons_self)
  refine ⟨h', _, hdelete, hh', ⟨front, back, ?_, hcurrent, ?_⟩, hfreed⟩
  · rw [Buckets.bucket_set hlt, if_pos rfl]
  · rw [hrest, List.drop_set_of_lt (Nat.lt_succ_self _)]

/-! ### Changes of the table under an iterator -/

/-- `mid` may have been replaced by `mid'` at one place. -/
def Patched {α : Type} (mid mid' r r' : List α) : Prop :=
  r' = r ∨ ∃ u v, r = u ++ (mid ++ v) ∧ r' = u ++ (mid' ++ v)

section Patched

variable {α : Type} {mid mid' r r' : List α}

theorem Patched.append_left (h : Patched mid mid' r r') (w : List α) : Patched mid mid' (w ++ r) (w ++ r') := by
  rcases h with rfl | ⟨u, v, rfl, rfl⟩
  · exact .inl rfl
  · exact .inr ⟨w ++ u, v, by simp, by simp⟩

theorem Patched.append_right (h : Patched mid mid' r r') (w : List α) : Patched mid mid' (r ++ w) (r' ++ w) := by
  rcases h with rfl | ⟨u, v, rfl, rfl⟩
  · exact .inl rfl
  · exact .inr ⟨u, v ++ w, by simp, by simp⟩

theorem Patched.flatten_set {L : List (List α)} {i : ℕ} (hi : i < L.length) (h : Patched mid mid' L[i] r') :
    Patched mid mid' L.flatten (L.set i r').flatten := by
  have hold : L.flatten = (L.take i).flatten ++ (L[i] ++ (L.drop (i + 1)).flatten) := by
    conv_lhs => rw [← List.take_append_drop i L, List.drop_eq_getElem_cons hi]
    rw [List.flatten_append, List.flatten_cons]
  rw [hold, List.set_eq_take_append_cons_drop, if_pos hi, List.flatten_append, List.flatten_cons]
  exact (h.append_right _).append_left _

theorem Patched.filter (h : Patched mid mid' r r') {p : α → Bool} (hmid : mid.filter p = mid'.filter p) :
    r'.filter p = r.filter p := by
  rcases h with rfl | ⟨u, v, rfl, rfl⟩
  · rfl
  · simp [hmid]

theorem Patched.length_le (h : Patched mid mid' r r') : r'.length ≤ r.length + (mid'.length - mid.length) := by
  rcases h with rfl | ⟨u, v, rfl, rfl⟩
  · omega
  · simp only [List.length_append]
    omega

end Patched

/-- One bucket is changed; where it is the iterator's, the iterator goes on in the new one. -/
theorem Resumes.set {mid mid' b : List (ℕ × HashNode V)} (hr : Resumes t iter rest) {i : ℕ} (hi : i < t.length)
    (hb : Patched mid mid' (Buckets.bucket t i) b)
    (hat : ∀ front back, Buckets.bucket t i = front ++ back →
      ∃ front' back', b = front' ++ back' ∧ first back' = first back ∧ Patched mid mid' back back') :
    ∃ rest', Resumes (t.set i b) iter rest' ∧ Patched mid mid' rest rest' := by
  obtain ⟨front, back, hbucket, hcurrent, rfl⟩ := hr
  rcases Nat.lt_trichotomy i iter.index with hlt | heq | hgt
  · refine ⟨_, ⟨front, back, ?_, hcurrent, rfl⟩, .inl ?_⟩
    · rw [Buckets.bucket_set hi, if_neg (Nat.ne_of_gt hlt), hbucket]
    · rw [List.drop_set_of_lt (by omega)]
  · obtain ⟨front', back', hb', hfirst, hpatch⟩ := hat front back (heq ▸ hbucket)
    refine ⟨back' ++ (t.drop (iter.index + 1)).flatten, ⟨front', back', ?_, hcurrent.trans hfirst.symm, ?_⟩,
      hpatch.append_right _⟩
    · rw [Buckets.bucket_set hi, if_pos heq.symm, hb']
    · rw [List.drop_set_of_lt (by omega)]
  · refine ⟨back ++ ((t.set i b).drop (iter.index + 1)).flatten, ⟨front, back, ?_, hcurrent, rfl⟩, ?_⟩
    · rw [Buckets.bucket_set hi, if_neg (Nat.ne_of_lt hgt), hbucket]
    · have hdrop : i - (iter.index + 1) < (t.drop (iter.index + 1)).length := by
        rw [List.length_drop]
        omega
      rw [List.drop_set, if_neg (by omega)]
      refine Patched.append_left (.flatten_set hdrop ?_) back
      rw [List.getElem_drop, ← Buckets.bucket_eq_getElem (by omega)]
      rwa [show iter.index + 1 + (i - (iter.index + 1)) = i by omega]

/-- A new node at the end of a chain is behind the iterator, or comes later. -/
theorem Resumes.append (hr : Resumes t iter rest) {i : ℕ} (hi : i < t.length) (c : ℕ × HashNode V) :
    ∃ rest', Resumes (t.set i (Buckets.bucket t i ++ [c])) iter rest' ∧ Patched [] [c] rest rest' := by
  refine hr.set hi (.inr ⟨Buckets.bucket t i, [], by simp, by simp⟩) fun front back hsplit => ?_
  cases back with
  | nil => exact ⟨front ++ [c], [], by simp [hsplit], rfl, .inl rfl⟩
  | cons d back =>
      exact ⟨front, d :: (back ++ [c]), by simp [hsplit], rfl, .inr ⟨d :: back, [], by simp, by simp⟩⟩

/-- The object of a node is changed in place. -/
theorem Resumes.replace (hr : Resumes t iter rest) {i a : ℕ} {n : HashNode V} {front back : List (ℕ × HashNode V)}
    (hi : Buckets.bucket t i = front ++ (a, n) :: back) (n' : HashNode V) :
    ∃ rest', Resumes (t.set i (front ++ (a, n') :: back)) iter rest' ∧ Patched [(a, n)] [(a, n')] rest rest' := by
  have hlt : i < t.length := Buckets.lt_length_of_mem (hi ▸ List.mem_append_right front List.mem_cons_self)
  refine hr.set hlt (.inr ⟨front, back, hi, rfl⟩) fun front₁ back₁ hsplit => ?_
  rw [hi] at hsplit
  rcases List.append_eq_append_iff.mp hsplit with ⟨u, hfront, hback⟩ | ⟨u, hfront, hback⟩
  · cases u with
    | nil =>
        rw [List.nil_append] at hback
        rw [← hback]
        exact ⟨front, (a, n') :: back, rfl, rfl, .inr ⟨[], back, rfl, rfl⟩⟩
    | cons d u =>
        obtain ⟨rfl, rfl⟩ := List.cons.inj hback
        exact ⟨front ++ (a, n') :: u, back₁, by simp, rfl, .inl rfl⟩
  · rw [hback, hfront]
    refine ⟨front₁, u ++ (a, n') :: back, by simp, ?_, .inr ⟨u, back, rfl, rfl⟩⟩
    cases u <;> rfl

/-! ### The loop -/

/-- The map after the rounds from `round` on, in which the bindings of the list are visited. -/
def eraseRounds (del : ℕ → Bool) : ℕ → List (HashNode V) → StringMap V → StringMap V
  | _, [], m => m
  | round, n :: l, m => eraseRounds del (round + 1) l (if del round then m.erase n.key else m)

theorem iterateLoop_spec (del : ℕ → Bool) {fuel : ℕ} (round : ℕ) (hh : h.Holds t m) (hs : Stands t iter c rest)
    (hfuel : rest.length < fuel) : ∃ h' t', iterateLoop del fuel round h (some c.2, iter) =
      some ((c :: rest).map Prod.snd, h') ∧ h'.Holds t' (eraseRounds del round ((c :: rest).map Prod.snd) m) := by
  induction fuel generalizing h t m iter c rest round with
  | zero => cases hfuel
  | succ fuel ih =>
      -- the round may delete the binding, and then goes on to the next one
      obtain ⟨h₁, t₁, hbody, hh₁, hr₁⟩ : ∃ h₁ t₁, h.body (del round) c.2 = some h₁ ∧
          h₁.Holds t₁ (if del round then m.erase c.2.key else m) ∧ Resumes t₁ iter rest := by
        rw [body]
        by_cases hdel : del round = true
        · obtain ⟨h', t', hdelete, hh', hr', -⟩ := hs.delete hh
          refine ⟨h', t', ?_, ?_, hr'⟩
          · rw [if_pos hdel, hdelete, Option.map_some]
          · rwa [if_pos hdel]
        · exact ⟨h, t, if_neg hdel, by rwa [if_neg hdel], hs.resumes⟩
      rw [iterateLoop, hbody]
      obtain ⟨rfl, iter', hnext⟩ | ⟨c', rest', iter', rfl, hnext, hs'⟩ := nextiter_spec hh₁.lays hr₁
      · refine ⟨h₁, t₁, ?_, hh₁⟩
        rw [Option.bind_eq_bind, Option.bind_some, hnext, Option.bind_eq_bind, Option.bind_some]
        cases fuel <;> rfl
      · have hfuel' : rest'.length < fuel := by simpa using hfuel
        obtain ⟨h', t', hloop, hh'⟩ := ih (round + 1) hh₁ hs' hfuel'
        refine ⟨h', t', ?_, hh'⟩
        rw [Option.bind_eq_bind, Option.bind_some, hnext, Option.bind_eq_bind, Option.bind_some, hloop]
        rfl

theorem lookup_eraseRounds (del : ℕ → Bool) {l : List (HashNode V)} {round : ℕ} {k : List Byte}
    (hk : ∀ n ∈ l, n.key ≠ k) : (eraseRounds del round l m).lookup k = m.lookup k := by
  induction l generalizing round m with
  | nil => rfl
  | cons n l ih =>
      obtain ⟨hn, hrest⟩ := List.forall_mem_cons.mp hk
      rw [eraseRounds, ih hrest]
      split
      · exact Finmap.lookup_erase_ne (Ne.symm hn)
      · rfl

theorem eraseRounds_visited (del : ℕ → Bool) {l : List (HashNode V)} {round i : ℕ} {n : HashNode V}
    (hnodup : (l.map HashNode.key).Nodup) (hn : l[i]? = some n) : (eraseRounds del round l m).lookup n.key =
      if del (round + i) then none else m.lookup n.key := by
  induction l generalizing round i m with
  | nil => cases hn
  | cons n' l ih =>
      obtain ⟨hnew, hnodup⟩ := List.nodup_cons.mp hnodup
      cases i with
      | zero =>
          obtain rfl := Option.some.inj hn
          have hother : ∀ n'' ∈ l, n''.key ≠ n'.key := by
            intro n'' hmem heq
            exact hnew (heq ▸ List.mem_map_of_mem hmem)
          rw [eraseRounds, lookup_eraseRounds del hother, Nat.add_zero]
          split
          · exact Finmap.lookup_erase _ _
          · rfl
      | succ i =>
          have hmem : n ∈ l := List.mem_of_getElem? hn
          have hne : n.key ≠ n'.key := by
            intro heq
            exact hnew (heq ▸ List.mem_map_of_mem hmem)
          rw [eraseRounds, ih hnodup hn, Nat.add_right_comm, Nat.add_assoc]
          split
          · rfl
          · split
            · exact Finmap.lookup_erase_ne hne
            · rfl

/-- Whatever bindings the body deletes, each binding there was at the start is visited once, no node
that is freed is read, and the bindings that are left are those that were not deleted. -/
theorem iterate_deleting (hv : h.Valid m) (del : ℕ → Bool) {fuel : ℕ} (hfuel : h.nitems ≤ fuel) :
    ∃ visited h' m', h.iterate del fuel = some (visited, h') ∧ Binds visited m ∧ h'.Valid m' ∧
      (∀ i n, visited[i]? = some n → m'.lookup n.key = if del i then none else some n.object) ∧
      ∀ k, k ∉ m.keys → k ∉ m'.keys := by
  obtain ⟨t, hh⟩ := hv
  have hcount := hh.represents.nitems_eq
  have hbinds := hh.represents.binds
  rw [nodes_plain] at hcount hbinds
  have hleft : ∀ k, k ∉ m.keys → k ∉ (eraseRounds del 0 (t.flatten.map Prod.snd) m).keys := by
    intro k hk
    have hother : ∀ n ∈ t.flatten.map Prod.snd, n.key ≠ k := by
      intro n hn hkey
      exact hk (hbinds.mem_keys_iff.mpr ⟨n, hn, hkey⟩)
    rw [Finmap.mem_keys, ← Finmap.lookup_isSome, lookup_eraseRounds del hother, Finmap.lookup_isSome, ← Finmap.mem_keys]
    exact hk
  refine ⟨t.flatten.map Prod.snd, ?_⟩
  obtain ⟨hempty, iter, hfirst⟩ | ⟨c, rest, iter, hnodes, hfirst, hs⟩ := firstiter_spec hh.lays
  · rw [hempty] at hbinds hleft ⊢
    refine ⟨h, m, ?_, hbinds, ⟨t, hh⟩, nofun, fun k hk => hk⟩
    rw [iterate, hfirst]
    cases fuel <;> rfl
  · have hrest : rest.length < fuel := by
      rw [hnodes, List.length_map, List.length_cons] at hcount
      have hitems : h.nitems = rest.length + 1 := hcount
      omega
    obtain ⟨h', t', hloop, hh'⟩ := iterateLoop_spec del 0 hh hs hrest
    rw [← hnodes] at hloop hh'
    refine ⟨h', _, ?_, hbinds, ⟨t', hh'⟩, fun i n hn => ?_, hleft⟩
    · rw [iterate, hfirst]
      exact hloop
    · have hlook := (hbinds.mem_iff n.key n.object).mp (List.mem_of_getElem? hn)
      rw [eraseRounds_visited del hbinds.nodup hn, Nat.zero_add, hlook]

/-- A table with one binding. -/
def oneBinding : LinkedHash ℕ := ((new : LinkedHash ℕ).setattr (lit "k") 1 0).elim new Prod.snd

theorem iterate_deleting_oneBinding : ∃ visited h', oneBinding.iterate (fun _ => true) 1 = some (visited, h') ∧
    Binds visited (Finmap.insert (lit "k") 1 ∅) := by
  have hvalid : oneBinding.Valid (Finmap.insert (lit "k") 1 ∅) := by
    have hfresh : (new : LinkedHash ℕ).heap 0 = none := rfl
    obtain ⟨r, h', hset, hv⟩ := (valid_new ℕ).setattr (lit "k") 1 hfresh
    rwa [oneBinding, hset]
  have hcount : oneBinding.nitems ≤ 1 := by decide +kernel
  obtain ⟨visited, h', -, hiterate, hbinds, -⟩ := iterate_deleting hvalid (fun _ => true) hcount
  exact ⟨visited, h', hiterate, hbinds⟩

end LinkedHash

end Swig.DOH
