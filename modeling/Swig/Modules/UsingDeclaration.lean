import Swig.Modules.CleanOverloaded
import Swig.Symbol.Overloads
import Mathlib.Data.List.Range

/-!
`TypePass::usingDeclaration` (`typepass.cxx`) for the methods of a base class: copies of them
take the place of the `using` declaration among the overloaded methods.
-/

namespace Swig.TypePass

open DoublyLinked Fuel

/-- The nodes of the tree; those from `fresh` on are new. -/
structure Tree extends Nodes ℕ where
  sym : SymbolTable ℕ
  firstChild : ℕ → Option ℕ
  fresh : ℕ

namespace Tree

section Functions

variable (m : DirectorMode) (t : Tree)

/-- `copyNode`: the attributes that are texts. -/
def copyNode (c : ℕ) : Tree where
  node := Function.update t.node t.fresh (t.node c)
  parentNode := Function.update t.parentNode t.fresh none
  sym :=
    { table := t.sym.table
      symtab := Function.update t.sym.symtab t.fresh false
      name := Function.update t.sym.name t.fresh (t.sym.name c)
      overname := Function.update t.sym.overname t.fresh (t.sym.overname c)
      nextSibling := Function.update t.sym.nextSibling t.fresh none
      previousSibling := Function.update t.sym.previousSibling t.fresh none
      overloaded := Function.update t.sym.overloaded t.fresh none }
  firstChild := Function.update t.firstChild t.fresh none
  fresh := t.fresh + 1

/-- A method that can be had from the base class under the name. -/
def candidate (symname : SymName) (c : ℕ) : Bool :=
  (t.node c).nodeType = "cdecl" &&
    !((t.node c).storage = some "static" || (t.node c).storage = some "typedef" ||
      (t.node c).storage = some "friend" || (t.node c).extend.isSome && !(t.node c).code || flag (t.node c).ignore) &&
    (t.sym.name c).all (· = symname)

/-- Whether a node of the chain has the declarator: the method is overridden. -/
def declared (decl : Option (List Byte)) : ℕ → Option ℕ → Option Bool
  | _, none => some false
  | 0, some _ => none
  | fuel + 1, some o =>
      if decl = (t.node o).decl then some true else declared decl fuel (t.sym.nextSibling o)

/-- The attributes of the copy of a method; the declaration `n` may be in an extension. -/
def methodNode (n c : ℕ) : Node :=
  { t.node c with access := none, code := (t.node c).code || (t.node n).extend.isSome }

def copyMethod (n : ℕ) (symname : SymName) (c : ℕ) : Tree :=
  let nn := t.fresh
  let nd := t.methodNode n c
  let t := t.copyNode c
  { t with
    node := Function.update t.node nn nd
    sym := { t.sym with name := Function.update t.sym.name nn (some ((t.sym.name nn).getD symname)) } }

/-- The copy `nn` behind the copies from `unodes` to `last`. -/
def appendCopy (st : SymbolTable ℕ) (unodes last nn : ℕ) : SymbolTable ℕ :=
  let st := (st.setPreviousSibling nn (some last)).setNextSibling last (some nn)
  (st.setOverloaded nn (some unodes)).setOverloaded unodes (some unodes)

/-- A copy of the method, behind the copies made before: the first and the last of them. -/
def addMethod (n : ℕ) (symname : SymName) (unodes : Option (ℕ × ℕ)) (c : ℕ) : Tree × ℕ × ℕ :=
  let nn := t.fresh
  let t := t.copyMethod n symname c
  match unodes with
  | none => (t, nn, nn)
  | some (unodes, last) => ({ t with sym := appendCopy t.sym unodes last nn }, unodes, nn)

/-- The methods `c`, which the base class has under the name: the copies and their number. -/
def addMethods (n : ℕ) (symname : SymName) (fuel : ℕ) :
    List ℕ → Tree → Option (ℕ × ℕ) → ℕ → Option (Tree × Option (ℕ × ℕ) × ℕ)
  | [], t, unodes, ccount => some (t, unodes, ccount)
  | c :: cs, t, unodes, ccount =>
      if t.candidate symname c then
        (t.declared (t.node c).decl fuel (t.sym.overloaded n)).bind fun matched =>
          if matched then addMethods n symname fuel cs t unodes ccount
          else
            let (t, unodes) := t.addMethod n symname unodes c
            addMethods n symname fuel cs t (some unodes) (ccount + 1)
      else addMethods n symname fuel cs t unodes ccount

end Functions

end Tree

/-- The nodes from `nnn` on get another first node. -/
def setFirst (firstoverloaded : ℕ) : ℕ → SymbolTable ℕ → Option ℕ → Option (SymbolTable ℕ)
  | _, st, none => some st
  | 0, _, some _ => none
  | fuel + 1, st, some nnn =>
      let st := st.setOverloaded nnn (some firstoverloaded)
      setFirst firstoverloaded fuel st (st.nextSibling nnn)

/-- `%s_%d`. -/
def copyOvername (overname : String) (cnt : ℕ) : String := overname ++ "_" ++ toString cnt

/-- The copies from `pp` on, with their overnames; the last of them. -/
def placeCopies (firstoverloaded : ℕ) (overname : String) : ℕ → SymbolTable ℕ → ℕ → ℕ → Option (SymbolTable ℕ × ℕ)
  | 0, _, _, _ => none
  | fuel + 1, st, pp, cnt =>
      let ppn := st.nextSibling pp
      let st := (st.setOverloaded pp (some firstoverloaded)).setOvername pp (some (copyOvername overname cnt))
      match ppn with
      | some ppn => placeCopies firstoverloaded overname fuel st ppn (cnt + 1)
      | none => some (st, pp)

/-- The copies are linked with the siblings of `n`. -/
def linkCopies (st : SymbolTable ℕ) (n fc pp : ℕ) : SymbolTable ℕ :=
  let ps := st.previousSibling n
  let ns := st.nextSibling n
  let st := match ps with
    | some ps => (st.setNextSibling ps (some fc)).setPreviousSibling fc (some ps)
    | none => st
  match ns with
  | some ns => (st.setPreviousSibling ns (some pp)).setNextSibling pp (some ns)
  | none => st

/-- The copies from `fc` on take the place of `n`. -/
def spliceIn (fuel : ℕ) (st : SymbolTable ℕ) (n fc firstoverloaded : ℕ) : Option (SymbolTable ℕ) :=
  (if firstoverloaded = n then
    -- `n` was the first: the rest of the chain gets to know the first copy
    let st := st.setOverloaded n none
    (setFirst fc fuel st (st.nextSibling n)).map fun st => (st, fc)
  else some (st, firstoverloaded)).bind fun (st, firstoverloaded) =>
    (placeCopies firstoverloaded ((st.overname n).getD "") fuel st fc 0).map fun (st, pp) => linkCopies st n fc pp

/-- The copies, if there are any, take the place of `n`. -/
def leaveChain (fuel : ℕ) (st : SymbolTable ℕ) (n firstoverloaded : ℕ) : Option ℕ → Option (SymbolTable ℕ)
  | none => some (cutOut st n)
  | some fc => spliceIn fuel st n fc firstoverloaded

/-- The attributes that are deleted from a declaration when it has left the chain. -/
def unchain (st : SymbolTable ℕ) (n : ℕ) : SymbolTable ℕ :=
  (((st.setPreviousSibling n none).setNextSibling n none).setOverloaded n none).setOvername n none

namespace Tree

variable (m : DirectorMode) (t : Tree)

/-- The chain without the declaration `n`. -/
def replaceUsing (fuel : ℕ) (n : ℕ) : Option Tree :=
  match t.sym.overloaded n with
  | none => some t
  | some firstoverloaded =>
      (leaveChain fuel t.sym n firstoverloaded (t.firstChild n)).bind fun st =>
        (clean_overloaded m t.toNodes fuel (unchain st n) n).map fun st => { t with sym := st }

/-- The copies become children of the declaration, which is overloaded with several. -/
def adopt (n : ℕ) (unodes : Option (ℕ × ℕ)) (ccount : ℕ) : Tree :=
  match unodes with
  | none => t
  | some (unodes, _) =>
      let t := { t with firstChild := Function.update t.firstChild n (some unodes) }
      if 1 < ccount ∧ t.sym.overloaded n = none then
        { t with sym := (t.sym.setOverloaded n (some n)).setOvername n (some "_SWIG_0") }
      else t

/-- `ns` are the symbols that the declared name is looked up as; other than for a method of a
class nothing happens to a chain. -/
def usingDeclaration (inclass : Bool) (fuel : ℕ) (n : ℕ) (ns : List ℕ) : Option Tree :=
  match ns with
  | [] => some t
  | c :: _ =>
      if (t.node c).nodeType = "cdecl" then
        if (t.node c).storage = some "typedef" then some t
        else
          match t.sym.name n with
          | none => some t
          | some symname =>
              if inclass && !flag (t.node n).ignore then
                (addMethods n symname fuel ns t none 0).bind fun (t, unodes, ccount) =>
                  (t.adopt n unodes ccount).replaceUsing m fuel n
              else some t
      else some t

/-! ### The copies -/

variable {m t} {t₀ : Tree} {n : ℕ} {symname : SymName} {ms cs xs : List ℕ}

theorem declared_eq {decl : Option (List Byte)} {p h q : Option ℕ} {fuel : ℕ}
    (hs : Seg t.sym.nextSibling t.sym.previousSibling p h xs q none) (hfuel : xs.length ≤ fuel) :
    t.declared decl fuel h = some (xs.any fun x => decl = (t.node x).decl) := by
  induction xs generalizing p h fuel with
  | nil =>
      obtain ⟨-, rfl⟩ := hs
      cases fuel <;> rfl
  | cons x xs ih =>
      obtain ⟨fuel, rfl⟩ := Nat.exists_eq_add_of_le' (Nat.one_le_of_lt hfuel)
      obtain ⟨rfl, -, hs⟩ := hs
      rw [declared, ih hs (by simpa using hfuel), List.any_cons]
      split
      · simp [*]
      · simp [*]

/-- The copies of `k` methods. -/
def copies (t₀ : Tree) (k : ℕ) : List ℕ := List.range' t₀.fresh k

theorem copies_succ (t₀ : Tree) (k : ℕ) : t₀.copies (k + 1) = t₀.copies k ++ [t₀.fresh + k] := by
  rw [copies, List.range'_concat, Nat.one_mul, copies]

theorem mem_copies {k x : ℕ} : x ∈ t₀.copies k ↔ t₀.fresh ≤ x ∧ x < t₀.fresh + k := List.mem_range'_1

theorem nodup_copies (t₀ : Tree) (k : ℕ) : (t₀.copies k).Nodup := List.nodup_range'

/-- The first and the last copy. -/
def ends (t₀ : Tree) : ℕ → Option (ℕ × ℕ)
  | 0 => none
  | k + 1 => some (t₀.fresh, t₀.fresh + k)

/-- After the methods `ms` have been copied. -/
structure Copied (t₀ : Tree) (n : ℕ) (symname : SymName) (ms : List ℕ) (t : Tree) : Prop where
  fresh : t.fresh = t₀.fresh + ms.length
  node : ∀ x < t₀.fresh, t.node x = t₀.node x ∧ t.sym.name x = t₀.sym.name x ∧ t.firstChild x = t₀.firstChild x
  sym : ∀ x < t₀.fresh, t.sym.nextSibling x = t₀.sym.nextSibling x ∧
    t.sym.previousSibling x = t₀.sym.previousSibling x ∧ t.sym.overloaded x = t₀.sym.overloaded x ∧
    t.sym.overname x = t₀.sym.overname x
  copy : ∀ i c, ms[i]? = some c → t.node (t₀.fresh + i) = t₀.methodNode n c ∧
    t.sym.name (t₀.fresh + i) = some ((t₀.sym.name c).getD symname)
  list : IsList t.sym.nextSibling t.sym.previousSibling (t₀.copies ms.length).head? (t₀.copies ms.length)
  alone : ms.length ≤ 1 → ∀ x ∈ t₀.copies ms.length, t.sym.overloaded x = none

theorem Copied.refl (t₀ : Tree) (n : ℕ) (symname : SymName) : Copied t₀ n symname [] t₀ where
  fresh := rfl
  node _ _ := ⟨rfl, rfl, rfl⟩
  sym _ _ := ⟨rfl, rfl, rfl, rfl⟩
  copy _ _ h := by simp at h
  list := .nil
  alone _ _ h := by simp [copies] at h

/-- The pointers of a list with a new cell behind the last. -/
theorem isList_concat {nextSibling previousSibling : ℕ → Option ℕ} {ks : List ℕ} {last nn : ℕ}
    (hl : IsList nextSibling previousSibling (ks ++ [last]).head? (ks ++ [last])) (hnn : nn ∉ ks ++ [last]) :
    IsList (Function.update (Function.update nextSibling nn none) last (some nn))
      (Function.update (Function.update previousSibling nn none) nn (some last)) (ks ++ [last] ++ [nn]).head?
      (ks ++ [last] ++ [nn]) := by
  have hnodup : (ks ++ [last] ++ [nn]).Nodup := by
    refine List.nodup_append.mpr ⟨hl.nodup, List.nodup_singleton nn, ?_⟩
    rintro x hx y hy rfl
    exact hnn (List.mem_singleton.mp hy ▸ hx)
  obtain ⟨q, hseg⟩ := hl.seg
  have hseg' : Seg (Function.update nextSibling nn none) (Function.update previousSibling nn none) none
      (ks ++ [last]).head? (ks ++ [last]) q none :=
    hseg.congr (fun x hx => Function.update_of_ne (ne_of_mem_of_not_mem hx hnn) ..)
      fun x hx => Function.update_of_ne (ne_of_mem_of_not_mem hx hnn) ..
  have hnew : Seg (Function.update nextSibling nn none) (Function.update previousSibling nn none) none (some nn) [nn]
      (some nn) none := ⟨rfl, Function.update_self .., rfl, Function.update_self ..⟩
  have hhead : (ks ++ [last] ++ [nn]).head? = (ks ++ [last]).head? := by cases ks <;> rfl
  rw [hhead, List.append_assoc]
  rw [List.append_assoc] at hnodup
  exact ⟨⟨_, hseg'.join hnew hnodup (Function.update_self ..) (Function.update_self ..)
    (fun x hx => Function.update_of_ne hx ..) fun x hx => Function.update_of_ne hx ..⟩, hnodup⟩

theorem copyMethod_self (t : Tree) (n : ℕ) (symname : SymName) (c : ℕ) :
    (t.copyMethod n symname c).node t.fresh = t.methodNode n c ∧
      (t.copyMethod n symname c).sym.name t.fresh = some ((t.sym.name c).getD symname) ∧
      (t.copyMethod n symname c).sym.overloaded t.fresh = none := by
  refine ⟨Function.update_self .., ?_, Function.update_self ..⟩
  refine (Function.update_self ..).trans ?_
  rw [show (t.copyNode c).sym.name t.fresh = t.sym.name c from Function.update_self ..]

theorem copyMethod_of_ne (t : Tree) (n : ℕ) (symname : SymName) (c : ℕ) {x : ℕ} (hx : x ≠ t.fresh) :
    (t.copyMethod n symname c).node x = t.node x ∧ (t.copyMethod n symname c).sym.name x = t.sym.name x ∧
      (t.copyMethod n symname c).firstChild x = t.firstChild x ∧
      (t.copyMethod n symname c).sym.nextSibling x = t.sym.nextSibling x ∧
      (t.copyMethod n symname c).sym.previousSibling x = t.sym.previousSibling x ∧
      (t.copyMethod n symname c).sym.overloaded x = t.sym.overloaded x ∧
      (t.copyMethod n symname c).sym.overname x = t.sym.overname x :=
  ⟨(Function.update_of_ne hx ..).trans (Function.update_of_ne hx ..),
    (Function.update_of_ne hx ..).trans (Function.update_of_ne hx ..), Function.update_of_ne hx ..,
    Function.update_of_ne hx .., Function.update_of_ne hx .., Function.update_of_ne hx ..,
    Function.update_of_ne hx ..⟩

/-- The nodes and their names, when only the pointers change from there. -/
theorem Copied.node_copyMethod (h : Copied t₀ n symname ms t) {c : ℕ} (hc : c < t₀.fresh) (hn : n < t₀.fresh)
    {i c' : ℕ} (hi : (ms ++ [c])[i]? = some c') :
    (t.copyMethod n symname c).node (t₀.fresh + i) = t₀.methodNode n c' ∧
      (t.copyMethod n symname c).sym.name (t₀.fresh + i) = some ((t₀.sym.name c').getD symname) := by
  rcases Nat.lt_or_ge i ms.length with hlt | hge
  · rw [List.getElem?_append_left hlt] at hi
    have hne : t₀.fresh + i ≠ t.fresh := by
      rw [h.fresh]
      omega
    obtain ⟨hnode, hname, -⟩ := copyMethod_of_ne t n symname c hne
    rw [hnode, hname]
    exact h.copy i c' hi
  · rw [List.getElem?_append_right hge, List.getElem?_singleton] at hi
    split at hi
    · obtain rfl := Option.some.inj hi
      rw [show t₀.fresh + i = t.fresh by rw [h.fresh]; omega]
      obtain ⟨hnode, hname, -⟩ := copyMethod_self t n symname c
      rw [hnode, hname, methodNode, methodNode, (h.node c hc).1, (h.node n hn).1, (h.node c hc).2.1]
      exact ⟨rfl, rfl⟩
    · cases hi

/-- One more method. -/
theorem Copied.addMethod (h : Copied t₀ n symname ms t) {c : ℕ} (hc : c < t₀.fresh) (hn : n < t₀.fresh) :
    ∃ t', t.addMethod n symname (t₀.ends ms.length) c = (t', t₀.fresh, t₀.fresh + ms.length) ∧
      Copied t₀ n symname (ms ++ [c]) t' := by
  have hlen : (ms ++ [c]).length = ms.length + 1 := List.length_append
  have hfresh : (t.copyMethod n symname c).fresh = t₀.fresh + (ms ++ [c]).length := by
    rw [hlen, ← Nat.add_assoc, ← h.fresh]
    rfl
  have hold (x : ℕ) (hx : x < t₀.fresh) : x ≠ t.fresh := by
    rw [h.fresh]
    omega
  have hnode (x : ℕ) (hx : x < t₀.fresh) : (t.copyMethod n symname c).node x = t₀.node x ∧
      (t.copyMethod n symname c).sym.name x = t₀.sym.name x ∧
      (t.copyMethod n symname c).firstChild x = t₀.firstChild x := by
    obtain ⟨h₁, h₂, h₃, -⟩ := copyMethod_of_ne t n symname c (hold x hx)
    rw [h₁, h₂, h₃]
    exact h.node x hx
  rcases hk : ms.length with _ | k
  · -- the first copy
    have hcopies : t₀.copies (ms ++ [c]).length = [t.fresh] := by
      rw [hlen, hk, copies, h.fresh, hk]
      rfl
    refine ⟨_, by rw [ends, Tree.addMethod, h.fresh, hk]; rfl, hfresh, hnode, fun x hx => ?_,
      fun i c' hi => h.node_copyMethod hc hn hi, ?_, fun _ x hx => ?_⟩
    · obtain ⟨-, -, -, hsym⟩ := copyMethod_of_ne t n symname c (hold x hx)
      obtain ⟨h₁, h₂, h₃, h₄⟩ := h.sym x hx
      exact ⟨hsym.1.trans h₁, hsym.2.1.trans h₂, hsym.2.2.1.trans h₃, hsym.2.2.2.trans h₄⟩
    · rw [hcopies]
      exact ⟨⟨_, rfl, Function.update_self .., rfl, Function.update_self ..⟩, List.nodup_singleton _⟩
    · rw [hcopies, List.mem_singleton] at hx
      rw [hx]
      exact (copyMethod_self t n symname c).2.2
  · have hcopies : t₀.copies (ms ++ [c]).length = t₀.copies k ++ [t₀.fresh + k] ++ [t.fresh] := by
      rw [hlen, hk, copies_succ, copies_succ, h.fresh, hk]
    have hlist := h.list
    rw [hk, copies_succ] at hlist
    have hnew : t.fresh ∉ t₀.copies k ++ [t₀.fresh + k] := by
      rw [← copies_succ, mem_copies, h.fresh, hk]
      omega
    refine ⟨{ t.copyMethod n symname c with
        sym := appendCopy (t.copyMethod n symname c).sym t₀.fresh (t₀.fresh + k) t.fresh },
      by rw [ends, Tree.addMethod, ← hk, ← h.fresh], hfresh, hnode, fun x hx => ?_,
      fun i c' hi => h.node_copyMethod hc hn hi, ?_, fun hle => absurd hle (by omega)⟩
    · obtain ⟨-, -, -, hsym⟩ := copyMethod_of_ne t n symname c (hold x hx)
      obtain ⟨h₁, h₂, h₃, h₄⟩ := h.sym x hx
      refine ⟨Eq.trans (Function.update_of_ne (by omega) ..) (hsym.1.trans h₁),
        Eq.trans (Function.update_of_ne (hold x hx) ..) (hsym.2.1.trans h₂), ?_, hsym.2.2.2.trans h₄⟩
      refine Eq.trans (Function.update_of_ne (by omega) ..) ?_
      exact Eq.trans (Function.update_of_ne (hold x hx) ..) (hsym.2.2.1.trans h₃)
    · rw [hcopies]
      exact isList_concat hlist hnew

/-- The methods that are copied, where `vs` are the overloaded nodes. -/
def taken (t₀ : Tree) (symname : SymName) (vs : List ℕ) (c : ℕ) : Bool :=
  t₀.candidate symname c && !vs.any fun x => (t₀.node c).decl = (t₀.node x).decl

theorem Copied.candidate_eq (h : Copied t₀ n symname ms t) {c : ℕ} (hc : c < t₀.fresh) :
    t.candidate symname c = t₀.candidate symname c := by
  rw [candidate, candidate, (h.node c hc).1, (h.node c hc).2.1]

theorem Copied.declared_eq (h : Copied t₀ n symname ms t) {vs : List ℕ} (hn : n < t₀.fresh)
    (hvs : ∀ x ∈ vs, x < t₀.fresh) (hl : IsList t₀.sym.nextSibling t₀.sym.previousSibling (t₀.sym.overloaded n) vs)
    {c fuel : ℕ} (hc : c < t₀.fresh) (hfuel : vs.length ≤ fuel) :
    t.declared (t.node c).decl fuel (t.sym.overloaded n) =
      some (vs.any fun x => (t₀.node c).decl = (t₀.node x).decl) := by
  have hl' := hl.congr (fun x hx => (h.sym x (hvs x hx)).1) fun x hx => (h.sym x (hvs x hx)).2.1
  obtain ⟨q, hseg⟩ := hl'.seg
  rw [(h.sym n hn).2.2.1, Tree.declared_eq hseg hfuel, (h.node c hc).1]
  congr 1
  rw [Bool.eq_iff_iff, List.any_eq_true, List.any_eq_true]
  constructor
  · rintro ⟨x, hx, heq⟩
    exact ⟨x, hx, by rwa [(h.node x (hvs x hx)).1] at heq⟩
  · rintro ⟨x, hx, heq⟩
    exact ⟨x, hx, by rwa [(h.node x (hvs x hx)).1]⟩

theorem addMethods_spec {vs : List ℕ} (h : Copied t₀ n symname ms t) (hn : n < t₀.fresh) (hcs : ∀ c ∈ cs, c < t₀.fresh)
    (hvs : ∀ x ∈ vs, x < t₀.fresh)
    (hl : IsList t₀.sym.nextSibling t₀.sym.previousSibling (t₀.sym.overloaded n) vs) :
    ∃ t', (∀ fuel, vs.length ≤ fuel → addMethods n symname fuel cs t (t₀.ends ms.length) ms.length =
        some (t', t₀.ends (ms ++ cs.filter (t₀.taken symname vs)).length,
          (ms ++ cs.filter (t₀.taken symname vs)).length)) ∧
      Copied t₀ n symname (ms ++ cs.filter (t₀.taken symname vs)) t' := by
  induction cs generalizing ms t with
  | nil =>
      rw [List.filter_nil, List.append_nil]
      exact ⟨t, fun fuel _ => rfl, h⟩
  | cons c cs ih =>
      have hc := hcs c List.mem_cons_self
      have hcs' := fun x hx => hcs x (List.mem_cons_of_mem c hx)
      by_cases htaken : t₀.taken symname vs c = true
      · obtain ⟨t₁, hadd, h₁⟩ := h.addMethod hc hn
        obtain ⟨t', hrun, h'⟩ := ih h₁ hcs'
        rw [List.filter_cons_of_pos htaken, List.append_cons]
        refine ⟨t', fun fuel hfuel => ?_, h'⟩
        rw [taken, Bool.and_eq_true, Bool.not_eq_true'] at htaken
        rw [addMethods, if_pos ((h.candidate_eq hc).trans htaken.1), h.declared_eq hn hvs hl hc hfuel,
          Option.bind_some, htaken.2, if_neg Bool.false_ne_true, hadd]
        have hlen : (ms ++ [c]).length = ms.length + 1 := List.length_append
        have hrun := hrun fuel hfuel
        rw [hlen] at hrun
        exact hrun
      · obtain ⟨t', hrun, h'⟩ := ih h hcs'
        rw [List.filter_cons_of_neg htaken]
        refine ⟨t', fun fuel hfuel => ?_, h'⟩
        rw [addMethods, h.candidate_eq hc]
        split
        · rename_i hcandidate
          rw [taken, hcandidate, Bool.true_and, Bool.not_eq_true', Bool.not_eq_false] at htaken
          rw [h.declared_eq hn hvs hl hc hfuel, Option.bind_some, htaken, if_pos rfl]
          exact hrun fuel hfuel
        · exact hrun fuel hfuel

end Tree

end Swig.TypePass
