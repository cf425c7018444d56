import Swig.Lib.DoublyLinked
import Swig.Lib.Fuel

/-!
The links of the parse tree (`tree.c`), and the forest they stand for.
-/

namespace Swig

open DoublyLinked Fuel

/-- The link attributes of all nodes; an attribute that is not set is `none`. -/
structure ParseTree (N : Type) where
  parentNode : N → Option N
  previousSibling : N → Option N
  nextSibling : N → Option N
  firstChild : N → Option N
  lastChild : N → Option N

namespace ParseTree

variable {N : Type} [DecidableEq N] (t : ParseTree N)

def setParentNode (x : N) (v : Option N) : ParseTree N :=
  { t with parentNode := Function.update t.parentNode x v }

def setPreviousSibling (x : N) (v : Option N) : ParseTree N :=
  { t with previousSibling := Function.update t.previousSibling x v }

def setNextSibling (x : N) (v : Option N) : ParseTree N :=
  { t with nextSibling := Function.update t.nextSibling x v }

def setFirstChild (x : N) (v : Option N) : ParseTree N :=
  { t with firstChild := Function.update t.firstChild x v }

def setLastChild (x : N) (v : Option N) : ParseTree N :=
  { t with lastChild := Function.update t.lastChild x v }

/-- The loop over `chd` and its next siblings, and the last of them. -/
def setParents (node : N) : ℕ → ParseTree N → N → Option (ParseTree N × N)
  | 0, _, _ => none
  | n + 1, t, chd =>
      let t := t.setParentNode chd (some node)
      match t.nextSibling chd with
      | none => some (t, chd)
      | some next => setParents node n t next

def appendChild (fuel : ℕ) (node : N) : Option N → Option (ParseTree N)
  | none => some t
  | some chd =>
      let t := match t.lastChild node with
        | none => t.setFirstChild node (some chd)
        | some lc => (t.setNextSibling lc (some chd)).setPreviousSibling chd (some lc)
      (setParents node fuel t chd).map fun (t, lc) => t.setLastChild node (some lc)

def prependChild (fuel : ℕ) (node : N) : Option N → Option (ParseTree N)
  | none => some t
  | some chd =>
      let t := match t.firstChild node with
        | none => t
        | some fc => (t.setNextSibling chd (some fc)).setPreviousSibling fc (some chd)
      (setParents node fuel (t.setFirstChild node (some chd)) chd).map Prod.fst

/-- The last attribute deleted is `prevSibling`, which no node has. -/
def removeNode (n : N) : ParseTree N :=
  match t.parentNode n with
  | none => t
  | some parent =>
      let prev := t.previousSibling n
      let next := t.nextSibling n
      let t := match prev with
        | some p => t.setNextSibling p next
        | none => t.setFirstChild parent next
      let t := match next with
        | some x => t.setPreviousSibling x prev
        | none => t.setLastChild parent prev
      (t.setParentNode n none).setNextSibling n none

/-- A call, of a node and the head of a chain of siblings. -/
inductive Op (N : Type)
  | append (node chd : N)
  | prepend (node chd : N)
  | remove (n : N)

def step (fuel : ℕ) : Op N → Option (ParseTree N)
  | .append node chd => t.appendChild fuel node (some chd)
  | .prepend node chd => t.prependChild fuel node (some chd)
  | .remove n => some (t.removeNode n)

end ParseTree

/-- What the links stand for: the children of every node, and the chain of
detached siblings that starts at a node, if one does. -/
structure Forest (N : Type) where
  kids : N → List N
  chain : N → List N

namespace Forest

open ParseTree

variable {N : Type} [DecidableEq N]

/-- The calls on detached chains and attached nodes. -/
inductive Step (f : Forest N) : Op N → Forest N → Prop
  | append {node chd : N} (h : f.chain chd ≠ []) : Step f (.append node chd)
      { kids := Function.update f.kids node (f.kids node ++ f.chain chd)
        chain := Function.update f.chain chd [] }
  | prepend {node chd : N} (h : f.chain chd ≠ []) : Step f (.prepend node chd)
      { kids := Function.update f.kids node (f.chain chd ++ f.kids node)
        chain := Function.update f.chain chd [] }
  | remove {p n : N} (h : n ∈ f.kids p) : Step f (.remove n)
      { kids := Function.update f.kids p ((f.kids p).erase n)
        chain := Function.update f.chain n [n] }

end Forest

namespace ParseTree

variable {N : Type}

/-- Following `nextSibling` from `firstChild` passes the children of every node and
ends at `lastChild`, and `previousSibling` goes back. -/
structure WellLinked (t : ParseTree N) (kids : N → List N) : Prop where
  children : ∀ n, Seg t.nextSibling t.previousSibling none (t.firstChild n) (kids n) (t.lastChild n) none
  nodup : ∀ n, (kids n).Nodup
  parent : ∀ n, ∀ x ∈ kids n, t.parentNode x = some n

/-- The tree is well linked and so are the detached chains, up to the
`previousSibling` of their heads. -/
structure Linked (t : ParseTree N) (f : Forest N) : Prop extends WellLinked t f.kids where
  chain : ∀ h, f.chain h ≠ [] → ∃ xs p q, f.chain h = h :: xs ∧
    Seg t.nextSibling t.previousSibling p (some h) (h :: xs) q none
  nodupChain : ∀ h, (f.chain h).Nodup
  detached : ∀ n h x, x ∈ f.kids n → x ∉ f.chain h
  disjoint : ∀ h h' x, x ∈ f.chain h → x ∈ f.chain h' → h = h'

/-- The calls that leave a well linked tree: an empty node gets no chain whose head
still has a `previousSibling`, and only a single fresh node is put in front of others. -/
def Safe (t : ParseTree N) : Op N → Prop
  | .append node chd => t.lastChild node ≠ none ∨ t.previousSibling chd = none
  | .prepend node chd =>
      t.firstChild node ≠ none ∧ t.nextSibling chd = none ∧ t.previousSibling chd = none
  | .remove _ => True

end ParseTree

end Swig
