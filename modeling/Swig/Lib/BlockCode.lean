import Mathlib.Data.List.Basic
import Mathlib.Tactic.Common

/-!
Generated code as a list of lines: blocks under a test, calls that return from
the function, and jumps to a label further down.

The lines are run as they stand, with the closing braces matched on the way.
-/

namespace BlockCode

/-- `enter t` is `if (t) {`, `leave` is `}`, `orElse t l` is `if (!t) goto l;`. -/
inductive Line (T K : Type*)
  | enter (t : T)
  | leave
  | call (k : K)
  | orElse (t : T) (l : ℕ)
  | label (l : ℕ)
  deriving DecidableEq

/-- Whether the lines are executed, or passed over up to the end of a block
with `depth` blocks inside, or up to a label. -/
inductive Mode
  | running
  | skipping (depth : ℕ)
  | seeking (l : ℕ)
  deriving DecidableEq

variable {T K : Type*}

/-- The call the lines make, if they make one. -/
def exec (holds : T → Bool) : Mode → List (Line T K) → Option K
  | _, [] => none
  | .running, .enter t :: r => exec holds (if holds t then .running else .skipping 0) r
  | .running, .leave :: r => exec holds .running r
  | .running, .call k :: _ => some k
  | .running, .orElse t l :: r => exec holds (if holds t then .running else .seeking l) r
  | .running, .label _ :: r => exec holds .running r
  | .skipping d, .enter _ :: r => exec holds (.skipping (d + 1)) r
  | .skipping 0, .leave :: r => exec holds .running r
  | .skipping (d + 1), .leave :: r => exec holds (.skipping d) r
  | .skipping d, .call _ :: r => exec holds (.skipping d) r
  | .skipping d, .orElse _ _ :: r => exec holds (.skipping d) r
  | .skipping d, .label _ :: r => exec holds (.skipping d) r
  | .seeking l, .label m :: r => exec holds (if m = l then .running else .seeking l) r
  | .seeking l, .enter _ :: r => exec holds (.seeking l) r
  | .seeking l, .leave :: r => exec holds (.seeking l) r
  | .seeking l, .call _ :: r => exec holds (.seeking l) r
  | .seeking l, .orElse _ _ :: r => exec holds (.seeking l) r

variable {holds : T → Bool} {r a b : List (Line T K)} {t : T} {l n m d : ℕ}

/-! ### Running -/

@[simp] theorem exec_nil (mode : Mode) : exec (K := K) holds mode [] = none := by
  cases mode <;> rfl

@[simp] theorem exec_call (k : K) : exec holds .running (.call k :: r) = some k := rfl

@[simp] theorem exec_leave : exec holds .running (.leave :: r) = exec holds .running r := rfl

@[simp] theorem exec_label : exec holds .running (.label l :: r) = exec holds .running r := rfl

theorem exec_enter_true (h : holds t = true) :
    exec holds .running (.enter t :: r) = exec holds .running r := by
  simp [exec, h]

theorem exec_enter_false (h : holds t = false) :
    exec holds .running (.enter t :: r) = exec holds (.skipping 0) r := by
  simp [exec, h]

theorem exec_orElse_true (h : holds t = true) :
    exec holds .running (.orElse t l :: r) = exec holds .running r := by
  simp [exec, h]

theorem exec_orElse_false (h : holds t = false) :
    exec holds .running (.orElse t l :: r) = exec holds (.seeking l) r := by
  simp [exec, h]

/-! ### Passing over lines -/

/-- The lines open `n` blocks more than they close, and close none they did not
open. -/
def Opens (n : ℕ) (b : List (Line T K)) : Prop :=
  ∀ (holds : T → Bool) (d : ℕ) (r : List (Line T K)),
    exec holds (.skipping d) (b ++ r) = exec holds (.skipping (d + n)) r

theorem opens_nil : Opens 0 ([] : List (Line T K)) := fun _ _ _ => rfl

theorem opens_enter (t : T) : Opens 1 [(.enter t : Line T K)] := fun _ _ _ => rfl

theorem opens_call (k : K) : Opens 0 [(.call k : Line T K)] := fun _ d _ => by cases d <;> rfl

theorem opens_orElse (t : T) (l : ℕ) : Opens 0 [(.orElse t l : Line T K)] :=
  fun _ d _ => by cases d <;> rfl

theorem Opens.append (ha : Opens n a) (hb : Opens m b) : Opens (n + m) (a ++ b) := by
  intro holds d r
  rw [List.append_assoc, ha, hb, Nat.add_assoc]

/-- A block that is not entered. -/
theorem exec_skip_block (hb : Opens 0 b) :
    exec holds (.skipping 0) (b ++ .leave :: r) = exec holds .running r := by
  rw [hb]
  rfl

theorem exec_skip_leaves :
    exec holds (.skipping (d + n)) (List.replicate n .leave ++ r) = exec holds (.skipping d) r := by
  induction n with
  | zero => rfl
  | succ n ih => exact ih

theorem exec_leaves :
    exec holds .running (List.replicate n .leave ++ r) = exec holds .running r := by
  induction n with
  | zero => rfl
  | succ n ih => exact ih

/-- The lines with `n` closing braces behind them. -/
theorem Opens.closed (hb : Opens n b) : Opens 0 (b ++ List.replicate n .leave) := by
  intro holds d r
  rw [List.append_assoc, hb, exec_skip_leaves, Nat.add_zero]

/-- The lines stand before the label. -/
def Before (l : ℕ) (b : List (Line T K)) : Prop := ∀ line ∈ b, line ≠ .label l

theorem exec_seek (hb : Before l b) : exec holds (.seeking l) (b ++ r) = exec holds (.seeking l) r := by
  induction b with
  | nil => rfl
  | cons line b ih =>
      have hrest := ih fun x hx => hb x (List.mem_cons_of_mem _ hx)
      cases line with
      | label m =>
          have hne : m ≠ l := fun h => hb (.label m) List.mem_cons_self (by rw [h])
          simpa [exec, hne] using hrest
      | enter t => exact hrest
      | leave => exact hrest
      | call k => exact hrest
      | orElse t l => exact hrest

theorem exec_seek_label : exec holds (.seeking l) (.label l :: r) = exec holds .running r := by
  simp [exec]

end BlockCode
