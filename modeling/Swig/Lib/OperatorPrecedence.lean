import Mathlib.Data.List.Basic
import Mathlib.Data.Nat.Notation
import Mathlib.Algebra.GroupWithZero.Nat

/-!
Operator expressions with prefix and left-associative binary operators, and
the shift-reduce parser that groups their tokens.

A lower level binds tighter. `Respects` is the grouping the levels prescribe;
each token sequence of an expression has exactly one. The parser takes a bound
on the number of reductions it makes before it shifts a binary operator: with
enough of them it finds that grouping, and with at most `n` exactly when no
left operand has more than `n` operators open at its right edge.
-/

namespace Swig.Lib.OperatorPrecedence

variable {A P B : Type*}

inductive Expr (A P B : Type*)
  | atom (a : A)
  | group (e : Expr A P B)
  | pre (p : P) (e : Expr A P B)
  | bin (l : Expr A P B) (b : B) (r : Expr A P B)

inductive Token (A P B : Type*)
  | atom (a : A)
  | lparen
  | rparen
  | pre (p : P)
  | bin (b : B)

/-- The levels of the operators. -/
structure Levels (P B : Type*) where
  pre : P → ℕ
  bin : B → ℕ

/-- An operator whose right operand is not complete. -/
inductive Frame (A P B : Type*)
  | pre (p : P)
  | bin (l : Expr A P B) (b : B)

variable (L : Levels P B)

def Frame.level : Frame A P B → ℕ
  | .pre p => L.pre p
  | .bin _ b => L.bin b

def Frame.apply : Frame A P B → Expr A P B → Expr A P B
  | .pre p, e => .pre p e
  | .bin l b, e => .bin l b e

namespace Expr

def tokens : Expr A P B → List (Token A P B)
  | .atom a => [.atom a]
  | .group e => .lparen :: (e.tokens ++ [.rparen])
  | .pre p e => .pre p :: e.tokens
  | .bin l b r => l.tokens ++ .bin b :: r.tokens

/-- The operators open at the right edge, the innermost first. -/
def openFrames : Expr A P B → List (Frame A P B)
  | .atom _ => []
  | .group _ => []
  | .pre p e => e.openFrames ++ [.pre p]
  | .bin l b r => r.openFrames ++ [.bin l b]

/-- The operand at the right edge. -/
def lastOperand : Expr A P B → Expr A P B
  | .atom a => .atom a
  | .group e => .group e
  | .pre _ e => e.lastOperand
  | .bin _ _ r => r.lastOperand

/-- The binary operators on the left edge. -/
def leftEdge : Expr A P B → List B
  | .atom _ => []
  | .group _ => []
  | .pre _ _ => []
  | .bin l b _ => b :: l.leftEdge

/-- The grouping the levels prescribe: the operators open at the right edge of
a left operand bind at least as tight as the operator, those on the left edge
of a right operand bind tighter. -/
def Respects : Expr A P B → Prop
  | .atom _ => True
  | .group e => e.Respects
  | .pre p e => e.Respects ∧ ∀ c ∈ e.leftEdge, L.bin c < L.pre p
  | .bin l b r => l.Respects ∧ r.Respects ∧
      (∀ f ∈ l.openFrames, f.level L ≤ L.bin b) ∧ ∀ c ∈ r.leftEdge, L.bin c < L.bin b

/-- No left operand has more than `n` operators open at its right edge. -/
def LeftOpen (n : ℕ) : Expr A P B → Prop
  | .atom _ => True
  | .group e => e.LeftOpen n
  | .pre _ e => e.LeftOpen n
  | .bin l _ r => l.LeftOpen n ∧ r.LeftOpen n ∧ l.openFrames.length ≤ n

/-- The stack an expression takes: one entry for a group or a prefix operator,
two for a left operand and its operator. -/
def height : Expr A P B → ℕ
  | .atom _ => 0
  | .group e => e.height + 1
  | .pre _ e => e.height + 1
  | .bin l _ r => max l.height (r.height + 2)

/-- Complete the frames around `e`, the innermost first. -/
def close (e : Expr A P B) (fs : List (Frame A P B)) : Expr A P B :=
  fs.foldl (fun e f => f.apply e) e

@[simp]
theorem close_nil (e : Expr A P B) : e.close [] = e := rfl

@[simp]
theorem close_cons (e : Expr A P B) (f : Frame A P B) (fs : List (Frame A P B)) :
    e.close (f :: fs) = (f.apply e).close fs := rfl

theorem close_append (e : Expr A P B) (fs gs : List (Frame A P B)) :
    e.close (fs ++ gs) = (e.close fs).close gs := List.foldl_append

theorem close_openFrames (e : Expr A P B) : e.lastOperand.close e.openFrames = e := by
  induction e with
  | atom a => rfl
  | group e => rfl
  | pre p e ih => rw [lastOperand, openFrames, close_append, ih]; rfl
  | bin l b r _ ih => rw [lastOperand, openFrames, close_append, ih]; rfl

theorem LeftOpen.mono {n n' : ℕ} (h : n ≤ n') {e : Expr A P B} (he : e.LeftOpen n) :
    e.LeftOpen n' := by
  induction e with
  | atom a => trivial
  | group e ih => exact ih he
  | pre p e ih => exact ih he
  | bin l b r ihl ihr => exact ⟨ihl he.1, ihr he.2.1, Nat.le_trans he.2.2 h⟩

theorem exists_leftOpen (e : Expr A P B) : ∃ n, e.LeftOpen n := by
  induction e with
  | atom a => exact ⟨0, trivial⟩
  | group e ih => exact ih
  | pre p e ih => exact ih
  | bin l b r ihl ihr =>
      obtain ⟨nl, hl⟩ := ihl
      obtain ⟨nr, hr⟩ := ihr
      refine ⟨max (max nl nr) l.openFrames.length, hl.mono ?_, hr.mono ?_, ?_⟩ <;> omega

end Expr

/-! ### The parser -/

inductive Entry (A P B : Type*)
  | group
  | op (f : Frame A P B)

/-- The operand just read, if any, below it the open groups and operators. -/
structure State (A P B : Type*) where
  operand : Option (Expr A P B)
  stack : List (Entry A P B)

/-- Reduce at most `n` operators that bind at least as tight as `b`. -/
def reduce (b : B) : ℕ → Expr A P B → List (Entry A P B) → Expr A P B × List (Entry A P B)
  | n + 1, e, .op f :: st =>
      if f.level L ≤ L.bin b then reduce b n (f.apply e) st else (e, .op f :: st)
  | 0, e, st => (e, st)
  | _ + 1, e, .group :: st => (e, .group :: st)
  | _ + 1, e, [] => (e, [])

/-- Reduce all operators above the innermost open group. -/
def reduceAll (e : Expr A P B) : List (Entry A P B) → Expr A P B × List (Entry A P B)
  | .op f :: st => reduceAll (f.apply e) st
  | .group :: st => (e, .group :: st)
  | [] => (e, [])

variable (n : ℕ)

def step (s : State A P B) (t : Token A P B) : Option (State A P B) :=
  match s.operand, t with
  | none, .atom a => some ⟨some (.atom a), s.stack⟩
  | none, .lparen => some ⟨none, .group :: s.stack⟩
  | none, .pre p => some ⟨none, .op (.pre p) :: s.stack⟩
  | some e, .bin b =>
      let (e, st) := reduce L b n e s.stack
      some ⟨none, .op (.bin e b) :: st⟩
  | some e, .rparen =>
      match reduceAll e s.stack with
      | (e, .group :: st) => some ⟨some (.group e), st⟩
      | _ => none
  | _, _ => none

def finish (s : State A P B) : Option (Expr A P B) :=
  match s.operand with
  | some e =>
      match reduceAll e s.stack with
      | (e, []) => some e
      | _ => none
  | none => none

def run (s : State A P B) : List (Token A P B) → Option (Expr A P B)
  | [] => finish s
  | t :: ts => (step L n s t).bind fun s => run s ts

/-- The grouping the parser finds with at most `n` reductions before a shift. -/
def parse (ts : List (Token A P B)) : Option (Expr A P B) := run L n ⟨none, []⟩ ts

variable {L n}

@[simp]
theorem run_cons (s : State A P B) (t : Token A P B) (ts : List (Token A P B)) :
    run L n s (t :: ts) = (step L n s t).bind fun s => run L n s ts := rfl

/-! ### Reductions -/

theorem reduce_map_op {b : B} {k : ℕ} {fs : List (Frame A P B)} (hlen : fs.length ≤ k)
    (hlevel : ∀ f ∈ fs, f.level L ≤ L.bin b) (e : Expr A P B) (st : List (Entry A P B)) :
    reduce L b k e (fs.map .op ++ st) = reduce L b (k - fs.length) (e.close fs) st := by
  induction fs generalizing k e with
  | nil => simp
  | cons f fs ih =>
      rw [List.forall_mem_cons] at hlevel
      cases k with
      | zero => simp at hlen
      | succ k =>
          rw [List.map_cons, List.cons_append, reduce, if_pos hlevel.1,
            ih (by simpa using hlen) hlevel.2, Expr.close_cons]
          simp

/-- The top of the stack is not reduced before any of the operators `bs`. -/
def Stops (L : Levels P B) (st : List (Entry A P B)) (bs : List B) : Prop :=
  ∀ f st', st = .op f :: st' → ∀ b ∈ bs, L.bin b < f.level L

theorem reduce_of_stops {st : List (Entry A P B)} {bs : List B} (h : Stops L st bs) {b : B}
    (hb : b ∈ bs) (k : ℕ) (e : Expr A P B) : reduce L b k e st = (e, st) := by
  cases k with
  | zero => rfl
  | succ k =>
      cases st with
      | nil => rfl
      | cons entry st =>
          cases entry with
          | group => rfl
          | op f =>
              have := h f st rfl b hb
              rw [reduce, if_neg (by omega)]

theorem reduceAll_map_op (fs : List (Frame A P B)) (e : Expr A P B) (st : List (Entry A P B)) :
    reduceAll e (fs.map .op ++ st) = reduceAll (e.close fs) st := by
  induction fs generalizing e with
  | nil => rfl
  | cons f fs ih => exact ih _

/-! ### A grouping that respects the levels is found -/

theorem run_tokens {e : Expr A P B} (hr : e.Respects L) (hn : e.LeftOpen n)
    {st : List (Entry A P B)} (hst : Stops L st e.leftEdge) (ts : List (Token A P B)) :
    run L n ⟨none, st⟩ (e.tokens ++ ts) =
      run L n ⟨some e.lastOperand, e.openFrames.map .op ++ st⟩ ts := by
  induction e generalizing st ts with
  | atom a => rfl
  | group e ih =>
      have hin : Stops L (.group :: st) e.leftEdge := by
        rintro f st' ⟨⟩
      rw [Expr.tokens, List.cons_append, List.append_assoc, run_cons]
      simp only [step, Option.bind_some]
      rw [ih hr hn hin, List.singleton_append, run_cons]
      simp only [step]
      rw [reduceAll_map_op, Expr.close_openFrames]
      rfl
  | pre p e ih =>
      have hin : Stops L (.op (.pre p) :: st) e.leftEdge := by
        rintro f st' ⟨⟩
        exact hr.2
      rw [Expr.tokens, List.cons_append, run_cons]
      simp only [step, Option.bind_some]
      rw [ih hr.1 hn hin, Expr.lastOperand, Expr.openFrames, List.map_append, List.append_assoc]
      rfl
  | bin l b r ihl ihr =>
      obtain ⟨hrl, hrr, hright, hleft⟩ := hr
      obtain ⟨hnl, hnr, hlen⟩ := hn
      have hstl : Stops L st l.leftEdge := fun f st' h c hc =>
        hst f st' h c (List.mem_cons_of_mem _ hc)
      have hin : Stops L (.op (.bin l b) :: st) r.leftEdge := by
        rintro f st' ⟨⟩
        exact hleft
      rw [Expr.tokens, List.append_assoc, List.cons_append, ihl hrl hnl hstl, run_cons]
      simp only [step]
      rw [reduce_map_op hlen hright, Expr.close_openFrames,
        reduce_of_stops hst (by simp [Expr.leftEdge]), Option.bind_some, ihr hrr hnr hin,
        Expr.lastOperand, Expr.openFrames, List.map_append, List.append_assoc]
      rfl

theorem parse_tokens {e : Expr A P B} (hr : e.Respects L) (hn : e.LeftOpen n) :
    parse L n e.tokens = some e := by
  have hstop : Stops L ([] : List (Entry A P B)) e.leftEdge := by
    rintro f st' ⟨⟩
  have hrun := run_tokens hr hn hstop []
  rw [List.append_nil, List.append_nil] at hrun
  have hclose := reduceAll_map_op e.openFrames e.lastOperand []
  rw [List.append_nil, Expr.close_openFrames] at hclose
  rw [parse, hrun]
  simp only [run, finish]
  rw [hclose]
  rfl

/-- There is at most one grouping of a token sequence that respects the levels. -/
theorem respects_unique {e e' : Expr A P B} (hr : e.Respects L) (hr' : e'.Respects L)
    (h : e.tokens = e'.tokens) : e = e' := by
  obtain ⟨n, hn⟩ := e.exists_leftOpen
  obtain ⟨n', hn'⟩ := e'.exists_leftOpen
  have he := parse_tokens hr (hn.mono (Nat.le_max_left n n'))
  have he' := parse_tokens hr' (hn'.mono (Nat.le_max_right n n'))
  rw [h, he'] at he
  exact (Option.some.inj he).symm

/-! ### What the parser finds -/

/-- The part of the stack from the innermost open group on. -/
def base : List (Entry A P B) → List (Entry A P B)
  | .op _ :: st => base st
  | .group :: st => .group :: st
  | [] => []

theorem base_reduce (b : B) (k : ℕ) (e : Expr A P B) (st : List (Entry A P B)) :
    base (reduce L b k e st).2 = base st := by
  induction k generalizing e st with
  | zero => rfl
  | succ k ih =>
      rcases st with _ | ⟨_ | f, st⟩
      · rfl
      · rfl
      · rw [reduce]
        split
        · exact ih _ st
        · rfl

theorem reduceAll_snd (e : Expr A P B) (st : List (Entry A P B)) :
    (reduceAll e st).2 = base st := by
  induction st generalizing e with
  | nil => rfl
  | cons entry st ih =>
      cases entry with
      | group => rfl
      | op f => exact ih _

/-- The tokens of an expression are read in any state that expects an operand. -/
theorem exists_run_tokens (e : Expr A P B) (st : List (Entry A P B)) :
    ∃ w st', base st' = base st ∧
      ∀ ts, run L n ⟨none, st⟩ (e.tokens ++ ts) = run L n ⟨some w, st'⟩ ts := by
  induction e generalizing st with
  | atom a => exact ⟨.atom a, st, rfl, fun _ => rfl⟩
  | group e ih =>
      obtain ⟨w, st', hbase, hrun⟩ := ih (.group :: st)
      refine ⟨.group (reduceAll w st').1, st, rfl, fun ts => ?_⟩
      have hsnd : (reduceAll w st').2 = .group :: st := (reduceAll_snd w st').trans hbase
      rw [Expr.tokens, List.cons_append, List.append_assoc, run_cons]
      simp only [step, Option.bind_some]
      rw [hrun, List.singleton_append, run_cons]
      simp only [step]
      rw [show reduceAll w st' = ((reduceAll w st').1, .group :: st) from Prod.ext rfl hsnd]
      rfl
  | pre p e ih =>
      obtain ⟨w, st', hbase, hrun⟩ := ih (.op (.pre p) :: st)
      exact ⟨w, st', hbase, fun ts => hrun ts⟩
  | bin l b r ihl ihr =>
      obtain ⟨w, st', hbase, hrun⟩ := ihl st
      obtain ⟨w', st'', hbase', hrun'⟩ :=
        ihr (.op (.bin (reduce L b n w st').1 b) :: (reduce L b n w st').2)
      refine ⟨w', st'', hbase'.trans ((base_reduce b n w st').trans hbase), fun ts => ?_⟩
      rw [Expr.tokens, List.append_assoc, List.cons_append, hrun, run_cons]
      exact hrun' ts

theorem exists_parse (e : Expr A P B) : ∃ g, parse L n e.tokens = some g := by
  obtain ⟨w, st, hbase, hrun⟩ := exists_run_tokens (L := L) (n := n) e []
  have hrun := hrun []
  rw [List.append_nil] at hrun
  refine ⟨(reduceAll w st).1, ?_⟩
  have hsnd : (reduceAll w st).2 = [] := (reduceAll_snd w st).trans hbase
  rw [parse, hrun, run, finish]
  simp only
  rw [show reduceAll w st = ((reduceAll w st).1, []) from Prod.ext rfl hsnd]

def Frame.tokens : Frame A P B → List (Token A P B)
  | .pre p => [.pre p]
  | .bin l b => l.tokens ++ [.bin b]

def Entry.tokens : Entry A P B → List (Token A P B)
  | .group => [.lparen]
  | .op f => f.tokens

/-- The tokens read so far. -/
def stackTokens (st : List (Entry A P B)) : List (Token A P B) := st.reverse.flatMap Entry.tokens

@[simp]
theorem stackTokens_nil : stackTokens ([] : List (Entry A P B)) = [] := rfl

@[simp]
theorem stackTokens_cons (entry : Entry A P B) (st : List (Entry A P B)) :
    stackTokens (entry :: st) = stackTokens st ++ entry.tokens := by
  simp [stackTokens]

theorem Frame.tokens_apply (f : Frame A P B) (e : Expr A P B) :
    (f.apply e).tokens = f.tokens ++ e.tokens := by
  cases f <;> simp [Frame.apply, Frame.tokens, Expr.tokens]

theorem tokens_reduce (b : B) (k : ℕ) (e : Expr A P B) (st : List (Entry A P B)) :
    stackTokens (reduce L b k e st).2 ++ (reduce L b k e st).1.tokens =
      stackTokens st ++ e.tokens := by
  induction k generalizing e st with
  | zero => rfl
  | succ k ih =>
      rcases st with _ | ⟨_ | f, st⟩
      · rfl
      · rfl
      · rw [reduce]
        split
        · rw [ih, Frame.tokens_apply, stackTokens_cons, List.append_assoc]
          rfl
        · rfl

theorem tokens_reduceAll (e : Expr A P B) (st : List (Entry A P B)) :
    stackTokens (reduceAll e st).2 ++ (reduceAll e st).1.tokens = stackTokens st ++ e.tokens := by
  induction st generalizing e with
  | nil => rfl
  | cons entry st ih =>
      cases entry with
      | group => rfl
      | op f =>
          rw [reduceAll, ih, Frame.tokens_apply, stackTokens_cons, List.append_assoc]
          rfl

def State.tokens (s : State A P B) : List (Token A P B) :=
  stackTokens s.stack ++ (s.operand.map Expr.tokens).getD []

/-- The three ways a step can change the state. -/
theorem step_cases {s s' : State A P B} {t : Token A P B} (h : step L n s t = some s') :
    (s.operand = none ∧ ((∃ a, t = .atom a ∧ s' = ⟨some (.atom a), s.stack⟩) ∨
        (t = .lparen ∧ s' = ⟨none, .group :: s.stack⟩) ∨
        ∃ p, t = .pre p ∧ s' = ⟨none, .op (.pre p) :: s.stack⟩)) ∨
      ∃ e, s.operand = some e ∧
        ((∃ b, t = .bin b ∧ s' = ⟨none, .op (.bin (reduce L b n e s.stack).1 b) ::
            (reduce L b n e s.stack).2⟩) ∨
          ∃ e' st, t = .rparen ∧ reduceAll e s.stack = (e', .group :: st) ∧
            s' = ⟨some (.group e'), st⟩) := by
  obtain ⟨operand, stack⟩ := s
  cases operand with
  | none =>
      refine .inl ⟨rfl, ?_⟩
      cases t <;> simp_all [step]
  | some e =>
      refine .inr ⟨e, rfl, ?_⟩
      cases t with
      | bin b => exact .inl ⟨b, rfl, (Option.some.inj h).symm⟩
      | rparen =>
          simp only [step] at h
          split at h
          · next e' st heq => exact .inr ⟨e', st, rfl, heq, (Option.some.inj h).symm⟩
          · cases h
      | atom a => cases h
      | lparen => cases h
      | pre p => cases h

theorem finish_eq_some {s : State A P B} {g : Expr A P B} (h : finish s = some g) :
    ∃ e, s.operand = some e ∧ reduceAll e s.stack = (g, []) := by
  unfold finish at h
  split at h
  · next e he =>
      split at h
      · next e' heq =>
          obtain rfl := Option.some.inj h
          exact ⟨e, he, heq⟩
      · cases h
  · cases h

theorem tokens_step {s s' : State A P B} {t : Token A P B} (h : step L n s t = some s') :
    s'.tokens = s.tokens ++ [t] := by
  obtain ⟨operand, stack⟩ := s
  rcases step_cases h with ⟨rfl, ⟨a, rfl, rfl⟩ | ⟨rfl, rfl⟩ | ⟨p, rfl, rfl⟩⟩ |
    ⟨e, rfl, ⟨b, rfl, rfl⟩ | ⟨e', st, rfl, hred, rfl⟩⟩
  · simp [State.tokens, Expr.tokens]
  · simp [State.tokens, Entry.tokens]
  · simp [State.tokens, Entry.tokens, Frame.tokens]
  · have := tokens_reduce (L := L) b n e stack
    simp only [State.tokens, stackTokens_cons, Entry.tokens, Frame.tokens, Option.map_none,
      Option.getD_none, List.append_nil, Option.map_some, Option.getD_some, ← this,
      List.append_assoc]
  · have := tokens_reduceAll e stack
    rw [hred, stackTokens_cons] at this
    simp only [State.tokens, Expr.tokens, Option.map_some, Option.getD_some, ← this,
      Entry.tokens, List.append_assoc, List.cons_append, List.nil_append]

theorem tokens_of_run {s : State A P B} {ts : List (Token A P B)} {g : Expr A P B}
    (h : run L n s ts = some g) : g.tokens = s.tokens ++ ts := by
  induction ts generalizing s with
  | nil =>
      obtain ⟨e, he, hred⟩ := finish_eq_some h
      have := tokens_reduceAll e s.stack
      rw [hred] at this
      simpa [State.tokens, he] using this
  | cons t ts ih =>
      obtain ⟨s', hs, hrun⟩ := Option.bind_eq_some_iff.mp h
      rw [ih hrun, tokens_step hs, List.append_assoc, List.singleton_append]

/-- The parser only groups the tokens. -/
theorem tokens_parse {ts : List (Token A P B)} {g : Expr A P B} (h : parse L n ts = some g) :
    g.tokens = ts := by
  simpa [State.tokens] using tokens_of_run h

/-! ### The bound on the operators open at the right edge -/

def Frame.LeftOpen (n : ℕ) : Frame A P B → Prop
  | .pre _ => True
  | .bin l _ => l.LeftOpen n ∧ l.openFrames.length ≤ n

def Entry.LeftOpen (n : ℕ) : Entry A P B → Prop
  | .group => True
  | .op f => f.LeftOpen n

theorem Frame.LeftOpen.apply {f : Frame A P B} (hf : f.LeftOpen n) {e : Expr A P B}
    (he : e.LeftOpen n) : (f.apply e).LeftOpen n := by
  cases f with
  | pre p => exact he
  | bin l b => exact ⟨hf.1, he, hf.2⟩

theorem Frame.length_openFrames_apply (f : Frame A P B) (e : Expr A P B) :
    (f.apply e).openFrames.length = e.openFrames.length + 1 := by
  cases f <;> simp [Frame.apply, Expr.openFrames]

theorem leftOpen_reduce (b : B) {k : ℕ} {e : Expr A P B} {st : List (Entry A P B)}
    (he : e.LeftOpen n) (hst : ∀ x ∈ st, x.LeftOpen n) :
    (reduce L b k e st).1.LeftOpen n ∧ (∀ x ∈ (reduce L b k e st).2, x.LeftOpen n) ∧
      (reduce L b k e st).1.openFrames.length ≤ e.openFrames.length + k := by
  induction k generalizing e st with
  | zero => exact ⟨he, hst, Nat.le_refl _⟩
  | succ k ih =>
      rcases st with _ | ⟨_ | f, st⟩
      · exact ⟨he, hst, Nat.le_add_right _ _⟩
      · exact ⟨he, hst, Nat.le_add_right _ _⟩
      · rw [reduce]
        split
        · rw [List.forall_mem_cons] at hst
          obtain ⟨h1, h2, h3⟩ := ih (hst.1.apply he) hst.2
          rw [f.length_openFrames_apply] at h3
          exact ⟨h1, h2, by omega⟩
        · exact ⟨he, hst, Nat.le_add_right _ _⟩

theorem leftOpen_reduceAll {e : Expr A P B} {st : List (Entry A P B)} (he : e.LeftOpen n)
    (hst : ∀ x ∈ st, x.LeftOpen n) :
    (reduceAll e st).1.LeftOpen n ∧ ∀ x ∈ (reduceAll e st).2, x.LeftOpen n := by
  induction st generalizing e with
  | nil => exact ⟨he, hst⟩
  | cons entry st ih =>
      cases entry with
      | group => exact ⟨he, hst⟩
      | op f =>
          rw [List.forall_mem_cons] at hst
          exact ih (hst.1.apply he) hst.2

/-- What holds of the expressions in every state of a run. -/
structure State.LeftOpen (n : ℕ) (s : State A P B) : Prop where
  operand : ∀ e ∈ s.operand, e.LeftOpen n ∧ e.openFrames = []
  stack : ∀ x ∈ s.stack, x.LeftOpen n

theorem leftOpen_step {s s' : State A P B} {t : Token A P B} (h : step L n s t = some s')
    (hs : s.LeftOpen n) : s'.LeftOpen n := by
  obtain ⟨operand, stack⟩ := s
  obtain ⟨hop, hst⟩ := hs
  rcases step_cases h with ⟨rfl, ⟨a, rfl, rfl⟩ | ⟨rfl, rfl⟩ | ⟨p, rfl, rfl⟩⟩ |
    ⟨e, rfl, ⟨b, rfl, rfl⟩ | ⟨e', st, rfl, hred, rfl⟩⟩
  · refine ⟨?_, hst⟩
    rintro e ⟨⟩
    exact ⟨trivial, rfl⟩
  · exact ⟨by simp, List.forall_mem_cons.mpr ⟨trivial, hst⟩⟩
  · exact ⟨by simp, List.forall_mem_cons.mpr ⟨trivial, hst⟩⟩
  · obtain ⟨he, hopen⟩ := hop e rfl
    obtain ⟨h1, h2, h3⟩ := leftOpen_reduce (L := L) (k := n) b he hst
    rw [hopen, List.length_nil, Nat.zero_add] at h3
    exact ⟨by simp, List.forall_mem_cons.mpr ⟨⟨h1, h3⟩, h2⟩⟩
  · obtain ⟨h1, h2⟩ := leftOpen_reduceAll (hop e rfl).1 hst
    rw [hred] at h1 h2
    refine ⟨?_, (List.forall_mem_cons.mp h2).2⟩
    rintro e ⟨⟩
    exact ⟨h1, rfl⟩

theorem leftOpen_of_run {s : State A P B} {ts : List (Token A P B)} {g : Expr A P B}
    (h : run L n s ts = some g) (hs : s.LeftOpen n) : g.LeftOpen n := by
  induction ts generalizing s with
  | nil =>
      obtain ⟨e, he, hred⟩ := finish_eq_some h
      have := (leftOpen_reduceAll (hs.operand e he).1 hs.stack).1
      rwa [hred] at this
  | cons t ts ih =>
      obtain ⟨s', hs', hrun⟩ := Option.bind_eq_some_iff.mp h
      exact ih hrun (leftOpen_step hs' hs)

theorem leftOpen_parse {ts : List (Token A P B)} {g : Expr A P B} (h : parse L n ts = some g) :
    g.LeftOpen n :=
  leftOpen_of_run h ⟨by simp, by simp⟩

/-- With at most `n` reductions before a shift, the parser finds the grouping
that respects the levels if and only if none of its left operands has more than
`n` operators open at the right edge. -/
theorem parse_tokens_iff {e : Expr A P B} (hr : e.Respects L) :
    parse L n e.tokens = some e ↔ e.LeftOpen n :=
  ⟨leftOpen_parse, parse_tokens hr⟩

/-! ### From the result back to the states -/

/-- A property that passes from an expression to its parts. -/
structure Hereditary (D : Expr A P B → Prop) : Prop where
  group : ∀ {e}, D (.group e) → D e
  pre : ∀ {p e}, D (.pre p e) → D e
  left : ∀ {l b r}, D (.bin l b r) → D l
  right : ∀ {l b r}, D (.bin l b r) → D r

def Frame.All (D : Expr A P B → Prop) : Frame A P B → Prop
  | .pre _ => True
  | .bin l _ => D l

def Entry.All (D : Expr A P B → Prop) : Entry A P B → Prop
  | .group => True
  | .op f => f.All D

/-- The property holds of every expression in the state. -/
structure State.All (D : Expr A P B → Prop) (s : State A P B) : Prop where
  operand : ∀ e ∈ s.operand, D e
  stack : ∀ x ∈ s.stack, x.All D

section Hereditary

variable {D : Expr A P B → Prop} (hD : Hereditary D)

include hD

theorem Hereditary.apply {f : Frame A P B} {e : Expr A P B} (h : D (f.apply e)) :
    D e ∧ f.All D := by
  cases f with
  | pre p => exact ⟨hD.pre h, trivial⟩
  | bin l b => exact ⟨hD.right h, hD.left h⟩

theorem all_of_reduce {b : B} {k : ℕ} {e : Expr A P B} {st : List (Entry A P B)}
    (he : D (reduce L b k e st).1) (hst : ∀ x ∈ (reduce L b k e st).2, x.All D) :
    D e ∧ ∀ x ∈ st, x.All D := by
  induction k generalizing e st with
  | zero => exact ⟨he, hst⟩
  | succ k ih =>
      rcases st with _ | ⟨_ | f, st⟩
      · exact ⟨he, hst⟩
      · exact ⟨he, hst⟩
      · rw [reduce] at he hst
        split at he
        · next hle =>
            rw [if_pos hle] at hst
            obtain ⟨h1, h2⟩ := ih he hst
            obtain ⟨h3, h4⟩ := hD.apply h1
            exact ⟨h3, List.forall_mem_cons.mpr ⟨h4, h2⟩⟩
        · next hle =>
            rw [if_neg hle] at hst
            exact ⟨he, hst⟩

theorem all_of_reduceAll (e : Expr A P B) (st : List (Entry A P B))
    (he : D (reduceAll e st).1) (hst : ∀ x ∈ (reduceAll e st).2, x.All D) :
    D e ∧ ∀ x ∈ st, x.All D := by
  induction st generalizing e with
  | nil => exact ⟨he, hst⟩
  | cons entry st ih =>
      cases entry with
      | group => exact ⟨he, hst⟩
      | op f =>
          obtain ⟨h1, h2⟩ := ih _ he hst
          obtain ⟨h3, h4⟩ := hD.apply h1
          exact ⟨h3, List.forall_mem_cons.mpr ⟨h4, h2⟩⟩

theorem all_of_step {s s' : State A P B} {t : Token A P B} (h : step L n s t = some s')
    (hs : s'.All D) : s.All D := by
  obtain ⟨operand, stack⟩ := s
  obtain ⟨hop, hst⟩ := hs
  rcases step_cases h with ⟨rfl, ⟨a, rfl, rfl⟩ | ⟨rfl, rfl⟩ | ⟨p, rfl, rfl⟩⟩ |
    ⟨e, rfl, ⟨b, rfl, rfl⟩ | ⟨e', st, rfl, hred, rfl⟩⟩
  · exact ⟨by simp, hst⟩
  · exact ⟨by simp, (List.forall_mem_cons.mp hst).2⟩
  · exact ⟨by simp, (List.forall_mem_cons.mp hst).2⟩
  · obtain ⟨h1, h2⟩ := List.forall_mem_cons.mp hst
    obtain ⟨h3, h4⟩ := all_of_reduce hD h1 h2
    exact ⟨by simpa using h3, h4⟩
  · have h1 : D e' := hD.group (hop _ rfl)
    obtain ⟨h3, h4⟩ := all_of_reduceAll hD e stack (by rwa [hred])
      (by rw [hred]; exact List.forall_mem_cons.mpr ⟨trivial, hst⟩)
    exact ⟨by simpa using h3, h4⟩

/-- What holds of the result and passes to parts holds of all expressions on the way. -/
theorem all_of_run {s : State A P B} {ts : List (Token A P B)} {g : Expr A P B}
    (h : run L n s ts = some g) (hg : D g) : s.All D := by
  induction ts generalizing s with
  | nil =>
      obtain ⟨e, he, hred⟩ := finish_eq_some h
      obtain ⟨h1, h2⟩ := all_of_reduceAll hD e s.stack (by rwa [hred])
        (by rw [hred]; simp)
      exact ⟨by simpa [he] using h1, h2⟩
  | cons t ts ih =>
      obtain ⟨s', hs', hrun⟩ := Option.bind_eq_some_iff.mp h
      exact all_of_step hD hs' (ih hrun)

end Hereditary

def Frame.size : Frame A P B → ℕ
  | .pre _ => 1
  | .bin _ _ => 2

def Entry.size : Entry A P B → ℕ
  | .group => 1
  | .op f => f.size

/-- The number of slots the open groups and operators take. -/
def stackSize (st : List (Entry A P B)) : ℕ := (st.map Entry.size).sum

@[simp]
theorem stackSize_cons (x : Entry A P B) (st : List (Entry A P B)) :
    stackSize (x :: st) = x.size + stackSize st := by
  simp [stackSize]

theorem stackSize_reduceAll_le (e : Expr A P B) (st : List (Entry A P B)) :
    stackSize (reduceAll e st).2 ≤ stackSize st := by
  induction st generalizing e with
  | nil => exact Nat.le_refl _
  | cons x st ih =>
      cases x with
      | group => exact Nat.le_refl _
      | op f =>
          rw [stackSize_cons, reduceAll]
          exact Nat.le_trans (ih _) (Nat.le_add_left _ _)

/-- The height of an expression of height `h` once its surroundings are completed. -/
def plugHeight : List (Entry A P B) → ℕ → ℕ
  | [], h => h
  | .group :: st, h => plugHeight st (h + 1)
  | .op (.pre _) :: st, h => plugHeight st (h + 1)
  | .op (.bin l _) :: st, h => plugHeight st (max l.height (h + 2))

theorem plugHeight_mono (st : List (Entry A P B)) {h h' : ℕ} (hle : h ≤ h') :
    plugHeight st h ≤ plugHeight st h' := by
  induction st generalizing h h' with
  | nil => exact hle
  | cons x st ih =>
      rcases x with _ | _ | ⟨l, b⟩
      · exact ih (by omega)
      · exact ih (by omega)
      · exact ih (by omega)

theorem stackSize_add_le (st : List (Entry A P B)) (h : ℕ) :
    stackSize st + h ≤ plugHeight st h := by
  induction st generalizing h with
  | nil => simp [stackSize, plugHeight]
  | cons x st ih =>
      rw [stackSize_cons]
      rcases x with _ | _ | ⟨l, b⟩
      · have := ih (h + 1)
        simp only [Entry.size, plugHeight]
        omega
      · have := ih (h + 1)
        simp only [Entry.size, Frame.size, plugHeight]
        omega
      · have := ih (max l.height (h + 2))
        simp only [Entry.size, Frame.size, plugHeight]
        omega

theorem plugHeight_op (f : Frame A P B) (st : List (Entry A P B)) (e : Expr A P B) :
    plugHeight (.op f :: st) e.height = plugHeight st (f.apply e).height := by
  cases f <;> rfl

theorem plugHeight_reduce (b : B) (k : ℕ) (e : Expr A P B) (st : List (Entry A P B)) :
    plugHeight (reduce L b k e st).2 (reduce L b k e st).1.height = plugHeight st e.height := by
  induction k generalizing e st with
  | zero => rfl
  | succ k ih =>
      rcases st with _ | ⟨_ | f, st⟩
      · rfl
      · rfl
      · rw [reduce]
        split
        · rw [ih, plugHeight_op]
        · rfl

theorem plugHeight_reduceAll (e : Expr A P B) (st : List (Entry A P B)) :
    plugHeight (reduceAll e st).2 (reduceAll e st).1.height = plugHeight st e.height := by
  induction st generalizing e with
  | nil => rfl
  | cons x st ih =>
      cases x with
      | group => rfl
      | op f => rw [reduceAll, ih, plugHeight_op]

def State.height (s : State A P B) : ℕ :=
  plugHeight s.stack ((s.operand.map Expr.height).getD 0)

theorem State.stackSize_le (s : State A P B) : stackSize s.stack ≤ s.height :=
  Nat.le_trans (Nat.le_add_right _ _) (stackSize_add_le _ _)

theorem height_le_of_step {s s' : State A P B} {t : Token A P B} (h : step L n s t = some s') :
    s.height ≤ s'.height := by
  obtain ⟨operand, stack⟩ := s
  rcases step_cases h with ⟨rfl, ⟨a, rfl, rfl⟩ | ⟨rfl, rfl⟩ | ⟨p, rfl, rfl⟩⟩ |
    ⟨e, rfl, ⟨b, rfl, rfl⟩ | ⟨e', st, rfl, hred, rfl⟩⟩
  · exact Nat.le_refl _
  · exact plugHeight_mono stack (Nat.zero_le _)
  · exact plugHeight_mono stack (Nat.zero_le _)
  · have := plugHeight_reduce (L := L) b n e stack
    simp only [State.height, Option.map_some, Option.getD_some, Option.map_none,
      Option.getD_none, plugHeight, ← this]
    exact plugHeight_mono _ (Nat.le_max_left _ _)
  · have := plugHeight_reduceAll e stack
    rw [hred] at this
    simp only [State.height, Option.map_some, Option.getD_some, ← this]
    exact Nat.le_refl _

/-- No state of a run takes more slots than the height of the result. -/
theorem height_le_of_run {s : State A P B} {ts : List (Token A P B)} {g : Expr A P B}
    (h : run L n s ts = some g) : s.height ≤ g.height := by
  induction ts generalizing s with
  | nil =>
      obtain ⟨e, he, hred⟩ := finish_eq_some h
      have := plugHeight_reduceAll e s.stack
      rw [hred] at this
      simp only [State.height, he, Option.map_some, Option.getD_some, ← this]
      exact Nat.le_refl _
  | cons t ts ih =>
      obtain ⟨s', hs', hrun⟩ := Option.bind_eq_some_iff.mp h
      exact Nat.le_trans (height_le_of_step hs') (ih hrun)

/-! ### Every token sequence of an expression has a grouping that respects the levels -/

section Exists

variable (L)

/-- Put `b r` behind `l`, below the operators at its right edge that bind looser. -/
def insertBin (l : Expr A P B) (b : B) (r : Expr A P B) : Expr A P B :=
  match l with
  | .atom a => .bin (.atom a) b r
  | .group e => .bin (.group e) b r
  | .pre p e =>
      if ∀ f ∈ (Expr.pre p e).openFrames, f.level L ≤ L.bin b then .bin (.pre p e) b r
      else .pre p (insertBin e b r)
  | .bin l₁ o l₂ =>
      if ∀ f ∈ (Expr.bin l₁ o l₂).openFrames, f.level L ≤ L.bin b then .bin (.bin l₁ o l₂) b r
      else .bin l₁ o (insertBin l₂ b r)

/-- Put `r` behind `l b`. -/
def joinBin (l : Expr A P B) (b : B) (r : Expr A P B) : Expr A P B :=
  match r with
  | .bin r₁ o r₂ =>
      if ∀ c ∈ (Expr.bin r₁ o r₂).leftEdge, L.bin c < L.bin b then insertBin L l b (.bin r₁ o r₂)
      else insertBin L (joinBin l b r₁) o r₂
  | r => insertBin L l b r

/-- Put `e` behind the prefix operator `p`. -/
def joinPre (p : P) (e : Expr A P B) : Expr A P B :=
  match e with
  | .bin e₁ o e₂ =>
      if ∀ c ∈ (Expr.bin e₁ o e₂).leftEdge, L.bin c < L.pre p then .pre p (.bin e₁ o e₂)
      else insertBin L (joinPre p e₁) o e₂
  | e => .pre p e

/-- The same tokens, grouped as the levels prescribe. -/
def regroup : Expr A P B → Expr A P B
  | .atom a => .atom a
  | .group e => .group (regroup e)
  | .pre p e => joinPre L p (regroup e)
  | .bin l b r => joinBin L (regroup l) b (regroup r)

variable {L}

theorem insertBin_spec {l r : Expr A P B} {b : B} (hl : l.Respects L) (hr : r.Respects L)
    (hleft : ∀ c ∈ r.leftEdge, L.bin c < L.bin b) :
    (insertBin L l b r).Respects L ∧ (insertBin L l b r).tokens = l.tokens ++ .bin b :: r.tokens ∧
      ∀ c ∈ (insertBin L l b r).leftEdge,
        c ∈ l.leftEdge ∨ (c = b ∧ ∀ f ∈ l.openFrames, f.level L ≤ L.bin b) := by
  have hroot (l : Expr A P B) (hopen : ∀ f ∈ l.openFrames, f.level L ≤ L.bin b) :
      ∀ c ∈ (Expr.bin l b r).leftEdge,
        c ∈ l.leftEdge ∨ (c = b ∧ ∀ f ∈ l.openFrames, f.level L ≤ L.bin b) := by
    intro c hc
    rcases List.mem_cons.mp hc with rfl | hc
    · exact .inr ⟨rfl, hopen⟩
    · exact .inl hc
  induction l with
  | atom a =>
      have hopen : ∀ f ∈ (Expr.atom a : Expr A P B).openFrames, f.level L ≤ L.bin b := by
        simp [Expr.openFrames]
      exact ⟨⟨trivial, hr, hopen, hleft⟩, rfl, hroot _ hopen⟩
  | group e =>
      have hopen : ∀ f ∈ (Expr.group e).openFrames, f.level L ≤ L.bin b := by
        simp [Expr.openFrames]
      exact ⟨⟨hl, hr, hopen, hleft⟩, rfl, hroot _ hopen⟩
  | pre p e ih =>
      rw [insertBin]
      split
      · next hopen => exact ⟨⟨hl, hr, hopen, hleft⟩, rfl, hroot _ hopen⟩
      · next hopen =>
          obtain ⟨h1, h2, h3⟩ := ih hl.1
          refine ⟨⟨h1, fun c hc => ?_⟩, by simp [Expr.tokens, h2], by simp [Expr.leftEdge]⟩
          rcases h3 c hc with hc | ⟨rfl, hall⟩
          · exact hl.2 c hc
          · -- `p` itself binds looser than `b`
            by_contra hle
            refine hopen fun f hf => ?_
            rcases List.mem_append.mp hf with hf | hf
            · exact hall f hf
            · rw [List.mem_singleton.mp hf]
              exact Nat.le_of_not_lt hle
  | bin l₁ o l₂ _ ih =>
      rw [insertBin]
      split
      · next hopen => exact ⟨⟨hl, hr, hopen, hleft⟩, rfl, hroot _ hopen⟩
      · next hopen =>
          obtain ⟨h1, h2, h3⟩ := ih hl.2.1
          refine ⟨⟨hl.1, h1, hl.2.2.1, fun c hc => ?_⟩, by simp [Expr.tokens, h2],
            fun c hc => .inl hc⟩
          rcases h3 c hc with hc | ⟨rfl, hall⟩
          · exact hl.2.2.2 c hc
          · by_contra hle
            refine hopen fun f hf => ?_
            rcases List.mem_append.mp hf with hf | hf
            · exact hall f hf
            · rw [List.mem_singleton.mp hf]
              exact Nat.le_of_not_lt hle

theorem joinBin_spec {l r : Expr A P B} (b : B) (hl : l.Respects L) (hr : r.Respects L) :
    (joinBin L l b r).Respects L ∧ (joinBin L l b r).tokens = l.tokens ++ .bin b :: r.tokens := by
  induction r with
  | atom a =>
      obtain ⟨h1, h2, -⟩ := insertBin_spec (b := b) hl hr (by simp [Expr.leftEdge])
      exact ⟨h1, h2⟩
  | group e =>
      obtain ⟨h1, h2, -⟩ := insertBin_spec (b := b) hl hr (by simp [Expr.leftEdge])
      exact ⟨h1, h2⟩
  | pre p e =>
      obtain ⟨h1, h2, -⟩ := insertBin_spec (b := b) hl hr (by simp [Expr.leftEdge])
      exact ⟨h1, h2⟩
  | bin r₁ o r₂ ih =>
      rw [joinBin]
      split
      · next hleft =>
          obtain ⟨h1, h2, -⟩ := insertBin_spec hl hr hleft
          exact ⟨h1, h2⟩
      · obtain ⟨h1, h2⟩ := ih hr.1
        obtain ⟨h3, h4, -⟩ := insertBin_spec (b := o) h1 hr.2.1 hr.2.2.2
        exact ⟨h3, by rw [h4, h2]; simp [Expr.tokens]⟩

theorem joinPre_spec {e : Expr A P B} (p : P) (he : e.Respects L) :
    (joinPre L p e).Respects L ∧ (joinPre L p e).tokens = .pre p :: e.tokens := by
  induction e with
  | atom a => exact ⟨⟨he, by simp [Expr.leftEdge]⟩, rfl⟩
  | group e => exact ⟨⟨he, by simp [Expr.leftEdge]⟩, rfl⟩
  | pre q e => exact ⟨⟨he, by simp [Expr.leftEdge]⟩, rfl⟩
  | bin e₁ o e₂ ih =>
      rw [joinPre]
      split
      · next hleft => exact ⟨⟨he, hleft⟩, rfl⟩
      · obtain ⟨h1, h2⟩ := ih he.1
        obtain ⟨h3, h4, -⟩ := insertBin_spec (b := o) h1 he.2.1 he.2.2.2
        exact ⟨h3, by rw [h4, h2]; simp [Expr.tokens]⟩

theorem regroup_spec (e : Expr A P B) :
    (regroup L e).Respects L ∧ (regroup L e).tokens = e.tokens := by
  induction e with
  | atom a => exact ⟨trivial, rfl⟩
  | group e ih => exact ⟨ih.1, by simp [regroup, Expr.tokens, ih.2]⟩
  | pre p e ih =>
      obtain ⟨h1, h2⟩ := joinPre_spec p ih.1
      exact ⟨h1, by rw [regroup, h2, ih.2]; rfl⟩
  | bin l b r ihl ihr =>
      obtain ⟨h1, h2⟩ := joinBin_spec b ihl.1 ihr.1
      exact ⟨h1, by rw [regroup, h2, ihl.2, ihr.2]; rfl⟩

/-- The grouping prescribed by the levels exists and is unique. -/
theorem existsUnique_respects (e : Expr A P B) :
    ∃! g : Expr A P B, g.Respects L ∧ g.tokens = e.tokens := by
  obtain ⟨hr, ht⟩ := regroup_spec (L := L) e
  refine ⟨regroup L e, ⟨hr, ht⟩, fun g hg => ?_⟩
  exact respects_unique hg.1 hr (hg.2.trans ht.symm)

end Exists

end Swig.Lib.OperatorPrecedence
