import Mathlib.Data.Nat.Notation
import Mathlib.Logic.Function.Basic
import Mathlib.Logic.Relation
import Mathlib.Tactic.Common

/-!
A file that several processes change by reading it, computing and writing it back,
each between taking a lock and giving it up.

The processes go on in any order and may stop for good at any point. In the end
the file holds what the updates give that were written, one after the other in the
order of the writes: none is lost, and none counts twice.
-/

namespace LockedUpdate

variable {F V O : Type*}

/-- How far a process is with an update. -/
inductive Phase (V O : Type*)
  | idle
  | locked (op : O)
  | loaded (op : O) (v : V)
  | stored

/-- The file, the holder of the lock, the processes, and the updates written so far. -/
structure State (F V O : Type*) where
  file : F
  holder : Option ℕ
  phase : ℕ → Phase V O
  log : List O

variable (decode : F → V) (encode : F → V → F) (apply : V → O → V)

/-- One process goes on by one step, or stops. -/
inductive Step : State F V O → State F V O → Prop
  | lock (s : State F V O) (p : ℕ) (op : O) : s.phase p = .idle → s.holder = none →
      Step s { s with holder := some p, phase := Function.update s.phase p (.locked op) }
  | load (s : State F V O) (p : ℕ) (op : O) : s.phase p = .locked op →
      Step s { s with phase := Function.update s.phase p (.loaded op (decode s.file)) }
  | store (s : State F V O) (p : ℕ) (op : O) (v : V) : s.phase p = .loaded op v →
      Step s { s with
        file := encode s.file (apply v op)
        phase := Function.update s.phase p .stored
        log := s.log ++ [op] }
  | unlock (s : State F V O) (p : ℕ) : s.phase p = .stored →
      Step s { s with holder := none, phase := Function.update s.phase p .idle }
  | crash (s : State F V O) (p : ℕ) :
      Step s { s with
        holder := if s.holder = some p then none else s.holder
        phase := Function.update s.phase p .idle }

/-- Nobody is at work. -/
def State.start (f : F) : State F V O := ⟨f, none, fun _ => .idle, []⟩

def Reachable (f : F) (s : State F V O) : Prop := Relation.ReflTransGen (Step decode encode apply) (.start f) s

/-- Who is at work holds the lock, what was loaded is still in the file, and the
file holds the updates of the log. -/
structure Inv (f : F) (s : State F V O) : Prop where
  holder : ∀ p, s.phase p ≠ .idle → s.holder = some p
  loaded : ∀ p op v, s.phase p = .loaded op v → v = decode s.file
  file : decode s.file = s.log.foldl apply (decode f)

variable {decode encode apply} {f : F} {s t : State F V O}

theorem Inv.start (f : F) : Inv decode apply f (.start f : State F V O) where
  holder p hp := absurd rfl hp
  loaded p op v hp := by cases hp
  file := rfl

/-- Two processes are not at work at once. -/
theorem Inv.unique (h : Inv decode apply f s) {p q : ℕ} (hp : s.phase p ≠ .idle) (hq : s.phase q ≠ .idle) : p = q :=
  Option.some.inj ((h.holder p hp).symm.trans (h.holder q hq))

/-- What has to be looked at when one process goes on. -/
theorem Inv.update (h : Inv decode apply f s) (p : ℕ) (x : Phase V O)
    (hphase : t.phase = Function.update s.phase p x) (hholder : x ≠ .idle → t.holder = some p)
    (hloaded : ∀ op v, x = .loaded op v → v = decode t.file)
    (hother : ∀ q, q ≠ p → s.phase q ≠ .idle → t.holder = s.holder ∧ t.file = s.file)
    (hfile : decode t.file = t.log.foldl apply (decode f)) : Inv decode apply f t := by
  refine ⟨fun q hq => ?_, fun q op v hq => ?_, hfile⟩
  · rw [hphase] at hq
    by_cases hqp : q = p
    · rw [hqp, Function.update_self] at hq
      rw [hqp, hholder hq]
    · rw [Function.update_of_ne hqp] at hq
      rw [(hother q hqp hq).1, h.holder q hq]
  · rw [hphase] at hq
    by_cases hqp : q = p
    · rw [hqp, Function.update_self] at hq
      exact hloaded op v hq
    · rw [Function.update_of_ne hqp] at hq
      have hne : s.phase q ≠ .idle := by
        rw [hq]
        rintro ⟨⟩
      rw [(hother q hqp hne).2, h.loaded q op v hq]

theorem Inv.step (hcode : ∀ f v, decode (encode f v) = v) (h : Inv decode apply f s)
    (hstep : Step decode encode apply s t) : Inv decode apply f t := by
  cases hstep with
  | lock p op hp hholder =>
      refine h.update p (.locked op) rfl (fun _ => rfl) (by rintro _ _ ⟨⟩) (fun q hqp hq => ?_) h.file
      have := h.holder q hq
      rw [hholder] at this
      cases this
  | load p op hp =>
      refine h.update p (.loaded op (decode s.file)) rfl (fun _ => h.holder p ?_) ?_ (fun _ _ _ => ⟨rfl, rfl⟩) h.file
      · rw [hp]
        rintro ⟨⟩
      · rintro _ _ ⟨⟩
        rfl
  | store p op v hp =>
      have hp' : s.phase p ≠ .idle := by
        rw [hp]
        rintro ⟨⟩
      refine h.update p .stored rfl (fun _ => h.holder p hp') (by rintro _ _ ⟨⟩)
        (fun q hqp hq => absurd (h.unique hq hp') hqp) ?_
      dsimp only
      rw [hcode, h.loaded p op v hp, h.file, List.foldl_append]
      rfl
  | unlock p hp =>
      have hp' : s.phase p ≠ .idle := by
        rw [hp]
        rintro ⟨⟩
      exact h.update p .idle rfl (fun hne => absurd rfl hne) (by rintro _ _ ⟨⟩)
        (fun q hqp hq => absurd (h.unique hq hp') hqp) h.file
  | crash p =>
      refine h.update p .idle rfl (fun hne => absurd rfl hne) (by rintro _ _ ⟨⟩) (fun q hqp hq => ⟨?_, rfl⟩) h.file
      dsimp only
      rw [h.holder q hq, if_neg fun heq => hqp (Option.some.inj heq)]

theorem Reachable.inv (hcode : ∀ f v, decode (encode f v) = v) (h : Reachable decode encode apply f s) :
    Inv decode apply f s := by
  induction h with
  | refl => exact .start f
  | tail _ hstep ih => exact ih.step hcode hstep

end LockedUpdate
