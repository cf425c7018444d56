import Mathlib.Tactic.Common

/-!
Computations that may stop at a fault and that note whether a watched event has
happened in them.

`none` is the fault. The flag says that the event has happened; a computation is
clean when it ends without a fault and without the event.
-/

universe u

def Watched (α : Type u) := Option (α × Bool)

namespace Watched

variable {α β : Type u}

def fault : Watched α := none

/-- A step that is the watched event or not. -/
def noting (a : α) (event : Bool) : Watched α := some (a, event)

/-- A computation without watched events. -/
def lift (o : Option α) : Watched α := o.map (·, false)

instance : Monad Watched where
  pure a := some (a, false)
  bind x f := Option.bind x fun (a, event) => Option.map (fun (b, event') => (b, event || event')) (f a)

/-- The computation ends with `a`, without a fault and without the event. -/
def Clean (x : Watched α) (a : α) : Prop := x = some (a, false)

theorem clean_pure {a b : α} : Clean (pure a) b ↔ a = b := by
  show some (a, false) = some (b, false) ↔ a = b
  simp

theorem clean_lift {o : Option α} {a : α} : Clean (lift o) a ↔ o = some a := by
  cases o with
  | none => exact ⟨nofun, nofun⟩
  | some b =>
      show some (b, false) = some (a, false) ↔ some b = some a
      simp

theorem clean_noting {a b : α} {event : Bool} : Clean (noting a event) b ↔ a = b ∧ event = false := by
  show some (a, event) = some (b, false) ↔ _
  simp

theorem not_clean_fault {a : α} : ¬ Clean fault a := nofun

theorem clean_bind {x : Watched α} {f : α → Watched β} {b : β} :
    Clean (x >>= f) b ↔ ∃ a, Clean x a ∧ Clean (f a) b := by
  show Option.bind x (fun (a, event) => Option.map (fun (b, event') => (b, event || event')) (f a)) = some (b, false) ↔ _
  constructor
  · intro h
    obtain ⟨⟨a, event⟩, hx, h⟩ := Option.bind_eq_some_iff.mp h
    obtain ⟨⟨b', event'⟩, hf, h⟩ := Option.map_eq_some_iff.mp h
    obtain ⟨rfl, hevent⟩ := Prod.mk.inj h
    have hevent : event = false ∧ event' = false := Bool.or_eq_false_iff.mp hevent
    obtain ⟨rfl, rfl⟩ := hevent
    exact ⟨a, hx, hf⟩
  · rintro ⟨a, hx, hf⟩
    rw [show x = some (a, false) from hx]
    show Option.map (fun (b, event') => (b, false || event')) (f a) = some (b, false)
    rw [show f a = some (b, false) from hf]
    rfl

theorem Clean.unique {x : Watched α} {a b : α} (ha : Clean x a) (hb : Clean x b) : a = b :=
  (Prod.mk.inj (Option.some.inj (ha.symm.trans hb))).1

/-- A clean first part is left out. -/
theorem Clean.bind_iff {x : Watched α} {a : α} (hx : Clean x a) {f : α → Watched β} {b : β} :
    Clean (x >>= f) b ↔ Clean (f a) b := by
  rw [clean_bind]
  constructor
  · rintro ⟨a', ha', hf⟩
    exact hx.unique ha' ▸ hf
  · exact fun hf => ⟨a, hx, hf⟩

end Watched
