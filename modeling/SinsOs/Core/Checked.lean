/-
Computations that end in a value or in an error: the errors allowed and what holds of the value, and how the two compose.
-/
import Mathlib.Tactic

namespace SinsOs.Core

variable {ε α β : Type} {E E' : ε → Prop} {P Q : α → Prop} {R : β → Prop} {x : Except ε α} {f : α → Except ε β}

/-- **What a computation ends in.** An error that `E` allows, or a value with `P`. -/
def Ends (x : Except ε α) (E : ε → Prop) (P : α → Prop) : Prop :=
  match x with
  | .ok a => P a
  | .error e => E e

theorem Ends.pure {a : α} (h : P a) : Ends (ε := ε) (pure a) E P := h

theorem Ends.value {a : α} (h : Ends x E P) (hx : x = .ok a) : P a := by
  subst hx
  exact h

theorem Ends.error {e : ε} (h : Ends x E P) (hx : x = .error e) : E e := by
  subst hx
  exact h

theorem Ends.bind (h : Ends x E P) (hf : ∀ a, P a → Ends (f a) E R) : Ends (x >>= f) E R := by
  cases x with
  | error e => exact h
  | ok a => exact hf a h

/-- what follows a computation without a value does not matter -/
theorem Ends.never (h : Ends x E fun _ => False) (f : α → Except ε β) : Ends (x >>= f) E R := h.bind fun _ h => h.elim

theorem Ends.imp (h : Ends x E P) (hE : ∀ e, E e → E' e) (hP : ∀ a, P a → Q a) : Ends x E' Q := by
  cases x with
  | error e => exact hE e h
  | ok a => exact hP a h

theorem Ends.and (h : Ends x E P) (h' : Ends x E' Q) : Ends x E fun a => P a ∧ Q a := by
  cases x with
  | error e => exact h
  | ok a => exact ⟨h, h'⟩

/-- two ends that exclude each other -/
theorem Ends.clash (h : Ends x E P) (hP : ∀ a, P a → ¬ Q a) (hE : ∀ e, E e → ¬ E' e) : ¬ Ends x E' Q := by
  cases x with
  | error e => exact hE e h
  | ok a => exact hP a h

theorem Ends.any (x : Except ε α) : Ends x (fun _ => True) fun _ => True := by
  cases x with
  | error e => trivial
  | ok a => trivial

/-- the value is known to be there as well -/
theorem Ends.with_value (h : Ends x E P) : Ends x E fun a => P a ∧ x = .ok a := by
  cases x with
  | error e => exact h
  | ok a => exact ⟨h, rfl⟩

end SinsOs.Core
