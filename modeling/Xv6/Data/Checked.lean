import Mathlib.Data.List.Basic

/-!
# Computations that may fail

What is known about the parts of a computation that has ended without an error.
-/

namespace Xv6.Data

variable {α β ε : Type} {x : Except ε α} {a : α} {b : β}

theorem exists_of_bind_eq_ok {f : α → Except ε β} (h : x >>= f = .ok b) : ∃ a, x = .ok a ∧ f a = .ok b := by
  cases x with
  | ok a => exact ⟨a, rfl, h⟩
  | error e => cases h

theorem eq_ok_of_toOption (h : x.toOption = some a) : x = .ok a := by
  cases x with
  | ok a' => exact congrArg _ (Option.some.inj h)
  | error e => cases h

end Xv6.Data
