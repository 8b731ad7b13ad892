import Mathlib

/-!
# Pairs

The literals of `Fin 2`, for two rings, two slots or two ranks.
-/

namespace SmartNic

/-- A constant instance keeps the terms of such literals small. -/
theorem neZero_two : NeZero (2 : ℕ) := ⟨by decide⟩

end SmartNic
