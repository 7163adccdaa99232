import Mathlib.Order.Lattice

/-! NULL as SQL treats it. A comparison with NULL is not true, arithmetic
with NULL is NULL, and GREATEST ignores a NULL argument. -/
namespace SqlNull

variable {α : Type*} [LinearOrder α]

/-- The condition `a <= b` holds; it does not when `a` is NULL. -/
def isLe (a : Option α) (b : α) : Bool :=
  match a with
  | none => false
  | some a => a ≤ b

/-- The condition `a < b` holds; it does not when `a` is NULL. -/
def isLt (a : Option α) (b : α) : Bool :=
  match a with
  | none => false
  | some a => a < b

/-- `GREATEST(a, b)` for a nullable `a`. -/
def greatest (a : Option α) (b : α) : Option α :=
  match a with
  | none => some b
  | some a => some (max a b)

theorem isLe_iff {a : Option α} {b : α} : isLe a b = true ↔ ∃ x, a = some x ∧ x ≤ b := by
  cases a <;> simp [isLe]

theorem isLt_iff {a : Option α} {b : α} : isLt a b = true ↔ ∃ x, a = some x ∧ x < b := by
  cases a <;> simp [isLt]

@[simp] theorem greatest_none (b : α) : greatest none b = some b := rfl

@[simp] theorem greatest_some (a b : α) : greatest (some a) b = some (max a b) := rfl

theorem greatest_ne_none (a : Option α) (b : α) : greatest a b ≠ none := by
  cases a <;> simp

end SqlNull
