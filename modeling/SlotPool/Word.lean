/-!
# Sizes that fit a machine word

Sizes and counts are natural numbers. A sum or product that a 64-bit word could not hold is refused
where it would arise, and so is an object of more bytes than one address range can span.
-/

namespace SlotPool.Word

/-- One more than the largest count a word holds. -/
def limit : Nat := 1 <<< 64

/-- The most bytes a single object may span. -/
def maxBytes : Nat := (1 <<< 63) - 1

/-- The sum, unless a word cannot hold it. -/
def add? (a b : Nat) : Option Nat := if a + b < limit then some (a + b) else none

/-- The product, unless a word cannot hold it. -/
def mul? (a b : Nat) : Option Nat := if a * b < limit then some (a * b) else none

theorem add?_eq_some {a b c : Nat} : add? a b = some c ↔ a + b < limit ∧ a + b = c := by
  simp [add?]

theorem mul?_eq_some {a b c : Nat} : mul? a b = some c ↔ a * b < limit ∧ a * b = c := by
  simp [mul?]

theorem add?_eq_none {a b : Nat} : add? a b = none ↔ limit ≤ a + b := by
  simp [add?]

theorem mul?_eq_none {a b : Nat} : mul? a b = none ↔ limit ≤ a * b := by
  simp [mul?]

end SlotPool.Word
