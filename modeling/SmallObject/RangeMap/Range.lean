import Mathlib.Order.Lattice

/-! Key ranges and their comparison.

`compareTo` is the product order on the two bounds, not the order of disjoint
intervals: ranges that overlap are comparable unless one contains the other.
-/

set_option autoImplicit false

namespace SmallObject

variable {K : Type} [LinearOrder K]

structure Range (K : Type) where
  min : K
  max : K
  deriving DecidableEq, Repr

namespace Range

/-- The position of a key relative to the closed range: `-1` before, `0` inside, `1` after. -/
def compareToKey (self : Range K) (key : K) : Int :=
  let result : Int := if key < self.min then -1 else 0
  if result = 0 then (if self.max < key then 1 else 0) else result

def compareTo (self rhs : Range K) : Int :=
  let result : Int := if rhs.min < self.min ∧ rhs.max < self.max then 1 else 0
  if result = 0 then (if self.max < rhs.max ∧ self.min < rhs.min then -1 else 0) else result

/-- Strictly smaller in both bounds. -/
def Before (r s : Range K) : Prop := r.min < s.min ∧ r.max < s.max

instance (r s : Range K) : Decidable (Before r s) := inferInstanceAs (Decidable (_ ∧ _))

/-- The closed range holds the key. -/
def Contains (r : Range K) (key : K) : Prop := r.min ≤ key ∧ key ≤ r.max

theorem Before.trans {r s t : Range K} (first : Before r s) (second : Before s t) : Before r t :=
  ⟨first.1.trans second.1, first.2.trans second.2⟩

theorem Before.irrefl (r : Range K) : ¬ Before r r := fun h => lt_irrefl _ h.1

theorem Before.asymm {r s : Range K} (first : Before r s) : ¬ Before s r :=
  fun second => Before.irrefl r (first.trans second)

theorem compareTo_eq (self rhs : Range K) :
    self.compareTo rhs = if Before rhs self then 1 else if Before self rhs then -1 else 0 := by
  by_cases after : Before rhs self
  · have bounds : rhs.min < self.min ∧ rhs.max < self.max := after
    simp [compareTo, after, bounds]
  · have bounds : ¬ (rhs.min < self.min ∧ rhs.max < self.max) := after
    by_cases before : Before self rhs
    · have swapped : self.max < rhs.max ∧ self.min < rhs.min := before.symm
      simp [compareTo, after, bounds, before, swapped]
    · have swapped : ¬ (self.max < rhs.max ∧ self.min < rhs.min) := fun h => before h.symm
      simp [compareTo, after, bounds, before, swapped]

theorem compareTo_eq_one {self rhs : Range K} : self.compareTo rhs = 1 ↔ Before rhs self := by
  rw [compareTo_eq]
  split
  · simp [*]
  · split <;> simp [*]

theorem compareTo_eq_zero {self rhs : Range K} :
    self.compareTo rhs = 0 ↔ ¬ Before rhs self ∧ ¬ Before self rhs := by
  rw [compareTo_eq]
  split
  · simp [*]
  · split <;> simp [*]

theorem compareToKey_eq (self : Range K) (key : K) :
    self.compareToKey key = if key < self.min then -1 else if self.max < key then 1 else 0 := by
  unfold compareToKey
  by_cases low : key < self.min <;> simp [low]

theorem compareToKey_eq_zero {self : Range K} {key : K} :
    self.compareToKey key = 0 ↔ self.Contains key := by
  rw [compareToKey_eq, Contains]
  split
  next low => simp [low.not_ge]
  next => split <;> simp_all

end Range

end SmallObject
