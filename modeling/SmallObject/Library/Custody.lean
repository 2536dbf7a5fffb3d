import Mathlib.Logic.Function.Basic

/-! Objects that are in the custody of at most one place, and flags that say so.

An object is taken into a place that is empty and is flagged in the same step; it is passed
on to another place with the flag as it is, and given up in the step that clears the flag.
-/

set_option autoImplicit false

namespace Custody

variable {P A : Type}

/-- What each place holds, and the flag of each object that exists. -/
structure Ledger (P A : Type) where
  held : P → Option A
  flag : A → Option Bool

/-- No two places hold one object, and the flag of an object is set when some place holds it. -/
structure Exclusive (l : Ledger P A) : Prop where
  alone : ∀ p q a, l.held p = some a → l.held q = some a → p = q
  flagged : ∀ a, l.flag a = some true ↔ ∃ p, l.held p = some a

theorem Exclusive.empty : Exclusive ({ held := fun _ => none, flag := fun _ => none } : Ledger P A) := by
  constructor <;> simp

variable [DecidableEq P] [DecidableEq A]

inductive Step (l : Ledger P A) : Ledger P A → Prop where
  | stay : Step l l
  /-- An object that is new, or whose flag is clear. -/
  | take {p : P} {a : A} : l.held p = none → l.flag a ≠ some true →
      Step l { held := Function.update l.held p (some a), flag := Function.update l.flag a (some true) }
  | pass {p q : P} {a : A} : l.held p = some a → l.held q = none →
      Step l { l with held := Function.update (Function.update l.held p none) q (some a) }
  | drop {p : P} {a : A} : l.held p = some a →
      Step l { held := Function.update l.held p none, flag := Function.update l.flag a (some false) }

variable {l l' : Ledger P A} {p q : P} {a : A}

theorem Exclusive.take (exclusive : Exclusive l) (vacant : l.held p = none) (clear : l.flag a ≠ some true) :
    Exclusive { held := Function.update l.held p (some a), flag := Function.update l.flag a (some true) } := by
  have free : ∀ q, l.held q ≠ some a := fun q holds => clear ((exclusive.flagged a).mpr ⟨q, holds⟩)
  constructor
  · intro p₁ p₂ b
    simp only [Function.update_apply]
    -- of two holders one could be the new one; nobody held the object before
    split <;> split <;> intro holds₁ holds₂
    · simp_all
    · exact absurd (holds₁ ▸ holds₂) (free p₂)
    · exact absurd (holds₂ ▸ holds₁) (free p₁)
    · exact exclusive.alone p₁ p₂ b holds₁ holds₂
  · intro b
    by_cases same : b = a
    · subst same
      simpa using ⟨p, Function.update_self ..⟩
    · simp only [Function.update_of_ne same, exclusive.flagged]
      constructor
      · rintro ⟨q, holds⟩
        have other : q ≠ p := fun here => by simp [here, vacant] at holds
        exact ⟨q, by rwa [Function.update_of_ne other]⟩
      · rintro ⟨q, holds⟩
        by_cases here : q = p
        · subst here
          simp only [Function.update_self, Option.some.injEq] at holds
          exact absurd holds.symm same
        · exact ⟨q, by rwa [Function.update_of_ne here] at holds⟩

theorem Exclusive.drop (exclusive : Exclusive l) (holds : l.held p = some a) :
    Exclusive { held := Function.update l.held p none, flag := Function.update l.flag a (some false) } := by
  have kept : ∀ q b, Function.update l.held p none q = some b ↔ q ≠ p ∧ l.held q = some b := by
    intro q b
    by_cases here : q = p
    · simp [here]
    · simp [here]
  constructor
  · intro p₁ p₂ b holds₁ holds₂
    exact exclusive.alone p₁ p₂ b ((kept p₁ b).mp holds₁).2 ((kept p₂ b).mp holds₂).2
  · intro b
    simp only [kept]
    by_cases same : b = a
    · subst same
      simp only [Function.update_self, Option.some.injEq, Bool.false_eq_true, false_iff]
      -- a second holder is excluded, so the flag can be cleared
      rintro ⟨q, other, again⟩
      exact other (exclusive.alone q p b again holds)
    · simp only [Function.update_of_ne same, exclusive.flagged]
      constructor
      · rintro ⟨q, found⟩
        refine ⟨q, fun here => same ?_, found⟩
        exact Option.some.inj (found.symm.trans (here ▸ holds))
      · rintro ⟨q, _, found⟩
        exact ⟨q, found⟩

/-- To pass an object on is to give it up and take it again, with nothing in between. -/
theorem Exclusive.pass (exclusive : Exclusive l) (holds : l.held p = some a) (vacant : l.held q = none) :
    Exclusive { l with held := Function.update (Function.update l.held p none) q (some a) } := by
  have empty : Function.update l.held p none q = none := by
    by_cases here : q = p
    · simp [here]
    · simp [here, vacant]
  have again := (exclusive.drop holds).take empty (a := a) (by simp)
  have flagged : l.flag a = some true := (exclusive.flagged a).mpr ⟨p, holds⟩
  have same : Function.update (Function.update l.flag a (some false)) a (some true) = l.flag := by
    rw [Function.update_idem, ← flagged, Function.update_eq_self]
  rwa [same] at again

theorem Step.exclusive (step : Step l l') (exclusive : Exclusive l) : Exclusive l' := by
  cases step with
  | stay => exact exclusive
  | take vacant clear => exact exclusive.take vacant clear
  | pass holds vacant => exact exclusive.pass holds vacant
  | drop holds => exact exclusive.drop holds

end Custody
