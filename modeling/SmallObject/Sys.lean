import Mathlib.Algebra.Group.Nat.Defs
import SmallObject.Library.Heap

/-! What the C++ abstract machine contributes: faults, pointers and narrow integers.

A computation that dereferences a null or a destroyed object stops with a fault,
and so does one that throws. Loops run for at most as many rounds as there are
cells to visit; one that goes on longer has come back to a cell and never ends.
-/

set_option autoImplicit false

namespace SmallObject

open Linked

variable {α β γ : Type}

inductive Fault where
  /-- A null pointer, or a pointer to an object that does not exist, is dereferenced. -/
  | null
  /-- `std::bad_alloc` leaves the function. -/
  | badAlloc
  /-- A value does not fit the `int8_t` it is converted to; only `exactInt8` reports it. -/
  | narrow
  /-- A loop does not end. -/
  | endless
  deriving DecidableEq, Repr

@[simp] theorem ok_bind (a : α) (f : α → Except Fault β) : ((.ok a : Except Fault α) >>= f) = f a := rfl

@[simp] theorem error_bind (e : Fault) (f : α → Except Fault β) :
    ((.error e : Except Fault α) >>= f) = .error e := rfl

instance (x : Except Fault α) (e : Fault) : Decidable (x = .error e) :=
  match x with
  | .ok _ => isFalse nofun
  | .error e' => decidable_of_iff (e' = e) (by simp)

/-- What is done to the result is done at the end. -/
theorem map_bind (x : Except Fault α) (f : α → Except Fault β) (g : β → γ) :
    (x >>= f).map g = x >>= fun a => (f a).map g := by
  cases x <;> rfl

theorem bind_eq_ok {x : Except Fault α} {f : α → Except Fault β} {b : β} (run : (x >>= f) = .ok b) :
    ∃ a, x = .ok a ∧ f a = .ok b := by
  cases x with
  | error e => simp at run
  | ok a => exact ⟨a, rfl, run⟩

/-- The object that a pointer designates. -/
def deref (h : Heap α) : Ptr → Except Fault α
  | none => .error .null
  | some a =>
    match h.lookup a with
    | none => .error .null
    | some x => .ok x

theorem deref_of_lookup {h : Heap α} {a : Addr} {x : α} (found : h.lookup a = some x) :
    deref h (some a) = .ok x := by simp [deref, found]

theorem lookup_of_deref {h : Heap α} {a : Addr} {x : α} (run : deref h (some a) = .ok x) :
    h.lookup a = some x := by
  unfold deref at run
  cases found : h.lookup a with
  | none => simp [found] at run
  | some y => simpa [found] using run

/-- The address in a pointer that is about to be dereferenced. -/
def nonNull : Ptr → Except Fault Addr
  | none => .error .null
  | some a => .ok a

@[simp] theorem nonNull_some (a : Addr) : nonNull (some a) = .ok a := rfl
@[simp] theorem nonNull_none : nonNull none = .error .null := rfl

theorem nonNull_eq_ok {p : Ptr} {a : Addr} (run : nonNull p = .ok a) : p = some a := by
  cases p with
  | none => cases run
  | some b => exact congrArg some (Except.ok.inj run)

/-- A conversion from `int` to `int8_t`. -/
abbrev Narrowing := Int → Except Fault Int

/-- The conversion of the compiled code, which keeps the low eight bits. -/
def wrapInt8 : Narrowing := fun x => .ok (Int.bmod x 256)

/-- The conversion that refuses a value outside the range of `int8_t`: a run under it
completes when no value stored in an `int8_t` is ever too large for it. -/
def exactInt8 : Narrowing := fun x => if -128 ≤ x ∧ x ≤ 127 then .ok x else .error .narrow

theorem wrapInt8_of_exactInt8 {x y : Int} (fits : exactInt8 x = .ok y) : wrapInt8 x = .ok y := by
  unfold exactInt8 at fits
  split at fits
  next range =>
    obtain rfl : x = y := by simpa using fits
    have same : Int.bmod x 256 = x := by
      rw [Int.bmod_eq_of_le] <;> omega
    simp [wrapInt8, same]
  next => simp at fits

theorem exactInt8_eq {x : Int} (low : -128 ≤ x) (high : x ≤ 127) : exactInt8 x = .ok x := if_pos ⟨low, high⟩

theorem wrapInt8_eq {x : Int} (low : -128 ≤ x) (high : x ≤ 127) : wrapInt8 x = .ok x :=
  wrapInt8_of_exactInt8 (exactInt8_eq low high)

end SmallObject
