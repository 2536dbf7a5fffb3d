import Mathlib.Data.List.Range
import Mathlib.Logic.Function.Basic

/-! Free lists that are threaded through the free cells themselves.

The link of a free cell is the next free cell, and the link of the last one is
arbitrary: whoever keeps the length never follows it. What the list is for is a
stack of cells, which knows nothing of links.
-/

set_option autoImplicit false

namespace Threaded

variable {ι : Type}

/-- The links lead from the head through the cells in order. -/
def Threads (next : ι → ι) : ι → List ι → Prop
  | _, [] => True
  | head, i :: rest => head = i ∧ Threads next (next i) rest

namespace Threads

variable {next next' : ι → ι} {head i : ι} {free : List ι}

theorem congr (threads : Threads next head free) (same : ∀ i ∈ free, next' i = next i) :
    Threads next' head free := by
  induction free generalizing head with
  | nil => trivial
  | cons i rest ih =>
    refine ⟨threads.1, ?_⟩
    rw [same i List.mem_cons_self]
    exact ih threads.2 fun j member => same j (List.mem_cons_of_mem _ member)

/-- A cell that is not in the list becomes its head when it is linked to the old one. -/
theorem push (threads : Threads next head free) (linked : next' i = head)
    (same : ∀ j ∈ free, next' j = next j) : Threads next' i (i :: free) :=
  ⟨rfl, linked ▸ threads.congr same⟩

/-- Cells that are linked to their successors are threaded in order. -/
theorem range {next : Nat → Nat} (start : Nat) {n : Nat}
    (linked : ∀ i, start ≤ i → i + 1 < start + n → next i = i + 1) :
    Threads next start (List.range' start n) := by
  induction n generalizing start with
  | zero => trivial
  | succ n ih =>
    cases n with
    | zero => exact ⟨rfl, trivial⟩
    | succ n =>
      refine ⟨rfl, ?_⟩
      rw [linked start (Nat.le_refl _) (by omega)]
      exact ih (start + 1) fun i low high => linked i (by omega) (by omega)

end Threads

/-! ## Stacks of cells -/

inductive Command (ι : Type) where
  | take
  | give (i : ι)
  deriving DecidableEq, Repr

/-- The stack after a command. -/
def after (free : List ι) : Command ι → List ι
  | .take => free.tail
  | .give i => i :: free

/-- What a command hands out: the top of the stack for `take`. -/
def handed (free : List ι) : Command ι → Option (Option ι)
  | .take => some free.head?
  | .give _ => none

/-- The cells that a sequence of commands hands out; null where the stack was empty. -/
def outcomes (free : List ι) : List (Command ι) → List (Option ι)
  | [] => []
  | c :: cs => (handed free c).toList ++ outcomes (after free c) cs

/-- The stack after a sequence of commands. -/
def remaining (free : List ι) (cs : List (Command ι)) : List ι := cs.foldl after free

theorem outcomes_append (free : List ι) (cs ds : List (Command ι)) :
    outcomes free (cs ++ ds) = outcomes free cs ++ outcomes (remaining free cs) ds := by
  induction cs generalizing free with
  | nil => rfl
  | cons c cs ih => simp [outcomes, ih, remaining]

theorem remaining_append (free : List ι) (cs ds : List (Command ι)) :
    remaining free (cs ++ ds) = remaining (remaining free cs) ds := List.foldl_append

end Threaded
