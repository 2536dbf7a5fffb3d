import SmallObject.Arena.Shape
import SmallObject.Pool

/-! What a call of `pool::free` keeps, in whichever arenas it looks. -/

set_option autoImplicit false

namespace SmallObject

open Linked Arena

/-- The same arenas, each with its block size and its flag. -/
def Process.Alike (process process' : Process) : Prop :=
  ∀ ar, (process'.objects.lookup ar).map (fun arena => (arena.blockSize, arena.reserved)) =
    (process.objects.lookup ar).map fun arena => (arena.blockSize, arena.reserved)

namespace Process.Alike

variable {process process' process'' : Process} {ar : Addr} {arena arena' : Arena}

theorem trans (first : process.Alike process') (second : process'.Alike process'') : process.Alike process'' :=
  fun ar => (second ar).trans (first ar)

theorem insert {mem : Memory} (found : process.objects.lookup ar = some arena) (alike : arena.Alike arena') :
    process.Alike { mem, objects := process.objects.insert ar arena' } := by
  intro other
  by_cases here : other = ar
  · subst here
    simp [found, alike.1, alike.2]
  · simp [AList.lookup_insert_ne here]

theorem before (alike : process.Alike process') (found : process'.objects.lookup ar = some arena') :
    ∃ arena, process.objects.lookup ar = some arena ∧ arena.Alike arena' := by
  have same := alike ar
  rw [found] at same
  obtain ⟨arena, stored, both⟩ := Option.map_eq_some_iff.mp same.symm
  simp only [Prod.mk.injEq] at both
  exact ⟨arena, stored, both.1.symm, both.2.symm⟩

end Process.Alike

theorem newObject_eq_ok {p : Ptr} {a : Addr} : newObject p = .ok a ↔ p = some a := by
  cases p <;> simp [newObject]

namespace Pool

variable {T : Type} {process process' : Process} {self : Pool T} {ptr ar : Addr}

theorem freeIn_spares (size : Nat) {released : Bool} (run : freeIn process ar ptr = .ok (released, process')) :
    Spares size process.mem process'.mem ptr ∧ process.Alike process' := by
  obtain ⟨arena, found, rest⟩ := bind_eq_ok run
  obtain ⟨⟨released', mem', arena'⟩, freed, rest⟩ := bind_eq_ok rest
  simp only [Except.ok.injEq, Prod.mk.injEq] at rest
  obtain ⟨_, rfl⟩ := rest
  obtain ⟨spares, alike⟩ := Arena.free_spares size freed
  exact ⟨spares, .insert (lookup_of_deref found) alike⟩

theorem threadMissFree_spares (size : Nat) {list : List Addr} (run : threadMissFree process ptr list = .ok process') :
    Spares size process.mem process'.mem ptr ∧ process.Alike process' := by
  induction list generalizing process with
  | nil => simp [threadMissFree] at run
  | cons it rest ih =>
    obtain ⟨⟨released, process₁⟩, here, run⟩ := bind_eq_ok run
    obtain ⟨spares, alike⟩ := freeIn_spares size here
    simp only at run
    split at run
    · simp only [Except.ok.injEq] at run
      exact run ▸ ⟨spares, alike⟩
    · obtain ⟨spares', alike'⟩ := ih run
      exact ⟨spares.trans spares', alike.trans alike'⟩

theorem free_spares (size : Nat) {t : T} (run : self.free process t ptr = .ok process') :
    Spares size process.mem process'.mem ptr ∧ process.Alike process' := by
  obtain ⟨ar, _, rest⟩ := bind_eq_ok run
  obtain ⟨⟨released, process₁⟩, here, rest⟩ := bind_eq_ok rest
  obtain ⟨spares, alike⟩ := freeIn_spares size here
  simp only at rest
  split at rest
  · simp only [Except.ok.injEq] at rest
    exact rest ▸ ⟨spares, alike⟩
  · obtain ⟨spares', alike'⟩ := threadMissFree_spares size rest
    exact ⟨spares.trans spares', alike.trans alike'⟩

end Pool

end SmallObject
