import Mathlib.Data.List.AList
import Mathlib.Data.List.Nodup
import Mathlib.Data.List.Perm.Subperm

/-! Finite heaps of typed cells and the frame relation between two heaps.

An address is a natural number and a nullable pointer an optional address. Cells
of one type live in one heap, so a cell of another type is never reached by it.
-/

set_option autoImplicit false

namespace Linked

variable {α : Type}

abbrev Addr := Nat

/-- A pointer that may be null. -/
abbrev Ptr := Option Addr

/-- The allocated cells; an address without an entry is not allocated. -/
abbrev Heap (α : Type) := AList (fun _ : Addr => α)

/-- The second heap stores what the first one does at every untouched address. -/
def AgreeOff (touched : List Addr) (h h' : Heap α) : Prop :=
  ∀ a, a ∉ touched → h'.lookup a = h.lookup a

theorem AgreeOff.refl (touched : List Addr) (h : Heap α) : AgreeOff touched h h :=
  fun _ _ => rfl

theorem AgreeOff.mono {small large : List Addr} {h h' : Heap α} (agree : AgreeOff small h h')
    (sub : small ⊆ large) : AgreeOff large h h' :=
  fun a away => agree a (fun member => away (sub member))

theorem AgreeOff.trans {touched : List Addr} {h h' h'' : Heap α} (first : AgreeOff touched h h')
    (second : AgreeOff touched h' h'') : AgreeOff touched h h'' :=
  fun a away => (second a away).trans (first a away)

theorem AgreeOff.insert {touched : List Addr} {h h' : Heap α} (agree : AgreeOff touched h h')
    {a : Addr} (member : a ∈ touched) (cell : α) : AgreeOff touched h (h'.insert a cell) := by
  intro b away
  have different : b ≠ a := fun same => away (same ▸ member)
  rw [AList.lookup_insert_ne different]
  exact agree b away

theorem AgreeOff.erase {touched : List Addr} {h h' : Heap α} (agree : AgreeOff touched h h')
    {a : Addr} (member : a ∈ touched) : AgreeOff touched h (h'.erase a) := by
  intro b away
  have different : b ≠ a := fun same => away (same ▸ member)
  rw [AList.lookup_erase_ne different]
  exact agree b away

/-- Distinct allocated addresses are at most as many as the heap has cells. -/
theorem length_le_cells {h : Heap α} {addrs : List Addr} (nodup : addrs.Nodup)
    (allocated : ∀ a ∈ addrs, ∃ cell, h.lookup a = some cell) : addrs.length ≤ h.keys.length := by
  apply List.Subperm.length_le
  apply List.subperm_of_subset nodup
  intro a member
  obtain ⟨cell, found⟩ := allocated a member
  apply AList.lookup_isSome.mp
  simp [found]

end Linked
