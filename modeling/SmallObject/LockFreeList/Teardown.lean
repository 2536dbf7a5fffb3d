import SmallObject.LockFreeList.Threads

/-! The destructor of the list, after any number of threads have pushed nodes.

It destroys the nodes that are on the list. Another node exists only as long as the call of
`push_front` that made it.
-/

set_option autoImplicit false

namespace SmallObject

open Linked Chain Execution

namespace LockFreeList

variable {E : Type}

/-- The loop of `do_destroy_list`. -/
def destroyFrom (l : LockFreeList E) : Nat → Ptr → Except Fault (LockFreeList E)
  | _, none => .ok l
  | 0, some _ => .error .endless
  | rounds + 1, some tmp => do
    let cell ← deref l.nodes (some tmp)
    let l ← l.destroyNode tmp
    destroyFrom l rounds cell.next

def doDestroyList (l : LockFreeList E) : Except Fault (LockFreeList E) :=
  destroyFrom { l with head := none } l.nodes.keys.length l.head

variable {l : LockFreeList E} {p : Ptr} {nodes : List Addr}

theorem destroyFrom_leads {rounds : Nat} (leads : Leads l.next p nodes none) (nodup : nodes.Nodup)
    (stored : ∀ a ∈ nodes, ∃ e, l.element a = some e) (enough : nodes.length ≤ rounds) :
    ∃ l', l.destroyFrom rounds p = .ok l' ∧ l'.head = l.head ∧
      ∀ a, l'.element a = if a ∈ nodes then none else l.element a := by
  induction nodes generalizing l p rounds with
  | nil =>
    obtain rfl : p = none := leads
    exact ⟨l, by cases rounds <;> rfl, rfl, by simp⟩
  | cons a rest ih =>
    obtain ⟨rfl, onward⟩ := leads
    obtain ⟨rounds, rfl⟩ := Nat.exists_eq_add_of_le' (Nat.one_le_of_lt enough)
    obtain ⟨fresh, nodup⟩ := List.nodup_cons.mp nodup
    obtain ⟨e, found⟩ := stored a List.mem_cons_self
    obtain ⟨l₁, destroyed, head, element, next, _⟩ := destroyNode_links found
    have away : ∀ b ∈ rest, b ≠ a := fun b member => ne_of_mem_of_not_mem member fresh
    -- the rest of the list does not go through the node that is gone
    obtain ⟨l', run, head', element'⟩ := @ih l₁ (l.next a) rounds
      (onward.congr fun b member => by simp [next, away b member]) nodup
      (fun b member => by simpa [element, away b member] using stored b (List.mem_cons_of_mem a member))
      (by simpa using enough)
    refine ⟨l', ?_, head'.trans head, fun b => ?_⟩
    · simp [destroyFrom, deref_of_lookup (cell_of_element found), destroyed, run]
    · rw [element', element]
      by_cases same : b = a
      · simp [same]
      · simp [same]

namespace Shared

variable {T I : Type}

/-- Every node is on the list, or it is the new node of a thread. -/
def Owned (s : Shared T I E) : Prop :=
  ∀ a, s.list.element a ≠ none → a ∈ s.published ∨ ∃ t new, (s.phase t).new = some new ∧ new.1 = a

variable [DecidableEq T] [DecidableEq I] {s s' : Shared T I E}

theorem Owned.step {e : Event T I E} (owned : s.Owned) (linear : s.Linear) (stepped : s.step e = .ok s') :
    s'.Owned := by
  cases e with
  | pushFront t node element =>
    simp only [Shared.step] at stepped
    split at stepped
    next idle =>
      obtain rfl := Except.ok.inj stepped
      intro a there
      by_cases here : a = node
      · exact .inr ⟨t, (node, element), by simp [goto, Phase.new], here.symm⟩
      · refine (owned a (by simpa [goto, createNode_element, here] using there)).imp_right ?_
        rintro ⟨u, new, isNew, same⟩
        -- the thread had no node before
        have other : u ≠ t := by
          rintro rfl
          simp [idle, Phase.new] at isNew
        exact ⟨u, new, by simpa [goto, other] using isNew, same⟩
    next => exact Except.ok.inj stepped ▸ owned
  | advance t spurious =>
    rcases linear.advance t spurious with ⟨run, _⟩ | ⟨list, phase, run, moves⟩ | ⟨new, phase, _, run⟩ <;>
      obtain rfl := Except.ok.inj (run.symm.trans stepped)
    · exact owned
    · intro a there
      refine (owned a (by simpa [moves.element] using there)).imp_right ?_
      rintro ⟨u, new, isNew, same⟩
      exact ⟨u, new, (moves.new_update u).trans isNew, same⟩
    · intro a there
      rcases owned a there with old | ⟨u, new', isNew, rfl⟩
      · exact .inl (List.mem_cons_of_mem _ old)
      · by_cases here : u = t
        · subst here
          obtain rfl : new = new' := by simpa [phase, Phase.new] using isNew
          exact .inl List.mem_cons_self
        · exact .inr ⟨u, new', by simpa [goto, here] using isNew, rfl⟩
  | begin i => exact Except.ok.inj stepped ▸ owned
  | round i =>
    simp only [Shared.step] at stepped
    split at stepped
    · exact Except.ok.inj stepped ▸ owned
    · obtain ⟨_, _, stepped⟩ := bind_eq_ok stepped
      exact Except.ok.inj stepped ▸ owned

theorem Run.owned (run : Run s) : s.Owned ∧ s.Linear := by
  apply run.invariant
  · rintro s fresh
    refine ⟨?_, Linear.fresh fresh⟩
    simp [Owned, fresh.1, init, element]
  · rintro s e s' ⟨owned, linear⟩ admissible stepped
    obtain ⟨s'', stepped', linear', _⟩ := linear.step admissible
    obtain rfl : s'' = s' := Except.ok.inj (stepped'.symm.trans stepped)
    exact ⟨owned.step linear stepped, linear'⟩

/-- Whenever the destructor runs, it completes: it destroys every node on the list, none twice. The
nodes that are left are exactly those of calls that have not come to their end. -/
theorem run_destroys (run : Run s) : ∃ l, s.list.doDestroyList = .ok l ∧ l.head = none ∧
    (∀ a ∈ s.published, l.element a = none) ∧ (∀ a, a ∉ s.published → l.element a = s.list.element a) ∧
    ∀ a, l.element a ≠ none ↔ ∃ t new, (s.phase t).new = some new ∧ new.1 = a := by
  obtain ⟨owned, linear⟩ := run.owned
  have stored : ∀ a ∈ s.published, ∃ e, s.list.element a = some e := fun a => linear.exists_stored
  have enough : s.published.length ≤ s.list.nodes.keys.length := length_le_cells linear.nodup fun a member => by
    obtain ⟨e, found⟩ := stored a member
    exact ⟨_, cell_of_element found⟩
  obtain ⟨l, destroyed, head, element⟩ :=
    destroyFrom_leads (l := { s.list with head := none }) linear.chain linear.nodup stored enough
  have element : ∀ a, l.element a = if a ∈ s.published then none else s.list.element a := element
  refine ⟨l, destroyed, head, fun a member => by simp [element, member], fun a away => by simp [element, away],
    fun a => ?_⟩
  rw [element]
  constructor
  · intro there
    by_cases member : a ∈ s.published
    · simp [member] at there
    · exact (owned a (by simpa [member] using there)).resolve_left member
  · rintro ⟨t, new, isNew, rfl⟩
    obtain ⟨found, unpublished⟩ := linear.own t new isNew
    rw [if_neg unpublished]
    exact fun gone => Option.some_ne_none _ (found.symm.trans gone)

/-- One call has come to its end, and the other one has made its node. -/
theorem run_destroys_one : ∃ (s : Shared Bool Unit Nat) (l : LockFreeList Nat), s.published = [10] ∧
    s.phase true = .created (11, 2) ∧ s.list.doDestroyList = .ok l ∧ l.head = none ∧
    (∀ a ∈ s.published, l.element a = none) ∧ (∀ a, a ∉ s.published → l.element a = s.list.element a) ∧
    ∀ a, l.element a ≠ none ↔ ∃ t new, (s.phase t).new = some new ∧ new.1 = a := by
  have computed : (replay Admissible step (empty : Shared Bool Unit Nat)
      [.pushFront false 10 1, .advance false false, .advance false false, .pushFront true 11 2,
        .advance false false]).map (fun s => (s.published, s.phase true)) =
      some ([10], .created (11, 2)) := by decide +kernel
  obtain ⟨s, replayed, reached⟩ := Option.map_eq_some_iff.mp computed
  obtain ⟨published, phase⟩ := Prod.mk.inj reached
  obtain ⟨l, destroyed⟩ := run_destroys (replay_runs _ (.start fresh_empty) replayed)
  exact ⟨s, l, published, phase, destroyed⟩

end Shared

end LockFreeList

end SmallObject
