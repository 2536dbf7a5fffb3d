import SmallObject.LockFreeList.Threads

/-! The back links that `push_front` leaves.

The back link of the old head is written before the `compare_exchange_weak` that decides
where the new node stands. It is right in the end when the old head is still the head as
it is written, and still names the new node as that is linked.
-/

set_option autoImplicit false

namespace SmallObject

open Linked Chain Execution

namespace LockFreeList.Shared

variable {T I E : Type} {s s' : Shared T I E} {t : T}

/-- The back link of a node is written only while it is the head, and a node is put before an old
head whose back link names it. -/
def Undisturbed (s : Shared T I E) : Event T I E → Prop
  | .advance t spurious =>
    match s.phase t with
    | .loaded _ oldHead => s.list.head = some oldHead
    | .linked new (some oldHead) =>
      s.list.head = some oldHead → spurious = false → s.list.prev oldHead = some new.1
    | _ => True
  | _ => True

instance [DecidableEq E] (s : Shared T I E) (e : Event T I E) : Decidable (s.Undisturbed e) :=
  match e with
  | .advance t spurious =>
    match phase : s.phase t with
    | .loaded _ oldHead =>
      decidable_of_iff (s.list.head = some oldHead) (by simp [Undisturbed, phase])
    | .linked new (some oldHead) =>
      decidable_of_iff (s.list.head = some oldHead → spurious = false → s.list.prev oldHead = some new.1)
        (by simp [Undisturbed, phase])
    | .idle | .created _ | .backed _ _ | .linked _ none => isTrue (by simp [Undisturbed, phase])
  | .pushFront _ _ _ | .begin _ | .round _ => isTrue trivial

/-- The back links on the list are right, but for the head's, which may name the new node of a
thread; new nodes have none. -/
structure Backed (s : Shared T I E) : Prop where
  back : ∃ above, Back s.list.prev above s.published ∧
    ∀ a, above = some a → ∃ t new, (s.phase t).new = some new ∧ new.1 = a
  own : ∀ t new, (s.phase t).new = some new → s.list.prev new.1 = none

theorem Backed.fresh (fresh : s.Fresh) : s.Backed := by
  obtain ⟨_, phase, pushed, _⟩ := fresh
  exact ⟨⟨none, by simp [published, pushed], by simp⟩, by simp [phase, Phase.new]⟩

section Steps

variable [DecidableEq T]

theorem Backed.moves (backed : s.Backed) (linear : s.Linear) {list : LockFreeList E} {phase : Phase E}
    (moves : s.Moves t list phase)
    (atHead : ∀ new oldHead, s.phase t = .loaded new oldHead → s.list.head = some oldHead) :
    Backed { s with list, phase := Function.update s.phase t phase } := by
  have kept : ∀ a, s.list.head ≠ some a → list.prev a = s.list.prev a := by
    intro a other
    rcases moves.prev a with same | ⟨new, phase, _⟩
    · exact same
    · exact absurd (atHead new a phase) other
  constructor
  · obtain ⟨above, back, whose⟩ := backed.back
    have whose' : ∀ a, above = some a → ∃ u new, (Function.update s.phase t phase u).new = some new ∧ new.1 = a := by
      intro a here
      obtain ⟨u, new, isNew, same⟩ := whose a here
      exact ⟨u, new, (moves.new_update u).trans isNew, same⟩
    have head := linear.chain.head
    have nodup := linear.nodup
    cases shape : s.published with
    | nil => exact ⟨above, by simp [published] at shape ⊢; simp [shape], whose'⟩
    | cons a rest =>
      rw [shape] at back head nodup
      have onward : Back list.prev (some a) rest := back.2.congr fun b member =>
        kept b fun here => (List.nodup_cons.mp nodup).1 (Option.some.inj (head.symm.trans here) ▸ member)
      -- a step writes the link of the head at most, and of the head only while it is the head
      rcases moves.prev a with same | ⟨new, phase, written⟩
      · exact ⟨above, shape ▸ ⟨same.trans back.1, onward⟩, whose'⟩
      · refine ⟨some new.1, shape ▸ ⟨written, onward⟩, fun b here => ⟨t, new, ?_, Option.some.inj here⟩⟩
        rw [moves.new_update, phase]
        rfl
  · intro u new isNew
    rw [moves.new_update] at isNew
    rw [kept new.1 fun here => (linear.own u new isNew).2 (List.mem_of_mem_head? (linear.chain.head.symm.trans here))]
    exact backed.own u new isNew

theorem Backed.link (backed : s.Backed) (linear : s.Linear) {new : Addr × E}
    (phase : s.phase t = .linked new s.list.head)
    (named : ∀ oldHead, s.list.head = some oldHead → s.list.prev oldHead = some new.1) :
    Backed ({ s with list := { s.list with head := some new.1 }, pushed := new :: s.pushed }.goto t .idle) := by
  have isNew : (s.phase t).new = some new := by rw [phase]; rfl
  constructor
  · obtain ⟨above, back, _⟩ := backed.back
    refine ⟨none, ⟨backed.own t new isNew, ?_⟩, by simp⟩
    have head := linear.chain.head
    change Back s.list.prev (some new.1) s.published
    cases shape : s.published with
    | nil => trivial
    | cons a rest =>
      rw [shape] at back head
      exact ⟨named a head, back.2⟩
  · intro u new' isNew'
    by_cases here : u = t
    · subst here
      simp [goto, Phase.new] at isNew'
    · exact backed.own u new' (by simpa [goto, here] using isNew')

theorem Backed.create (backed : s.Backed) (linear : s.Linear) {node : Addr} (unused : s.list.element node = none)
    (e : E) (idle : s.phase t = .idle) :
    Backed ({ s with list := s.list.createNode node e }.goto t (.created (node, e))) := by
  have kept : ∀ a e', s.list.element a = some e' → (s.list.createNode node e).prev a = s.list.prev a := by
    intro a e' stored
    have away : a ≠ node := by
      rintro rfl
      simp [unused] at stored
    simp [createNode_prev, away]
  constructor
  · obtain ⟨above, back, whose⟩ := backed.back
    refine ⟨above, back.congr fun a member => ?_, fun a here => ?_⟩
    · obtain ⟨e', stored⟩ := linear.exists_stored member
      exact kept a e' stored
    · obtain ⟨u, new, isNew, same⟩ := whose a here
      -- the thread had no node before
      have other : u ≠ t := by
        rintro rfl
        simp [idle, Phase.new] at isNew
      exact ⟨u, new, by simpa [goto, other] using isNew, same⟩
  · intro u new isNew
    by_cases here : u = t
    · subst here
      obtain rfl : (node, e) = new := by simpa [goto, Phase.new] using isNew
      simp [goto, createNode_prev]
    · have before : (s.phase u).new = some new := by simpa [goto, here] using isNew
      exact (kept new.1 new.2 (linear.own u new before).1).trans (backed.own u new before)

variable [DecidableEq I]

theorem Backed.step (backed : s.Backed) (linear : s.Linear) {e : Event T I E} (admissible : s.Admissible e)
    (undisturbed : s.Undisturbed e) (stepped : s.step e = .ok s') : s'.Backed := by
  cases e with
  | pushFront t node element =>
    cases phase : s.phase t with
    | idle =>
      simp only [Shared.step, phase] at stepped
      obtain rfl := Except.ok.inj stepped
      exact backed.create linear (element_eq_none.mpr admissible) element phase
    | created | loaded | backed | linked =>
      simp only [Shared.step, phase] at stepped
      exact Except.ok.inj stepped ▸ backed
  | advance t spurious =>
    -- the thread stays, moves on, or publishes its node
    rcases linear.advance t spurious with ⟨run, _⟩ | ⟨list, phase, run, moves⟩ | ⟨new, phase, rfl, run⟩ <;>
      obtain rfl := Except.ok.inj (run.symm.trans stepped)
    · exact backed
    · refine backed.moves linear moves fun new oldHead loaded => ?_
      simpa [Undisturbed, loaded] using undisturbed
    · refine backed.link linear phase fun oldHead head => ?_
      simpa [Undisturbed, phase, head] using undisturbed
  | begin i => exact Except.ok.inj stepped ▸ { backed with }
  | round i =>
    simp only [Shared.step] at stepped
    split at stepped
    · exact Except.ok.inj stepped ▸ backed
    · obtain ⟨_, _, stepped⟩ := bind_eq_ok stepped
      exact Except.ok.inj stepped ▸ { backed with }

theorem backed_of_run (run : Runs Fresh (fun s e => Admissible s e ∧ Undisturbed s e) step s) :
    s.Backed ∧ s.Linear := by
  apply run.invariant
  · exact fun s fresh => ⟨Backed.fresh fresh, Linear.fresh fresh⟩
  · rintro s e s' ⟨backed, linear⟩ ⟨admissible, undisturbed⟩ stepped
    obtain ⟨s'', stepped', linear', _⟩ := linear.step admissible
    obtain rfl : s'' = s' := Except.ok.inj (stepped'.symm.trans stepped)
    exact ⟨backed.step linear admissible undisturbed stepped, linear'⟩

/-- After calls that do not disturb each other's back links, whatever is between their steps, the
list is a doubly linked one whenever no call is in progress. -/
theorem run_doubly (run : Runs Fresh (fun s e => Admissible s e ∧ Undisturbed s e) step s)
    (quiet : ∀ t, s.phase t = .idle) :
    ∃ nodes, Leads s.list.next s.list.head nodes none ∧ Doubly s.list.next s.list.prev s.list.head nodes := by
  obtain ⟨backed, linear⟩ := backed_of_run run
  obtain ⟨above, back, whose⟩ := backed.back
  have none_above : above = none := by
    cases above with
    | none => rfl
    | some a =>
      obtain ⟨t, new, isNew, _⟩ := whose a rfl
      simp [quiet t, Phase.new] at isNew
  subst none_above
  exact ⟨s.published, linear.chain, back.doubly linear.chain⟩

end Steps

/-- Two threads load one old head; the one that writes its back link first is linked there, the
other one's `compare_exchange_weak` fails, and it tries again at the new head. -/
theorem run_doubly_retry : ∃ s : Shared Bool Unit Nat, s.pushed = [(11, 2), (12, 3), (10, 1)] ∧
    ∃ nodes, Leads s.list.next s.list.head nodes none ∧ Doubly s.list.next s.list.prev s.list.head nodes := by
  have computed : (replay (fun s e => Admissible s e ∧ Undisturbed s e) step (empty : Shared Bool Unit Nat)
      [.pushFront false 10 1, .advance false false, .advance false false, .advance false false,
        .pushFront false 11 2, .pushFront true 12 3, .advance false false, .advance true false,
        .advance false false, .advance true false, .advance true false, .advance true false,
        .advance false false, .advance false false, .advance false false, .advance false false,
        .advance false false, .advance false false]).map (fun s => (s.pushed, s.phase false, s.phase true)) =
      some ([(11, 2), (12, 3), (10, 1)], .idle, .idle) := by decide +kernel
  obtain ⟨s, replayed, reached⟩ := Option.map_eq_some_iff.mp computed
  obtain ⟨pushed, idle⟩ := Prod.mk.inj reached
  obtain ⟨first, second⟩ := Prod.mk.inj idle
  exact ⟨s, pushed, run_doubly (replay_runs _ (.start fresh_empty) replayed) (by simp [first, second])⟩

/-- The one that writes the back link last fails, and the back link names its node for ever. -/
theorem back_link_astray : ∃ s : Shared Bool Unit Nat, Run s ∧ (∀ t, s.phase t = .idle) ∧
    ¬ ∃ nodes, Leads s.list.next s.list.head nodes none ∧ Doubly s.list.next s.list.prev s.list.head nodes := by
  have computed : (replay Admissible step (empty : Shared Bool Unit Nat)
      [.pushFront false 10 1, .advance false false, .advance false false, .advance false false,
        .pushFront false 11 2, .pushFront true 12 3, .advance false false, .advance true false,
        .advance false false, .advance true false, .advance false false, .advance false false,
        .advance true false, .advance true false, .advance true false, .advance true false,
        .advance true false, .advance true false]).map (fun s =>
          ((s.phase false, s.phase true), s.published, s.list.next 11, s.list.prev 10)) =
      some ((.idle, .idle), [12, 11, 10], some 10, some 12) := by decide +kernel
  obtain ⟨s, replayed, reached⟩ := Option.map_eq_some_iff.mp computed
  obtain ⟨idle, published, next, prev⟩ : (s.phase false, s.phase true) = (.idle, .idle) ∧ s.published = [12, 11, 10] ∧
      s.list.next 11 = some 10 ∧ s.list.prev 10 = some 12 := by simpa using reached
  have run : Run s := replay_runs _ (.start fresh_empty) replayed
  refine ⟨s, run, by simp_all, ?_⟩
  rintro ⟨nodes, leads, doubly⟩
  obtain rfl : nodes = [12, 11, 10] := (leads.unique run.linear.chain).trans published
  have back := (doubly.mutual_links 10 (by decide) 11 (by decide)).mp next
  simp [prev] at back

end LockFreeList.Shared

end SmallObject
