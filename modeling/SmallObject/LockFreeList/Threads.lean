import SmallObject.Library.Execution
import SmallObject.LockFreeList

/-! Any number of threads in `push_front`, and any number of loops over the list, step by step.

A step is one load, one exchange or one `compare_exchange_weak` of a thread that pushes,
or one round of a loop. Between any two steps of a thread the other ones may take steps.
-/

set_option autoImplicit false

namespace SmallObject

open Linked Chain Execution

namespace LockFreeList

/-- Where a thread is in `push_front`, with its new node, the element in it, and the old head. -/
inductive Phase (E : Type) where
  | idle
  /-- Before the load of `head_`. -/
  | created (new : Addr × E)
  /-- Before the exchange of the old head's `prev_`. -/
  | loaded (new : Addr × E) (oldHead : Addr)
  /-- Before the exchange of the new node's `next_`. -/
  | backed (new : Addr × E) (oldHead : Ptr)
  /-- Before `compare_exchange_weak`. -/
  | linked (new : Addr × E) (oldHead : Ptr)
  deriving DecidableEq, Repr

/-- The node that a thread is about to push. -/
def Phase.new {E : Type} : Phase E → Option (Addr × E)
  | idle => none
  | created new | loaded new _ | backed new _ | linked new _ => some new

/-- A loop over the list: its iterator, and what it has visited, the first node first. -/
structure Cursor (E : Type) where
  it : Ptr
  visited : List (Addr × E)

/-- `pushed` are the nodes whose `compare_exchange_weak` has succeeded, the latest first. -/
structure Shared (T I E : Type) where
  list : LockFreeList E
  phase : T → Phase E
  pushed : List (Addr × E)
  cursor : I → Cursor E

/-- A call of `push_front`, the next step of a thread in one, a loop that starts at `begin()`,
and the next round of a loop. -/
inductive Event (T I E : Type) where
  | pushFront (t : T) (node : Addr) (element : E)
  | advance (t : T) (spurious : Bool)
  | begin (i : I)
  | round (i : I)

/-- The event is a round of the loop. -/
def Event.rounds {T I E : Type} [DecidableEq I] (i : I) : Event T I E → Bool
  | round j => j = i
  | _ => false

namespace Shared

variable {T I E : Type}

/-- The nodes on the list. -/
def published (s : Shared T I E) : List Addr := s.pushed.map Prod.fst

section Steps

variable [DecidableEq T] [DecidableEq I]

def goto (s : Shared T I E) (t : T) (phase : Phase E) : Shared T I E :=
  { s with phase := Function.update s.phase t phase }

/-- The next atomic step of a thread in `push_front`. -/
def advance (s : Shared T I E) (t : T) (spurious : Bool) : Except Fault (Shared T I E) :=
  match s.phase t with
  | .idle => .ok s
  | .created new =>
    match s.list.head with
    | none => .ok (s.goto t (.backed new none))
    | some oldHead => .ok (s.goto t (.loaded new oldHead))
  | .loaded new oldHead => do
    let (_, list) ← s.list.exchangePrev (some oldHead) (some new.1)
    .ok ({ s with list }.goto t (.backed new (some oldHead)))
  | .backed new oldHead => do
    let (_, list) ← s.list.exchangeNext (some new.1) oldHead
    .ok ({ s with list }.goto t (.linked new oldHead))
  | .linked new oldHead =>
    match s.list.compareExchangeWeak oldHead (some new.1) spurious with
    | (true, list) => .ok ({ s with list, pushed := new :: s.pushed }.goto t .idle)
    | (false, list) => .ok ({ s with list }.goto t (.created new))

/-- A call begins only when the thread is in no other; an event that does not fit leaves the
state as it is. -/
def step (s : Shared T I E) : Event T I E → Except Fault (Shared T I E)
  | .pushFront t node element =>
    match s.phase t with
    | .idle => .ok ({ s with list := s.list.createNode node element }.goto t (.created (node, element)))
    | _ => .ok s
  | .advance t spurious => s.advance t spurious
  | .begin i => .ok { s with cursor := Function.update s.cursor i { it := s.list.head, visited := [] } }
  | .round i =>
    match (s.cursor i).it with
    | none => .ok s
    | some it => do
      let (element, next) ← s.list.visit it
      let visited := (s.cursor i).visited ++ [(it, element)]
      .ok { s with cursor := Function.update s.cursor i { it := next, visited } }

end Steps

/-- `allocate` does not return the address of a node that exists. -/
def Admissible (s : Shared T I E) : Event T I E → Prop
  | .pushFront _ node _ => s.list.nodes.lookup node = none
  | _ => True

/-- The list is empty and no thread is in it. -/
def Fresh (s : Shared T I E) : Prop :=
  s.list = .init ∧ s.phase = (fun _ => .idle) ∧ s.pushed = [] ∧ s.cursor = (fun _ => { it := none, visited := [] })

def Run [DecidableEq T] [DecidableEq I] : Shared T I E → Prop := Runs Fresh Admissible step

instance (s : Shared T I E) (e : Event T I E) : Decidable (s.Admissible e) :=
  match e with
  | .pushFront _ _ _ => decidable_of_iff _ Option.isNone_iff_eq_none
  | .advance _ _ | .begin _ | .round _ => isTrue trivial

/-! ## What a step of a thread in `push_front` does -/

/-- A step that publishes nothing: it may write the back link of the old head, or the forward
link of the new node. -/
structure Moves (s : Shared T I E) (t : T) (list : LockFreeList E) (phase : Phase E) : Prop where
  new : phase.new = (s.phase t).new
  head : list.head = s.list.head
  element : list.element = s.list.element
  next : ∀ a, (∀ new, (s.phase t).new = some new → a ≠ new.1) → list.next a = s.list.next a
  linked : ∀ new oldHead, phase = .linked new oldHead → list.next new.1 = oldHead
  loaded : ∀ new oldHead, phase = .loaded new oldHead → s.list.head = some oldHead
  prev : ∀ a, list.prev a = s.list.prev a ∨ ∃ new, s.phase t = .loaded new a ∧ list.prev a = some new.1

/-- `pushed` is the list at `head_`, and a new node is known to one thread alone. -/
structure Linear (s : Shared T I E) : Prop where
  chain : Leads s.list.next s.list.head s.published none
  nodup : s.published.Nodup
  stored : ∀ x ∈ s.pushed, s.list.element x.1 = some x.2
  own : ∀ t new, (s.phase t).new = some new → s.list.element new.1 = some new.2 ∧ new.1 ∉ s.published
  apart : ∀ t u new new', (s.phase t).new = some new → (s.phase u).new = some new' → new.1 = new'.1 → t = u
  linked : ∀ t new oldHead, s.phase t = .linked new oldHead → s.list.next new.1 = oldHead
  loaded : ∀ t new oldHead, s.phase t = .loaded new oldHead → oldHead ∈ s.published
  placed : ∀ i a, (s.cursor i).it = some a → a ∈ s.published

variable {s s' : Shared T I E} {t : T} {i : I}

theorem Linear.exists_stored (linear : s.Linear) {a : Addr} (member : a ∈ s.published) :
    ∃ e, s.list.element a = some e := by
  obtain ⟨x, isX, rfl⟩ := List.mem_map.mp member
  exact ⟨x.2, linear.stored x isX⟩

theorem Linear.fresh (fresh : s.Fresh) : s.Linear := by
  obtain ⟨list, phase, pushed, cursor⟩ := fresh
  constructor <;> simp [published, list, phase, pushed, cursor, init, Phase.new]

section Progress

variable [DecidableEq T]

/-- The next step of a thread always succeeds. It moves, or it publishes the thread's node. -/
theorem Linear.advance (linear : s.Linear) (t : T) (spurious : Bool) :
    s.advance t spurious = .ok s ∧ s.phase t = .idle ∨
      (∃ list phase, s.advance t spurious = .ok { s with list, phase := Function.update s.phase t phase } ∧
        s.Moves t list phase) ∨
      ∃ new, s.phase t = .linked new s.list.head ∧ spurious = false ∧
        s.advance t spurious = .ok ({ s with
          list := { s.list with head := some new.1 }, pushed := new :: s.pushed }.goto t .idle) := by
  unfold Shared.advance
  cases phase : s.phase t with
  | idle => exact .inl ⟨rfl, rfl⟩
  | created new =>
    cases head : s.list.head with
    | none =>
      refine .inr (.inl ⟨s.list, .backed new none, rfl, ?_⟩)
      constructor <;> simp [phase, Phase.new]
    | some oldHead =>
      refine .inr (.inl ⟨s.list, .loaded new oldHead, rfl, ?_⟩)
      constructor <;> simp [phase, head, Phase.new]
  | loaded new oldHead =>
    obtain ⟨e, stored⟩ := linear.exists_stored (linear.loaded t new oldHead phase)
    obtain ⟨list, run, head, element, next, prev⟩ := exchangePrev_links stored (some new.1)
    refine .inr (.inl ⟨list, .backed new (some oldHead), by simp only [run, ok_bind]; rfl, ?_⟩)
    refine ⟨by simp [phase, Phase.new], head, element, by simp [next], by simp, by simp, fun a => ?_⟩
    rcases eq_or_ne a oldHead with rfl | other
    · exact .inr ⟨new, phase, by simp [prev]⟩
    · exact .inl (by simp [prev, other])
  | backed new oldHead =>
    obtain ⟨stored, _⟩ := linear.own t new (by simp [phase, Phase.new])
    obtain ⟨list, run, head, element, prev, next⟩ := exchangeNext_links stored oldHead
    refine .inr (.inl ⟨list, .linked new oldHead, by simp only [run, ok_bind]; rfl, ?_⟩)
    refine ⟨by simp [phase, Phase.new], head, element, fun a away => ?_, ?_, by simp, by simp [prev]⟩
    · simp [next, away new (by simp [phase, Phase.new])]
    · rintro _ _ ⟨rfl, rfl⟩
      simp [next]
  | linked new oldHead =>
    -- the exchange fails when the head is another one by now, or for no reason
    by_cases succeeds : s.list.head = oldHead ∧ spurious = false
    · obtain ⟨rfl, rfl⟩ := succeeds
      exact .inr (.inr ⟨new, rfl, rfl, by simp [compareExchangeWeak]⟩)
    · refine .inr (.inl ⟨s.list, .created new, by simp only [compareExchangeWeak, succeeds, if_false]; rfl, ?_⟩)
      constructor <;> simp [phase, Phase.new]

theorem Moves.new_update {list : LockFreeList E} {phase : Phase E} (moves : s.Moves t list phase) (u : T) :
    (Function.update s.phase t phase u).new = (s.phase u).new := by
  by_cases here : u = t
  · subst here
    simp [moves.new]
  · simp [here]

theorem Linear.moves (linear : s.Linear) {list : LockFreeList E} {phase : Phase E} (moves : s.Moves t list phase) :
    Linear { s with list, phase := Function.update s.phase t phase } ∧
      ∀ a ∈ s.published, list.next a = s.list.next a := by
  have kept : ∀ a ∈ s.published, list.next a = s.list.next a := fun a member =>
    moves.next a fun new isNew here => (linear.own t new isNew).2 (here ▸ member)
  refine ⟨⟨?_, linear.nodup, ?_, ?_, ?_, ?_, ?_, linear.placed⟩, kept⟩
  · rw [moves.head]
    exact linear.chain.congr kept
  · intro x member
    rw [moves.element]
    exact linear.stored x member
  · intro u new isNew
    rw [moves.new_update] at isNew
    rw [moves.element]
    exact linear.own u new isNew
  · intro u v new new' isNew isNew' same
    rw [moves.new_update] at isNew isNew'
    exact linear.apart u v new new' isNew isNew' same
  · intro u new oldHead isLinked
    by_cases here : u = t
    · subst here
      exact moves.linked new oldHead (by simpa using isLinked)
    · have before : s.phase u = .linked new oldHead := by simpa [here] using isLinked
      have own : (s.phase u).new = some new := by rw [before]; rfl
      -- the node is another thread's, so this step has not written it
      have written := moves.next new.1 fun other isOther same => here (linear.apart u t new other own isOther same)
      exact written.trans (linear.linked u new oldHead before)
  · intro u new oldHead isLoaded
    by_cases here : u = t
    · subst here
      have atHead := moves.loaded new oldHead (by simpa using isLoaded)
      exact List.mem_of_mem_head? (linear.chain.head.symm.trans atHead)
    · exact linear.loaded u new oldHead (by simpa [here] using isLoaded)

/-- The new node is put before the old head, which its forward link names. -/
theorem Linear.link (linear : s.Linear) {new : Addr × E} (phase : s.phase t = .linked new s.list.head) :
    Linear ({ s with list := { s.list with head := some new.1 }, pushed := new :: s.pushed }.goto t .idle) := by
  have isNew : (s.phase t).new = some new := by rw [phase]; rfl
  obtain ⟨stored, unpublished⟩ := linear.own t new isNew
  have others : ∀ u new', (Function.update s.phase t .idle u).new = some new' →
      (s.phase u).new = some new' ∧ u ≠ t := by
    intro u new' isNew'
    by_cases here : u = t
    · subst here
      simp [Phase.new] at isNew'
    · exact ⟨by simpa [here] using isNew', here⟩
  refine ⟨⟨rfl, ?_⟩, List.nodup_cons.mpr ⟨unpublished, linear.nodup⟩, ?_, ?_, ?_, ?_, ?_,
    fun i a here => List.mem_cons_of_mem _ (linear.placed i a here)⟩
  · have linked := linear.linked t new s.list.head phase
    exact linked.symm ▸ linear.chain
  · intro x member
    rcases List.mem_cons.mp member with rfl | old
    · exact stored
    · exact linear.stored x old
  · intro u new' isNew'
    obtain ⟨isNew', other⟩ := others u new' isNew'
    obtain ⟨stored', unpublished'⟩ := linear.own u new' isNew'
    refine ⟨stored', fun member => ?_⟩
    -- no other thread has the node that is published
    rcases List.mem_cons.mp member with same | old
    · exact other (linear.apart u t new' new isNew' isNew same)
    · exact unpublished' old
  · intro u v new₁ new₂ isNew₁ isNew₂ same
    exact linear.apart u v new₁ new₂ (others u new₁ isNew₁).1 (others v new₂ isNew₂).1 same
  · intro u new' oldHead isLinked
    by_cases here : u = t
    · subst here
      simp [goto] at isLinked
    · exact linear.linked u new' oldHead (by simpa [goto, here] using isLinked)
  · intro u new' oldHead isLoaded
    by_cases here : u = t
    · subst here
      simp [goto] at isLoaded
    · exact List.mem_cons_of_mem _ (linear.loaded u new' oldHead (by simpa [goto, here] using isLoaded))

/-- A node is created at an address that no node has. -/
theorem Linear.create (linear : s.Linear) {node : Addr} (unused : s.list.element node = none) (e : E)
    (idle : s.phase t = .idle) :
    Linear ({ s with list := s.list.createNode node e }.goto t (.created (node, e))) ∧
      ∀ a ∈ s.published, (s.list.createNode node e).next a = s.list.next a := by
  have away : ∀ a e', s.list.element a = some e' → a ≠ node := by
    rintro a e' stored rfl
    simp [unused] at stored
  have unpublished : ∀ a ∈ s.published, a ≠ node := by
    intro a member
    obtain ⟨e', stored⟩ := linear.exists_stored member
    exact away a e' stored
  have kept : ∀ a ∈ s.published, (s.list.createNode node e).next a = s.list.next a := fun a member => by
    simp [createNode_next, unpublished a member]
  -- who has a new node, and which one
  have owners : ∀ u new, (Function.update s.phase t (.created (node, e)) u).new = some new →
      u = t ∧ new = (node, e) ∨ u ≠ t ∧ (s.phase u).new = some new := by
    intro u new isNew
    by_cases here : u = t
    · subst here
      exact .inl ⟨rfl, by simpa [Phase.new] using isNew.symm⟩
    · exact .inr ⟨here, by simpa [here] using isNew⟩
  refine ⟨⟨linear.chain.congr kept, linear.nodup, ?_, ?_, ?_, ?_, ?_, linear.placed⟩, kept⟩
  · intro x member
    have stored := linear.stored x member
    simpa [goto, createNode_element, away x.1 x.2 stored] using stored
  · intro u new isNew
    rcases owners u new isNew with ⟨rfl, rfl⟩ | ⟨_, isNew⟩
    · exact ⟨by simp [goto, createNode_element], fun member => unpublished node member rfl⟩
    · obtain ⟨stored, unpublished'⟩ := linear.own u new isNew
      exact ⟨by simpa [goto, createNode_element, away new.1 new.2 stored] using stored, unpublished'⟩
  · intro u v new₁ new₂ isNew₁ isNew₂ same
    rcases owners u new₁ isNew₁ with ⟨rfl, rfl⟩ | ⟨_, before₁⟩ <;>
      rcases owners v new₂ isNew₂ with ⟨rfl, rfl⟩ | ⟨_, before₂⟩
    · rfl
    · exact absurd same.symm (away _ _ (linear.own v new₂ before₂).1)
    · exact absurd same (away _ _ (linear.own u new₁ before₁).1)
    · exact linear.apart u v new₁ new₂ before₁ before₂ same
  · intro u new oldHead isLinked
    by_cases here : u = t
    · subst here
      simp [goto] at isLinked
    · have before : s.phase u = .linked new oldHead := by simpa [goto, here] using isLinked
      have own := linear.own u new (by rw [before]; rfl)
      simpa [goto, createNode_next, away new.1 new.2 own.1] using linear.linked u new oldHead before
  · intro u new oldHead isLoaded
    by_cases here : u = t
    · subst here
      simp [goto] at isLoaded
    · exact linear.loaded u new oldHead (by simpa [goto, here] using isLoaded)

end Progress

section Runs

variable [DecidableEq T] [DecidableEq I]

theorem round_stored {a : Addr} {element : E} (it : (s.cursor i).it = some a)
    (stored : s.list.element a = some element) :
    s.step (.round i) = .ok { s with
      cursor := Function.update s.cursor i
        { it := s.list.next a, visited := (s.cursor i).visited ++ [(a, element)] } } := by
  simp only [Shared.step, it, visit_stored stored, ok_bind]

/-- A round of `push_front` in one piece is what a thread comes to when no other one takes a step
during it. -/
theorem attempt_steps {new : Addr × E} {spurious linked : Bool} {l : LockFreeList E} (phase : s.phase t = .created new)
    (run : s.list.attempt new.1 spurious = .ok (linked, l)) :
    ∃ n s', replay Admissible step s (List.replicate n (.advance t spurious)) = some s' ∧ s'.list = l ∧
      s'.phase t = if linked then .idle else .created new := by
  unfold attempt at run
  cases head : s.list.head with
  | none =>
    simp only [head, ok_bind] at run
    obtain ⟨⟨_, l₁⟩, exchanged, run⟩ := bind_eq_ok run
    simp only [Except.ok.injEq] at run
    -- an empty list takes one step less: no old head is linked back
    refine ⟨3, ?_⟩
    simp only [List.replicate, replay, Admissible, if_true, Shared.step, Shared.advance, phase, head, goto,
      Function.update_self, Function.update_idem, exchanged, ok_bind, run]
    cases linked <;> exact ⟨_, rfl, rfl, by simp⟩
  | some oldHead =>
    cases exchangedPrev : s.list.exchangePrev (some oldHead) (some new.1) with
    | error e => simp [head, exchangedPrev, Except.map] at run
    | ok first =>
      simp only [head, exchangedPrev, Except.map, ok_bind] at run
      obtain ⟨⟨_, l₂⟩, exchanged, run⟩ := bind_eq_ok run
      simp only [Except.ok.injEq] at run
      refine ⟨4, ?_⟩
      simp only [List.replicate, replay, Admissible, if_true, Shared.step, Shared.advance, phase, head, goto,
        Function.update_self, Function.update_idem, exchangedPrev, exchanged, ok_bind, run]
      cases linked <;> exact ⟨_, rfl, rfl, by simp⟩

/-- Every event can happen. The nodes on the list stay there, with their forward links. -/
theorem Linear.step (linear : s.Linear) {e : Event T I E} (admissible : s.Admissible e) :
    ∃ s', s.step e = .ok s' ∧ s'.Linear ∧ s.pushed ⊆ s'.pushed ∧
      ∀ a ∈ s.published, s'.list.next a = s.list.next a := by
  cases e with
  | pushFront t node element =>
    cases phase : s.phase t with
    | idle =>
      obtain ⟨linear', kept⟩ := linear.create (element_eq_none.mpr admissible) element phase
      exact ⟨_, by simp only [Shared.step, phase], linear', List.Subset.refl _, kept⟩
    | created | loaded | backed | linked =>
      exact ⟨s, by simp only [Shared.step, phase], linear, List.Subset.refl _, fun _ _ => rfl⟩
  | advance t spurious =>
    rcases linear.advance t spurious with ⟨run, _⟩ | ⟨list, phase, run, moves⟩ | ⟨new, phase, rfl, run⟩
    · exact ⟨s, run, linear, List.Subset.refl _, fun _ _ => rfl⟩
    · obtain ⟨linear', kept⟩ := linear.moves moves
      exact ⟨_, run, linear', List.Subset.refl _, kept⟩
    · exact ⟨_, run, linear.link phase, List.subset_cons_self _ _, fun _ _ => rfl⟩
  | begin i =>
    refine ⟨_, rfl, { linear with placed := fun j a here => ?_ }, List.Subset.refl _, fun _ _ => rfl⟩
    by_cases same : j = i
    · subst same
      exact List.mem_of_mem_head? (linear.chain.head.symm.trans (by simpa using here))
    · exact linear.placed j a (by simpa [same] using here)
  | round i =>
    cases it : (s.cursor i).it with
    | none => exact ⟨s, by simp only [Shared.step, it], linear, List.Subset.refl _, fun _ _ => rfl⟩
    | some a =>
      have member := linear.placed i a it
      obtain ⟨element, stored⟩ := linear.exists_stored member
      refine ⟨_, round_stored it stored, { linear with placed := fun j b here => ?_ }, List.Subset.refl _,
        fun _ _ => rfl⟩
      by_cases same : j = i
      · subst same
        -- the cursor goes on to a node behind the one that it was at
        obtain ⟨before, after, split⟩ := List.append_of_mem member
        have follows := (split ▸ linear.chain).next_eq
        have inside : b ∈ after := List.mem_of_mem_head? (follows.symm.trans (by simpa using here))
        exact split ▸ List.mem_append_right _ (List.mem_cons_of_mem _ inside)
      · exact linear.placed j b (by simpa [same] using here)

theorem Run.linear (run : Run s) : s.Linear := by
  apply run.invariant
  · exact fun s fresh => Linear.fresh fresh
  · intro s e s' linear admissible stepped
    obtain ⟨s'', stepped', linear', _⟩ := linear.step admissible
    obtain rfl : s'' = s' := Except.ok.inj (stepped'.symm.trans stepped)
    exact linear'

/-- A loop has visited some of the nodes that were on the list when it began, and the rest is
ahead of it. -/
structure Reads (s : Shared T I E) (i : I) (due rest : List (Addr × E)) : Prop where
  split : due = (s.cursor i).visited ++ rest
  onward : Leads s.list.next (s.cursor i).it (rest.map Prod.fst) none
  ahead : rest ⊆ s.pushed

theorem Linear.begin_reads (linear : s.Linear) (stepped : s.step (.begin i) = .ok s') :
    s'.Reads i s.pushed s.pushed := by
  obtain rfl := Except.ok.inj stepped
  constructor
  · simp
  · simpa [published] using linear.chain
  · exact List.Subset.refl _

/-- Only its own events move a loop. -/
theorem Linear.cursor_step (linear : s.Linear) {e : Event T I E} (stepped : s.step e = .ok s')
    (others : e ≠ .begin i) (away : e.rounds i = false) : s'.cursor i = s.cursor i := by
  cases e with
  | pushFront t node element =>
    simp only [Shared.step] at stepped
    split at stepped <;> exact Except.ok.inj stepped ▸ rfl
  | advance t spurious =>
    rcases linear.advance t spurious with ⟨run, _⟩ | ⟨_, _, run, _⟩ | ⟨_, _, _, run⟩ <;>
      exact Except.ok.inj (run.symm.trans stepped) ▸ rfl
  | begin j =>
    have other : i ≠ j := fun same => others (same ▸ rfl)
    exact Except.ok.inj stepped ▸ Function.update_of_ne other ..
  | round j =>
    have other : i ≠ j := fun same => by simp [Event.rounds, same] at away
    simp only [Shared.step] at stepped
    split at stepped
    · exact Except.ok.inj stepped ▸ rfl
    · obtain ⟨_, _, stepped⟩ := bind_eq_ok stepped
      exact Except.ok.inj stepped ▸ Function.update_of_ne other ..

theorem Reads.step {due rest : List (Addr × E)} {e : Event T I E} (reads : s.Reads i due rest) (linear : s.Linear)
    (admissible : s.Admissible e) (others : e ≠ .begin i) (stepped : s.step e = .ok s') :
    s'.Reads i due (if e.rounds i then rest.tail else rest) := by
  obtain ⟨s'', stepped', linear', more, kept⟩ := linear.step admissible
  obtain rfl : s'' = s' := Except.ok.inj (stepped'.symm.trans stepped)
  -- a round of this reader consumes what is first of the rest, and no other event touches its cursor
  cases away : e.rounds i with
  | false =>
    have same := linear.cursor_step stepped others away
    refine ⟨?_, ?_, ?_⟩
    · simpa [same] using reads.split
    · have onward : Leads s''.list.next (s.cursor i).it (rest.map Prod.fst) none :=
        reads.onward.congr fun a member => kept a (List.map_subset Prod.fst reads.ahead member)
      simpa [same] using onward
    · simpa using List.Subset.trans reads.ahead more
  | true =>
    obtain ⟨j, rfl, rfl⟩ : ∃ j, e = .round j ∧ j = i := by
      cases e <;> simp_all [Event.rounds]
    cases rest with
    | nil =>
      have it : (s.cursor j).it = none := reads.onward
      obtain rfl : s = s'' := by simpa [Shared.step, it] using stepped
      simpa using reads
    | cons x rest =>
      obtain ⟨it, onward⟩ := reads.onward
      have stored := linear.stored x (reads.ahead List.mem_cons_self)
      obtain rfl := Except.ok.inj ((round_stored it stored).symm.trans stepped)
      refine ⟨?_, ?_, ?_⟩
      · simpa using reads.split
      · simpa using onward
      · exact fun y member => reads.ahead (List.mem_cons_of_mem _ member)

/-- A loop comes one node further with each of its rounds, whatever happens in between. -/
theorem Reads.replay {due rest : List (Addr × E)} {events : List (Event T I E)} (reads : s.Reads i due rest)
    (linear : s.Linear) (others : .begin i ∉ events)
    (replayed : Execution.replay Admissible Shared.step s events = some s') :
    s'.Reads i due (rest.drop (events.countP (Event.rounds i))) := by
  induction events generalizing s rest with
  | nil =>
    obtain rfl : s = s' := by simpa [Execution.replay] using replayed
    simpa using reads
  | cons e events ih =>
    simp only [Execution.replay] at replayed
    split at replayed
    next admissible =>
      obtain ⟨s₁, stepped, linear₁, _⟩ := linear.step admissible
      rw [stepped] at replayed
      have reads₁ := reads.step linear admissible (fun same => others (same ▸ List.mem_cons_self)) stepped
      have reads' := ih reads₁ linear₁ (fun member => others (List.mem_cons_of_mem _ member)) replayed
      cases own : e.rounds i with
      | false => simpa [own] using reads'
      | true => simpa [own, List.drop_tail] using reads'
    next => simp at replayed

/-- Whatever the threads do, the nodes whose `compare_exchange_weak` has succeeded are a list at
`head_`, each once; no step fails; and a loop that begins now, whatever happens between its rounds,
visits these nodes in order, one in each round, until it has visited all of them and ends. -/
theorem run_linear (run : Run s) :
    (Leads s.list.next s.list.head (s.pushed.map Prod.fst) none ∧ (s.pushed.map Prod.fst).Nodup ∧
      ∀ x ∈ s.pushed, s.list.element x.1 = some x.2) ∧
    (∀ e, s.Admissible e → ∃ s', s.step e = .ok s') ∧
    ∀ i events s', .begin i ∉ events → replay Admissible step s (.begin i :: events) = some s' →
      ∃ rest, s.pushed = (s'.cursor i).visited ++ rest ∧ ((s'.cursor i).it = none ↔ rest = []) ∧
        (s'.cursor i).visited.length = min (events.countP (Event.rounds i)) s.pushed.length := by
  have linear := run.linear
  refine ⟨⟨linear.chain, linear.nodup, linear.stored⟩, fun e admissible => ?_, fun i events s' others replayed => ?_⟩
  · obtain ⟨s', stepped, _⟩ := linear.step admissible
    exact ⟨s', stepped⟩
  · obtain ⟨s₁, stepped, linear₁, _⟩ := linear.step (e := .begin i) trivial
    simp only [replay, Admissible, if_true, stepped] at replayed
    have reads := Reads.replay (linear.begin_reads stepped) linear₁ others replayed
    refine ⟨_, reads.split, ?_, ?_⟩
    · rw [reads.onward.head]
      simp
    · have lengths := congrArg List.length reads.split
      simp only [List.length_append, List.length_drop] at lengths
      omega

end Runs

def empty : Shared T I E :=
  { list := .init, phase := fun _ => .idle, pushed := [], cursor := fun _ => { it := none, visited := [] } }

theorem fresh_empty : (empty : Shared T I E).Fresh := ⟨rfl, rfl, rfl, rfl⟩

/-- A loop that begins when one node is on the list visits that node, and not the one that
another thread pushes meanwhile. -/
theorem run_linear_late : ∃ s s' : Shared Bool Unit Nat, s.pushed = [(10, 1)] ∧ s'.pushed = [(11, 2), (10, 1)] ∧
    ∃ rest, s.pushed = (s'.cursor ()).visited ++ rest ∧ ((s'.cursor ()).it = none ↔ rest = []) ∧
      (s'.cursor ()).visited.length = 1 := by
  have computed : ((replay Admissible step (empty : Shared Bool Unit Nat)
      [.pushFront false 10 1, .advance false false, .pushFront true 11 2, .advance true false,
        .advance false false, .advance true false, .advance false false]).bind fun s =>
      (replay Admissible step s (.begin () :: [.advance true false, .advance true false, .advance true false,
        .advance true false, .round (), .advance true false])).map fun s' => (s.pushed, s'.pushed)) =
      some ([(10, 1)], [(11, 2), (10, 1)]) := by decide +kernel
  obtain ⟨s, replayed, later⟩ := Option.bind_eq_some_iff.mp computed
  obtain ⟨s', replayed', pushed⟩ := Option.map_eq_some_iff.mp later
  obtain ⟨pushed, pushed'⟩ := Prod.mk.inj pushed
  obtain ⟨_, _, loops⟩ := run_linear (replay_runs _ (.start fresh_empty) replayed)
  obtain ⟨rest, split, ends, length⟩ := loops () _ s' (by simp) replayed'
  exact ⟨s, s', pushed, pushed', rest, split, ends, by rw [length, pushed]; rfl⟩

end Shared

end LockFreeList

end SmallObject
