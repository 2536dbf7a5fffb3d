import SmallObject.Library.Execution
import SmallObject.LockFreeList

/-! `push_front` and `erase` by a single thread.

`erase` writes the links of the two nodes around the erased one. It is right where there
are two: it does not move `head_` past the head, and after the last node it follows a
null pointer.
-/

set_option autoImplicit false

namespace SmallObject

open Linked Chain Execution

namespace LockFreeList

variable {E : Type}

/-- The list holds these elements, each in its node, doubly linked, and there are no other nodes. -/
structure Holds (l : LockFreeList E) (xs : List (Addr × E)) : Prop where
  chain : Leads l.next l.head (xs.map Prod.fst) none
  back : Back l.prev none (xs.map Prod.fst)
  nodup : (xs.map Prod.fst).Nodup
  stored : ∀ x ∈ xs, l.element x.1 = some x.2
  only : ∀ a, l.element a ≠ none → a ∈ xs.map Prod.fst

theorem holds_init : (init : LockFreeList E).Holds [] := by
  constructor <;> simp [init, element]

variable {l : LockFreeList E} {xs : List (Addr × E)}

/-! ## Iteration -/

theorem walkFrom_leads {rounds : Nat} {p : Ptr} (leads : Leads l.next p (xs.map Prod.fst) none)
    (stored : ∀ x ∈ xs, l.element x.1 = some x.2) (enough : xs.length ≤ rounds) : l.walkFrom rounds p = .ok xs := by
  induction xs generalizing p rounds with
  | nil =>
    obtain rfl : p = none := leads
    cases rounds <;> rfl
  | cons x rest ih =>
    obtain ⟨rfl, onward⟩ := leads
    obtain ⟨rounds, rfl⟩ := Nat.exists_eq_add_of_le' (Nat.one_le_of_lt enough)
    have ahead := ih onward (fun y member => stored y (List.mem_cons_of_mem _ member)) (by simpa using enough)
    simp [walkFrom, visit_stored (stored x List.mem_cons_self), ahead]

theorem Holds.walk (holds : l.Holds xs) : l.walk = .ok xs := by
  apply walkFrom_leads holds.chain holds.stored
  rw [← List.length_map (f := Prod.fst)]
  apply length_le_cells holds.nodup
  intro a member
  obtain ⟨x, isX, rfl⟩ := List.mem_map.mp member
  exact ⟨_, cell_of_element (holds.stored x isX)⟩

/-! ## `push_front` -/

/-- During `push_front`: the back link of the head may name the new node already. -/
structure Pushing (l : LockFreeList E) (new : Addr × E) (xs : List (Addr × E)) : Prop where
  chain : Leads l.next l.head (xs.map Prod.fst) none
  back : ∃ above, Back l.prev above (xs.map Prod.fst)
  nodup : ((new :: xs).map Prod.fst).Nodup
  stored : ∀ x ∈ new :: xs, l.element x.1 = some x.2
  only : ∀ a, l.element a ≠ none → a ∈ (new :: xs).map Prod.fst
  first : l.prev new.1 = none

theorem Holds.create (holds : l.Holds xs) {node : Addr} (unused : l.nodes.lookup node = none) (e : E) :
    (l.createNode node e).Pushing (node, e) xs := by
  have away : ∀ a ∈ xs.map Prod.fst, a ≠ node := by
    intro a member here
    obtain ⟨x, isX, rfl⟩ := List.mem_map.mp member
    have stored := holds.stored x isX
    rw [here, element_eq_none.mpr unused] at stored
    simp at stored
  constructor
  · exact holds.chain.congr fun a member => by simp [createNode_next, away a member]
  · exact ⟨none, holds.back.congr fun a member => by simp [createNode_prev, away a member]⟩
  · exact List.nodup_cons.mpr ⟨fun member => away node member rfl, holds.nodup⟩
  · intro x member
    rcases List.mem_cons.mp member with rfl | old
    · simp [createNode_element]
    · simp [createNode_element, away x.1 (List.mem_map_of_mem old), holds.stored x old]
  · intro a there
    by_cases here : a = node
    · simp [here]
    · simp only [createNode_element, Function.update_of_ne here] at there
      exact List.mem_cons_of_mem _ (holds.only a there)
  · simp [createNode_prev]

/-- The two links that a round writes before `compare_exchange_weak`. -/
theorem Pushing.write {new : Addr × E} (pushing : l.Pushing new xs) (spurious : Bool) :
    ∃ l' : LockFreeList E, l.attempt new.1 spurious = .ok (l'.compareExchangeWeak l.head (some new.1) spurious) ∧
      l'.head = l.head ∧ l'.element = l.element ∧ l'.next = Function.update l.next new.1 l.head ∧
      Back l'.prev (some new.1) (xs.map Prod.fst) ∧ l'.prev new.1 = none := by
  have stored := pushing.stored new List.mem_cons_self
  unfold LockFreeList.attempt
  cases xs with
  | nil =>
    have head : l.head = none := pushing.chain
    obtain ⟨l', run, head', element, prev, next⟩ := exchangeNext_links stored none
    refine ⟨l', ?_, head', element, head ▸ next, trivial, by rw [prev]; exact pushing.first⟩
    simp [head, run]
  | cons x rest =>
    obtain ⟨head, _⟩ := pushing.chain
    obtain ⟨above, back⟩ := pushing.back
    obtain ⟨unlisted, listed⟩ := List.nodup_cons.mp pushing.nodup
    have apart : new.1 ≠ x.1 := fun same => unlisted (by simp [same])
    have others : ∀ a ∈ rest.map Prod.fst, a ≠ x.1 := fun a member same =>
      (List.nodup_cons.mp listed).1 (same ▸ member)
    -- the old head is linked back to the new node, and the new node forward to the old head
    obtain ⟨l₁, run₁, head₁, element₁, next₁, prev₁⟩ :=
      exchangePrev_links (pushing.stored x (by simp)) (some new.1)
    rw [← element₁] at stored
    obtain ⟨l₂, run₂, head₂, element₂, prev₂, next₂⟩ := exchangeNext_links stored (some x.1)
    refine ⟨l₂, ?_, head₂.trans head₁, element₂.trans element₁, by rw [next₂, next₁, head], ⟨?_, ?_⟩, ?_⟩
    · simp [head, run₁, run₂, Except.map]
    · simp [prev₂, prev₁]
    · exact back.2.congr fun a member => by simp [prev₂, prev₁, others a member]
    · simp [prev₂, prev₁, apart, pushing.first]

/-- A round fails only for no reason. -/
theorem Pushing.attempt {new : Addr × E} (pushing : l.Pushing new xs) (spurious : Bool) :
    ∃ l', l.attempt new.1 spurious = .ok (!spurious, l') ∧
      if spurious then l'.Pushing new xs else l'.Holds (new :: xs) := by
  obtain ⟨l', run, head, element, next, back, first⟩ := pushing.write spurious
  obtain ⟨unlisted, listed⟩ := List.nodup_cons.mp pushing.nodup
  have chain : Leads l'.next l.head (xs.map Prod.fst) none := pushing.chain.congr fun a member => by
    have away : a ≠ new.1 := fun same => unlisted (same ▸ member)
    simp [next, away]
  have stored : ∀ x ∈ new :: xs, l'.element x.1 = some x.2 := by simpa [element] using pushing.stored
  have only : ∀ a, l'.element a ≠ none → a ∈ (new :: xs).map Prod.fst := by simpa [element] using pushing.only
  cases spurious with
  | true =>
    refine ⟨l', by simp [run, compareExchangeWeak], ?_⟩
    exact ⟨head ▸ chain, ⟨_, back⟩, pushing.nodup, stored, only, first⟩
  | false =>
    refine ⟨{ l' with head := some new.1 }, by simp [run, compareExchangeWeak, head], ?_⟩
    refine ⟨⟨rfl, ?_⟩, ⟨first, back⟩, pushing.nodup, stored, only⟩
    have linked : l'.next new.1 = l.head := by simp [next]
    exact linked.symm ▸ chain

theorem Pushing.pushFrom {new : Addr × E} (pushing : l.Pushing new xs) (spurious : List Bool) :
    ∃ l', l.pushFrom new.1 spurious = .ok l' ∧ l'.Holds (new :: xs) := by
  induction spurious generalizing l with
  | nil =>
    obtain ⟨l', run, holds⟩ := pushing.attempt false
    exact ⟨l', by simp [LockFreeList.pushFrom, run], by simpa using holds⟩
  | cons fails rest ih =>
    obtain ⟨l', run, after⟩ := pushing.attempt fails
    cases fails with
    | false => exact ⟨l', by simp [LockFreeList.pushFrom, run], by simpa using after⟩
    | true =>
      obtain ⟨l'', again, holds⟩ := ih (by simpa using after)
      exact ⟨l'', by simp [LockFreeList.pushFrom, run, again], holds⟩

theorem Holds.pushFront (holds : l.Holds xs) {node : Addr} (unused : l.nodes.lookup node = none) (e : E)
    (spurious : List Bool) : ∃ l', l.pushFront node e spurious = .ok l' ∧ l'.Holds ((node, e) :: xs) :=
  (holds.create unused e).pushFrom spurious

/-! ## `erase` -/

/-- Not the first node of the list, and not the last one. -/
def Inner (l : LockFreeList E) (a : Addr) : Prop := l.head ≠ some a ∧ l.next a ≠ none

instance (l : LockFreeList E) (a : Addr) : Decidable (l.Inner a) := inferInstanceAs (Decidable (_ ∧ _))

/-- What `erase` is for: the list is walked as before but for the one element, it is doubly linked,
and the node is destroyed, with no link to it left. -/
def EraseMeets (l : LockFreeList E) (xs : List (Addr × E)) (a : Addr) : Prop :=
  ∃ l', l.erase (some a) = .ok l' ∧ l'.walk = .ok (xs.filter fun x => x.1 ≠ a) ∧
    (∃ nodes, Leads l'.next l'.head nodes none ∧ Doubly l'.next l'.prev l'.head nodes) ∧
    l'.element a = none ∧ l'.head ≠ some a ∧ ∀ b, l'.prev b ≠ some a

/-- The three exchanges and the destruction, at a node between two others. -/
theorem erase_links {x y z : Addr × E} (storedX : l.element x.1 = some x.2) (storedY : l.element y.1 = some y.2)
    (storedZ : l.element z.1 = some z.2) (nextX : l.next x.1 = some y.1) (nextY : l.next y.1 = some z.1)
    (prevY : l.prev y.1 = some x.1) :
    ∃ l', l.erase (some y.1) = .ok l' ∧ l'.head = l.head ∧ l'.element = Function.update l.element y.1 none ∧
      l'.next = Function.update (Function.update l.next x.1 (some z.1)) y.1 none ∧
      l'.prev = Function.update (Function.update (Function.update l.prev y.1 (some x.1)) z.1 (some x.1)) y.1 none := by
  obtain ⟨l₁, run₁, head₁, element₁, next₁, prev₁⟩ := exchangePrev_links storedY (some x.1)
  obtain ⟨l₂, run₂, head₂, element₂, next₂, prev₂⟩ :=
    exchangePrev_links (element₁ ▸ storedZ : l₁.element z.1 = some z.2) (some x.1)
  obtain ⟨l₃, run₃, head₃, element₃, prev₃, next₃⟩ :=
    exchangeNext_links (element₂ ▸ element₁ ▸ storedX : l₂.element x.1 = some x.2) (some z.1)
  obtain ⟨l₄, run₄, head₄, element₄, next₄, prev₄⟩ :=
    destroyNode_links (element₃ ▸ element₂ ▸ element₁ ▸ storedY : l₃.element y.1 = some y.2)
  have cell := cell_of_element storedY
  have cell₁ := cell_of_element (element₁ ▸ storedY : l₁.element y.1 = some y.2)
  refine ⟨l₄, ?_, by rw [head₄, head₃, head₂, head₁], by rw [element₄, element₃, element₂, element₁],
    by rw [next₄, next₃, next₂, next₁], by rw [prev₄, prev₃, prev₂, prev₁]⟩
  -- no loop takes a second round: the links that are exchanged are not null
  simp [erase, doEraseNode, awaitPrev, doInsertNode, awaitNext, deref_of_lookup cell, deref_of_lookup cell₁, prevY,
    nextX, nextY, next₁, next₂, run₁, run₂, run₃, run₄]

/-- The node between two others is taken out. -/
theorem Holds.erase_inner {pre post : List (Addr × E)} {x y z : Addr × E}
    (holds : l.Holds (pre ++ x :: y :: z :: post)) :
    ∃ l', l.erase (some y.1) = .ok l' ∧ l'.Holds (pre ++ x :: z :: post) := by
  obtain ⟨chain, back, nodup, stored, only⟩ := holds
  simp only [List.map_append, List.map_cons] at chain back nodup only
  have nextY : l.next y.1 = some z.1 := by
    have split : Leads l.next l.head ((pre.map Prod.fst ++ [x.1]) ++ y.1 :: z.1 :: post.map Prod.fst) none := by
      simpa using chain
    exact split.next_eq
  have prevY : l.prev y.1 = some x.1 := by
    have split : Back l.prev none ((pre.map Prod.fst ++ [x.1]) ++ y.1 :: z.1 :: post.map Prod.fst) := by
      simpa using back
    simpa using split.prev_eq
  have after := (List.nodup_append.mp nodup).2.1
  simp only [List.nodup_cons, List.mem_cons, not_or] at after
  obtain ⟨⟨xy, _, _⟩, ⟨yz, _⟩, _⟩ := after
  obtain ⟨l', run, head, element, next, prev⟩ := erase_links (stored x (by simp)) (stored y (by simp))
    (stored z (by simp)) chain.next_eq nextY prevY
  have kept : (pre ++ x :: z :: post).Sublist (pre ++ x :: y :: z :: post) := by
    simp
  have apart : ∀ a ∈ (pre ++ x :: z :: post).map Prod.fst, a ≠ y.1 := by
    intro a member same
    subst same
    have twice := List.nodup_middle.mp (by simpa using nodup :
      ((pre ++ [x]).map Prod.fst ++ y.1 :: (z :: post).map Prod.fst).Nodup)
    exact (List.nodup_cons.mp twice).1 (by simpa using member)
  refine ⟨l', run, ?_, ?_, ?_, ?_, ?_⟩
  -- the forward links, the backward links, and then which nodes there are
  · rw [head, List.map_append]
    exact chain.unlink nodup (by simp [next, xy]) fun d notX notY => by simp [next, notX, notY]
  · rw [List.map_append]
    exact back.unlink nodup (by simp [prev, Ne.symm yz]) fun d notY notZ => by simp [prev, notY, notZ]
  · exact (kept.map Prod.fst).nodup (by simpa using nodup)
  · intro w member
    rw [element, Function.update_of_ne (apart w.1 (List.mem_map_of_mem member))]
    exact stored w (kept.subset member)
  · intro a there
    rw [element] at there
    by_cases here : a = y.1
    · simp [here] at there
    · rw [Function.update_of_ne here] at there
      have member := only a there
      simp only [List.map_append, List.map_cons, List.mem_append, List.mem_cons] at member ⊢
      tauto

/-- No link leads out of the list. -/
theorem Holds.prev_inside (holds : l.Holds xs) {a b : Addr} (prev : l.prev b = some a) : a ∈ xs.map Prod.fst := by
  have there : b ∈ xs.map Prod.fst := holds.only b fun absent => by
    simp [LockFreeList.prev, element_eq_none.mp absent] at prev
  obtain ⟨before, after, split⟩ := List.append_of_mem there
  have last := (split ▸ holds.back).prev_eq
  exact split ▸ List.mem_append_left _ (List.mem_of_mem_getLast? (last.symm.trans prev))

theorem Holds.inner_split (holds : l.Holds xs) {y : Addr × E} (member : y ∈ xs) (inner : l.Inner y.1) :
    ∃ pre x z post, xs = pre ++ x :: y :: z :: post := by
  obtain ⟨before, after, rfl⟩ := List.append_of_mem member
  obtain ⟨notHead, notLast⟩ := inner
  have chain := holds.chain
  simp only [List.map_append, List.map_cons] at chain
  rcases List.eq_nil_or_concat before with rfl | ⟨pre, x, rfl⟩
  · exact absurd chain.head notHead
  · cases after with
    | nil => exact absurd chain.next_eq notLast
    | cons z post => exact ⟨pre, x, z, post, by simp⟩

/-- `erase` at an inner node leaves the rest. -/
theorem Holds.erase_rest (holds : l.Holds xs) {y : Addr × E} (member : y ∈ xs) (inner : l.Inner y.1) :
    ∃ l', l.erase (some y.1) = .ok l' ∧ l'.Holds (xs.filter fun x => x.1 ≠ y.1) := by
  obtain ⟨pre, x, z, post, rfl⟩ := holds.inner_split member inner
  obtain ⟨l', run, holds'⟩ := holds.erase_inner
  have twice := List.nodup_middle.mp (by simpa using holds.nodup :
    ((pre ++ [x]).map Prod.fst ++ y.1 :: (z :: post).map Prod.fst).Nodup)
  have others : ∀ w ∈ pre ++ x :: z :: post, w.1 ≠ y.1 := fun w inside same =>
    (List.nodup_cons.mp twice).1 (same ▸ by simpa using List.mem_map_of_mem (f := Prod.fst) inside)
  have rest : (pre ++ x :: y :: z :: post).filter (fun w => w.1 ≠ y.1) = pre ++ x :: z :: post := by
    have filtered := List.filter_eq_self.mpr fun w inside => decide_eq_true (others w inside)
    simp only [List.filter_append, List.filter_cons] at filtered ⊢
    simpa using filtered
  exact ⟨l', run, rest ▸ holds'⟩

theorem Holds.meets_inner (holds : l.Holds xs) {y : Addr × E} (member : y ∈ xs) (inner : l.Inner y.1) :
    l.EraseMeets xs y.1 := by
  obtain ⟨l', run, holds'⟩ := holds.erase_rest member inner
  have gone : y.1 ∉ (xs.filter fun x => x.1 ≠ y.1).map Prod.fst := by simp
  refine ⟨l', run, holds'.walk, ⟨_, holds'.chain, holds'.back.doubly holds'.chain⟩, ?_, fun head => ?_,
    fun b prev => gone (holds'.prev_inside prev)⟩
  · by_contra there
    exact gone (holds'.only y.1 there)
  · exact gone (List.mem_of_mem_head? (holds'.chain.head.symm.trans head))

/-- The head is destroyed, and `head_` still names it. -/
theorem Holds.erase_head (holds : l.Holds xs) {y : Addr × E} (member : y ∈ xs) (head : l.head = some y.1) :
    ∃ l', l.erase (some y.1) = .ok l' ∧ l'.head = some y.1 := by
  have stored := holds.stored y member
  have prev := (holds.back.doubly holds.chain).first y.1 head
  obtain ⟨l', run, head', _⟩ := destroyNode_links stored
  exact ⟨l', by simp [erase, doEraseNode, deref_of_lookup (cell_of_element stored), prev, run], head'.trans head⟩

/-- At the last node, the node after it is dereferenced, and there is none. -/
theorem Holds.erase_last (holds : l.Holds xs) {y : Addr × E} (member : y ∈ xs) (inside : l.head ≠ some y.1)
    (last : l.next y.1 = none) : l.erase (some y.1) = .error .null := by
  have stored := holds.stored y member
  obtain ⟨before, after, rfl⟩ := List.append_of_mem member
  have chain := holds.chain
  have back := holds.back
  simp only [List.map_append, List.map_cons] at chain back
  obtain ⟨x, prev⟩ : ∃ x, l.prev y.1 = some x := by
    rcases List.eq_nil_or_concat before with rfl | ⟨pre, x, rfl⟩
    · exact absurd chain.head inside
    · exact ⟨x.1, by simpa using back.prev_eq⟩
  obtain ⟨l₁, run₁, _, element₁, next₁, _⟩ := exchangePrev_links stored (some x)
  have cell₁ := cell_of_element (element₁ ▸ stored : l₁.element y.1 = some y.2)
  have refused : ∀ l' : LockFreeList E, l'.exchangePrev none (some x) = .error .null := fun _ => rfl
  simp [erase, doEraseNode, awaitPrev, doInsertNode, deref_of_lookup (cell_of_element stored), deref_of_lookup cell₁,
    prev, next₁, last, run₁, refused]

theorem Holds.erase_meets_iff (holds : l.Holds xs) {y : Addr × E} (member : y ∈ xs) :
    l.EraseMeets xs y.1 ↔ l.Inner y.1 := by
  constructor
  · rintro ⟨l', run, _, _, _, elsewhere, _⟩
    have notHead : l.head ≠ some y.1 := by
      intro head
      obtain ⟨l'', run', dangling⟩ := holds.erase_head member head
      obtain rfl : l'' = l' := Except.ok.inj (run'.symm.trans run)
      exact elsewhere dangling
    refine ⟨notHead, fun last => ?_⟩
    simp [holds.erase_last member notHead last] at run
  · exact holds.meets_inner member

/-! ## Runs -/

/-- What a program does with a list. -/
inductive Update (E : Type) where
  | pushFront (node : Addr) (element : E) (spurious : List Bool)
  | erase (node : Addr)

/-- The sequence after an update. -/
def after (xs : List (Addr × E)) : Update E → List (Addr × E)
  | .pushFront node element _ => (node, element) :: xs
  | .erase node => xs.filter fun x => x.1 ≠ node

def apply (l : LockFreeList E) : Update E → Except Fault (LockFreeList E)
  | .pushFront node element spurious => l.pushFront node element spurious
  | .erase node => l.erase (some node)

/-- An update of the list, and of the sequence that it stands for. -/
def update (s : LockFreeList E × List (Addr × E)) (u : Update E) : Except Fault (LockFreeList E × List (Addr × E)) := do
  let l ← s.1.apply u
  .ok (l, after s.2 u)

/-- `allocate` does not return the address of a node that exists; the nodes that are erased are
inner ones of the list. -/
def Erasable (s : LockFreeList E × List (Addr × E)) : Update E → Prop
  | .pushFront node _ _ => s.1.nodes.lookup node = none
  | .erase node => node ∈ s.2.map Prod.fst ∧ s.1.Inner node

instance (s : LockFreeList E × List (Addr × E)) (u : Update E) : Decidable (Erasable s u) :=
  match u with
  | .pushFront _ _ _ => decidable_of_iff _ Option.isNone_iff_eq_none
  | .erase _ => inferInstanceAs (Decidable (_ ∧ _))

theorem Holds.update {s s' : LockFreeList E × List (Addr × E)} {u : Update E} (holds : s.1.Holds s.2)
    (erasable : Erasable s u) (run : LockFreeList.update s u = .ok s') : s'.1.Holds s'.2 := by
  obtain ⟨l', updated, rest⟩ := bind_eq_ok run
  obtain rfl := Except.ok.inj rest
  cases u with
  | pushFront node element spurious =>
    obtain ⟨l'', pushed, holds'⟩ := holds.pushFront erasable element spurious
    obtain rfl : l'' = l' := Except.ok.inj (pushed.symm.trans updated)
    exact holds'
  | erase node =>
    obtain ⟨listed, inner⟩ := erasable
    obtain ⟨x, member, rfl⟩ := List.mem_map.mp listed
    obtain ⟨l'', erased, holds'⟩ := holds.erase_rest member inner
    obtain rfl : l'' = l' := Except.ok.inj (erased.symm.trans updated)
    exact holds'

def Run : LockFreeList E × List (Addr × E) → Prop := Runs (fun s => s = (init, [])) Erasable LockFreeList.update

theorem Run.holds {s : LockFreeList E × List (Addr × E)} (run : Run s) : s.1.Holds s.2 := by
  apply run.invariant
  · rintro s rfl
    exact holds_init
  · exact fun s u s' holds erasable stepped => holds.update erasable stepped

/-- After pushes, and erasures of inner nodes, the list is walked as the sequence that it stands for,
and `erase` does what it is for at the inner nodes, and at no other ones. -/
theorem run_erases (run : Run (l, xs)) : l.walk = .ok xs ∧ ∀ x ∈ xs, l.EraseMeets xs x.1 ↔ l.Inner x.1 :=
  ⟨run.holds.walk, fun _ member => run.holds.erase_meets_iff member⟩

theorem run_erases_four : ∃ l : LockFreeList Nat, l.walk = .ok [(13, 4), (11, 2), (10, 1)] ∧
    (l.EraseMeets [(13, 4), (11, 2), (10, 1)] 11 ↔ l.Inner 11) := by
  have computed : (replay Erasable LockFreeList.update ((init, []) : LockFreeList Nat × List (Addr × Nat))
      [.pushFront 10 1 [], .pushFront 11 2 [true], .pushFront 12 3 [], .pushFront 13 4 [true, true],
        .erase 12]).map (fun s => s.2) = some [(13, 4), (11, 2), (10, 1)] := by decide +kernel
  obtain ⟨⟨l, xs⟩, replayed, rfl⟩ := Option.map_eq_some_iff.mp computed
  obtain ⟨walk, meets⟩ := run_erases (replay_runs _ (.start rfl) replayed)
  exact ⟨l, walk, meets (11, 2) (by simp)⟩

/-- Neither the first of three nodes nor the last one is erased as it should be. -/
theorem erase_ends_astray : ∃ (l : LockFreeList Nat) (xs : List (Addr × Nat)), Run (l, xs) ∧
    xs.map Prod.fst = [12, 11, 10] ∧ ¬ l.EraseMeets xs 12 ∧ ¬ l.EraseMeets xs 10 := by
  have computed : (replay Erasable LockFreeList.update ((init, []) : LockFreeList Nat × List (Addr × Nat))
      [.pushFront 10 1 [], .pushFront 11 2 [], .pushFront 12 3 []]).map (fun s =>
        (s.2, decide (s.1.Inner 12), decide (s.1.Inner 10))) =
      some ([(12, 3), (11, 2), (10, 1)], false, false) := by decide +kernel
  obtain ⟨⟨l, xs⟩, replayed, reached⟩ := Option.map_eq_some_iff.mp computed
  obtain ⟨rfl, first, last⟩ : xs = [(12, 3), (11, 2), (10, 1)] ∧ ¬ l.Inner 12 ∧ ¬ l.Inner 10 := by
    simpa using reached
  have run : Run (l, _) := replay_runs _ (.start rfl) replayed
  refine ⟨l, _, run, rfl, fun meets => first ?_, fun meets => last ?_⟩
  · exact (run.holds.erase_meets_iff (y := (12, 3)) (by simp)).mp meets
  · exact (run.holds.erase_meets_iff (y := (10, 1)) (by simp)).mp meets

end LockFreeList

end SmallObject
