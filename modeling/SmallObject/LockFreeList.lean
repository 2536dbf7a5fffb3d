import SmallObject.Library.Chain
import SmallObject.Sys

/-! `list`: nodes that are pushed at the head, and erased at any position.

The operations here are whole ones, by a single thread: nothing else is between their
atomic steps. The interleavings are in `LockFreeList.Threads`.
-/

set_option autoImplicit false

namespace SmallObject

open Linked

structure ListNode (E : Type) where
  element : E
  prev : Ptr
  next : Ptr
  deriving DecidableEq, Repr

structure LockFreeList (E : Type) where
  head : Ptr
  nodes : Heap (ListNode E)

namespace LockFreeList

variable {E : Type}

def init : LockFreeList E := { head := none, nodes := ∅ }

/-! ## Atomic steps -/

/-- The constructor of a node, in memory that `allocate` returned. -/
def createNode (l : LockFreeList E) (node : Addr) (element : E) : LockFreeList E :=
  { l with nodes := l.nodes.insert node { element, prev := none, next := none } }

/-- An exchange answers whether the old link was not null, not which node it named. -/
def exchangeNext (l : LockFreeList E) (node next : Ptr) : Except Fault (Bool × LockFreeList E) := do
  let a ← nonNull node
  let cell ← deref l.nodes node
  .ok (cell.next.isSome, { l with nodes := l.nodes.insert a { cell with next } })

def exchangePrev (l : LockFreeList E) (node prev : Ptr) : Except Fault (Bool × LockFreeList E) := do
  let a ← nonNull node
  let cell ← deref l.nodes node
  .ok (cell.prev.isSome, { l with nodes := l.nodes.insert a { cell with prev } })

/-- `head_.compare_exchange_weak`; the weak form may fail though the values are equal. -/
def compareExchangeWeak (l : LockFreeList E) (oldHead newNode : Ptr) (spurious : Bool) : Bool × LockFreeList E :=
  if l.head = oldHead ∧ spurious = false then (true, { l with head := newNode }) else (false, l)

/-- A node that does not exist, or not any more, cannot be destroyed. -/
def destroyNode (l : LockFreeList E) (node : Addr) : Except Fault (LockFreeList E) := do
  let _ ← deref l.nodes (some node)
  .ok { l with nodes := l.nodes.erase node }

/-! ## Whole operations -/

/-- A round of the loop of `push_front`. -/
def attempt (l : LockFreeList E) (newNode : Addr) (spurious : Bool) : Except Fault (Bool × LockFreeList E) := do
  let oldHead := l.head
  -- the old head is linked back before the new node is published
  let l ← match oldHead with
    | none => .ok l
    | some _ => (l.exchangePrev oldHead (some newNode)).map Prod.snd
  let (_, l) ← l.exchangeNext (some newNode) oldHead
  .ok (l.compareExchangeWeak oldHead (some newNode) spurious)

/-- The rounds of `push_front`; `spurious` tells of each `compare_exchange_weak` in turn whether
it fails for no reason, and none does after these. -/
def pushFrom (l : LockFreeList E) (newNode : Addr) : List Bool → Except Fault (LockFreeList E)
  | [] => do
    let (linked, l) ← l.attempt newNode false
    if linked then .ok l else .error .endless
  | spurious :: rest => do
    let (linked, l) ← l.attempt newNode spurious
    if linked then .ok l else pushFrom l newNode rest

def pushFront (l : LockFreeList E) (node : Addr) (element : E) (spurious : List Bool) :
    Except Fault (LockFreeList E) :=
  (l.createNode node element).pushFrom node spurious

/-- `while (!prev->exchange_next(new_node))`: from the second round on, each round finds
what the one before has written. -/
def awaitNext (l : LockFreeList E) (prev newNode : Ptr) : Nat → Except Fault (LockFreeList E)
  | 0 => .error .endless
  | rounds + 1 => do
    let (linked, l) ← l.exchangeNext prev newNode
    if linked then .ok l else awaitNext l prev newNode rounds

def doInsertNode (l : LockFreeList E) (prev newNode : Ptr) : Except Fault (LockFreeList E) := do
  let (_, l) ← l.exchangePrev newNode prev
  l.awaitNext prev newNode 2

/-- `while (!node->exchange_prev(old_prev))`, with the last value of `old_prev`. -/
def awaitPrev (l : LockFreeList E) (node : Addr) (oldPrev : Ptr) : Nat → Except Fault (LockFreeList E × Ptr)
  | 0 => .error .endless
  | rounds + 1 => do
    let (linked, l) ← l.exchangePrev (some node) oldPrev
    if linked then .ok (l, oldPrev)
    else do
      let cell ← deref l.nodes (some node)
      awaitPrev l node cell.prev rounds

def doEraseNode (l : LockFreeList E) (node : Addr) : Except Fault (LockFreeList E) := do
  let cell ← deref l.nodes (some node)
  match cell.prev with
  -- a node without a previous one is destroyed and not taken out
  | none => l.destroyNode node
  | some oldPrev => do
    let (l, oldPrev) ← l.awaitPrev node (some oldPrev) 2
    let cell ← deref l.nodes (some node)
    let l ← l.doInsertNode oldPrev cell.next
    l.destroyNode node

/-- `erase`, at a position that an iterator names. -/
def erase (l : LockFreeList E) : Ptr → Except Fault (LockFreeList E)
  | none => .ok l
  | some node => l.doEraseNode node

/-! ## Iteration -/

/-- `*it` and `++it`: the element at a position, and the position after it. -/
def visit (l : LockFreeList E) (it : Addr) : Except Fault (E × Ptr) := do
  let cell ← deref l.nodes (some it)
  .ok (cell.element, cell.next)

/-- The elements from a position to `end()`, each with the node that it is in. -/
def walkFrom (l : LockFreeList E) : Nat → Ptr → Except Fault (List (Addr × E))
  | _, none => .ok []
  | 0, some _ => .error .endless
  | rounds + 1, some it => do
    let (element, next) ← l.visit it
    let rest ← walkFrom l rounds next
    .ok ((it, element) :: rest)

/-- A loop from `begin()` to `end()`; it visits no node twice if it ends at all. -/
def walk (l : LockFreeList E) : Except Fault (List (Addr × E)) := l.walkFrom l.nodes.keys.length l.head

/-! ## Links -/

/-- The links and the element of the node at an address; an address without a node has none. -/
def next (l : LockFreeList E) (a : Addr) : Ptr := (l.nodes.lookup a).bind ListNode.next

def prev (l : LockFreeList E) (a : Addr) : Ptr := (l.nodes.lookup a).bind ListNode.prev

def element (l : LockFreeList E) (a : Addr) : Option E := (l.nodes.lookup a).map ListNode.element

variable {l : LockFreeList E} {a : Addr} {e : E}

theorem cell_of_element (stored : l.element a = some e) :
    l.nodes.lookup a = some { element := e, prev := l.prev a, next := l.next a } := by
  obtain ⟨cell, found, rfl⟩ := Option.map_eq_some_iff.mp stored
  simp [prev, next, found]

theorem element_eq_none : l.element a = none ↔ l.nodes.lookup a = none := by
  simp [element]

theorem createNode_element (node : Addr) (e : E) :
    (l.createNode node e).element = Function.update l.element node (some e) := by
  funext b
  rcases eq_or_ne b node with rfl | other
  · simp [createNode, element]
  · simp [createNode, element, other]

theorem createNode_next (node : Addr) (e : E) : (l.createNode node e).next = Function.update l.next node none := by
  funext b
  rcases eq_or_ne b node with rfl | other
  · simp [createNode, next]
  · simp [createNode, next, other]

theorem createNode_prev (node : Addr) (e : E) : (l.createNode node e).prev = Function.update l.prev node none := by
  funext b
  rcases eq_or_ne b node with rfl | other
  · simp [createNode, prev]
  · simp [createNode, prev, other]

/-- An exchange of a link changes that link and nothing else. -/
theorem exchangeNext_links (stored : l.element a = some e) (p : Ptr) :
    ∃ l', l.exchangeNext (some a) p = .ok ((l.next a).isSome, l') ∧ l'.head = l.head ∧ l'.element = l.element ∧
      l'.prev = l.prev ∧ l'.next = Function.update l.next a p := by
  obtain ⟨cell, found, rfl⟩ := Option.map_eq_some_iff.mp stored
  refine ⟨{ l with nodes := l.nodes.insert a { cell with next := p } }, ?_, rfl, ?_, ?_, ?_⟩
  · simp [exchangeNext, deref_of_lookup found, next, found]
  all_goals
    funext b
    rcases eq_or_ne b a with rfl | other
    · simp [element, prev, next, found]
    · simp [element, prev, next, other]

theorem exchangePrev_links (stored : l.element a = some e) (p : Ptr) :
    ∃ l', l.exchangePrev (some a) p = .ok ((l.prev a).isSome, l') ∧ l'.head = l.head ∧ l'.element = l.element ∧
      l'.next = l.next ∧ l'.prev = Function.update l.prev a p := by
  obtain ⟨cell, found, rfl⟩ := Option.map_eq_some_iff.mp stored
  refine ⟨{ l with nodes := l.nodes.insert a { cell with prev := p } }, ?_, rfl, ?_, ?_, ?_⟩
  · simp [exchangePrev, deref_of_lookup found, prev, found]
  all_goals
    funext b
    rcases eq_or_ne b a with rfl | other
    · simp [element, prev, next, found]
    · simp [element, prev, next, other]

theorem destroyNode_links (stored : l.element a = some e) :
    ∃ l', l.destroyNode a = .ok l' ∧ l'.head = l.head ∧ l'.element = Function.update l.element a none ∧
      l'.next = Function.update l.next a none ∧ l'.prev = Function.update l.prev a none := by
  refine ⟨{ l with nodes := l.nodes.erase a }, ?_, rfl, ?_, ?_, ?_⟩
  · simp [destroyNode, deref_of_lookup (cell_of_element stored)]
  all_goals
    funext b
    rcases eq_or_ne b a with rfl | other
    · simp [element, prev, next]
    · simp [element, prev, next, other]

theorem visit_stored (stored : l.element a = some e) : l.visit a = .ok (e, l.next a) := by
  simp [visit, deref_of_lookup (cell_of_element stored)]

end LockFreeList

end SmallObject
