import SmallObject.RangeMap.AvlTreeNode

/-! `basic_range_map`: lookup, insertion, erasure and destruction on linked nodes.

The address of a new node is what `sys::xmalloc` returns for it, and is an argument
of the operation that may create one; null makes the node allocator throw.
-/

set_option autoImplicit false

namespace SmallObject

open Linked AvlTreeNode

variable {K V : Type} [LinearOrder K]

structure RangeMap (K V : Type) where
  nodes : Nodes K V
  root : Ptr

namespace RangeMap

def init : RangeMap K V := { nodes := ∅, root := none }

/-- The node that `begin()` designates. -/
def begin (m : RangeMap K V) : Except Fault Ptr :=
  match m.root with
  | none => .ok none
  | some root => do
    let first ← leftmost m.nodes (rounds m.nodes) root
    .ok (some first)

/-- `operator++` of an iterator. -/
def increment (m : RangeMap K V) : Ptr → Except Fault Ptr
  | none => .ok none
  | some node => incNode m.nodes node

/-- The nodes that `for (it = begin(); it != end(); ++it)` visits from a position on. -/
def visitFrom (m : RangeMap K V) : Nat → Ptr → Except Fault (List Addr)
  | _, none => .ok []
  | 0, some _ => .error .endless
  | fuel + 1, some it => do
    let next ← m.increment (some it)
    let rest ← visitFrom m fuel next
    .ok (it :: rest)

def visited (m : RangeMap K V) : Except Fault (List Addr) := do
  let first ← m.begin
  m.visitFrom (rounds m.nodes) first

def findFrom (h : Nodes K V) (key : K) : Nat → Ptr → Except Fault Ptr
  | _, none => .ok none
  | 0, some _ => .error .endless
  | fuel + 1, some it => do
    let n ← deref h (some it)
    let compare := n.load.range.compareToKey key
    if compare = 0 then .ok (some it)
    else if compare < 0 then findFrom h key fuel n.left
    else findFrom h key fuel n.right

def findNode (m : RangeMap K V) (key : K) : Except Fault Ptr :=
  findFrom m.nodes key (rounds m.nodes) m.root

def find (m : RangeMap K V) (key : K) : Except Fault Ptr := m.findNode key

def empty (m : RangeMap K V) : Bool := m.root.isNone

def createNode (h : Nodes K V) (memory : Ptr) (range : Range K) (mapped : V) :
    Except Fault (Nodes K V × Addr) :=
  match memory with
  | none => .error .badAlloc
  | some a => .ok (h.insert a (AvlTreeNode.init range mapped), a)

def destroyNode (h : Nodes K V) (node : Addr) : Except Fault (Nodes K V) := do
  let _ ← deref h (some node)
  .ok (h.erase node)

def doInsertLeft (h : Nodes K V) (memory : Ptr) (node : Addr) (range : Range K) (mapped : V) :
    Except Fault (Nodes K V × Bool) := do
  let n ← deref h (some node)
  match n.left with
  | none => do
    let (h, a) ← createNode h memory range mapped
    let h ← setLeft h node (some a)
    .ok (h, true)
  | some _ => .ok (h, false)

def doInsertRight (h : Nodes K V) (memory : Ptr) (node : Addr) (range : Range K) (mapped : V) :
    Except Fault (Nodes K V × Bool) := do
  let n ← deref h (some node)
  match n.right with
  | none => do
    let (h, a) ← createNode h memory range mapped
    let h ← setRight h node (some a)
    .ok (h, true)
  | some _ => .ok (h, false)

/-- The parent that the new node was hung under, or null when the range was rejected. -/
def doInsertNode (h : Nodes K V) (memory : Ptr) (range : Range K) (mapped : V) :
    Nat → Addr → Except Fault (Nodes K V × Ptr)
  | 0, _ => .error .endless
  | fuel + 1, it => do
    let n ← deref h (some it)
    let compare := range.compareTo n.load.range
    if compare = 0 then .ok (h, none)
    else if compare = 1 then do
      let (h', inserted) ← doInsertRight h memory it range mapped
      if inserted then .ok (h', some it)
      else do
        let next ← nonNull n.right
        doInsertNode h memory range mapped fuel next
    else do
      let (h', inserted) ← doInsertLeft h memory it range mapped
      if inserted then .ok (h', some it)
      else do
        let next ← nonNull n.left
        doInsertNode h memory range mapped fuel next

/-- `if (it == top->left()) top->set_left(p); else top->set_right(p);` once the test is known. -/
def hang (h : Nodes K V) (isLeft : Bool) (top : Addr) (p : Ptr) : Except Fault (Nodes K V) :=
  if isLeft then setLeft h top p else setRight h top p

/-- The loop of `do_rebalance_from`: every node below the root is balanced and hung
back under its parent. The node it ends at has no parent. -/
def climb (narrow : Narrowing) : Nat → Nodes K V → Addr → Except Fault (Nodes K V × Addr)
  | 0, _, _ => .error .endless
  | fuel + 1, h, it => do
    let n ← deref h (some it)
    match n.top with
    | none => .ok (h, it)
    | some top => do
      let t ← deref h (some top)
      let (h, balanced) ← balance narrow h it
      let h ← hang h (t.left == some it) top (some balanced)
      climb narrow fuel h top

def doRebalanceFrom (narrow : Narrowing) (h : Nodes K V) (start : Addr) :
    Except Fault (RangeMap K V) := do
  let (h, it) ← climb narrow (rounds h) h start
  let (h, root) ← balance narrow h it
  let h ← makeRoot h root
  .ok { nodes := h, root := some root }

def insertNode (narrow : Narrowing) (m : RangeMap K V) (memory : Ptr) (range : Range K) (mapped : V) :
    Except Fault (RangeMap K V × Bool) :=
  match m.root with
  | none => do
    let (h, a) ← createNode m.nodes memory range mapped
    .ok ({ nodes := h, root := some a }, true)
  | some root => do
    let (h, insertedInto) ← doInsertNode m.nodes memory range mapped (rounds m.nodes) root
    -- the way up starts at the parent, so that the height of the new leaf stays zero
    match insertedInto with
    | some into => do
      let m ← doRebalanceFrom narrow h into
      .ok (m, true)
    | none => .ok (m, false)

def insert (narrow : Narrowing) (m : RangeMap K V) (memory : Ptr) (min max : K) (val : V) :
    Except Fault (RangeMap K V × Bool) :=
  insertNode narrow m memory { min, max } val

/-- Hang another node where a child hangs. -/
def replaceChild (h : Nodes K V) (top node : Addr) (other : Ptr) : Except Fault (Nodes K V) := do
  let t ← deref h (some top)
  hang h (t.left == some node) top other

def doEraseNode (narrow : Narrowing) (m : RangeMap K V) (node : Addr) :
    Except Fault (RangeMap K V) := do
  let n ← deref m.nodes (some node)
  match n.left, n.right, n.top with
  | none, none, none =>
    -- the source returns here, before the node is destroyed
    .ok { m with root := none }
  | none, none, some top => do
    let h ← replaceChild m.nodes top node none
    let h ← destroyNode h node
    doRebalanceFrom narrow h top
  | some left, none, some top => do
    let h ← replaceChild m.nodes top node (some left)
    let h ← destroyNode h node
    doRebalanceFrom narrow h top
  | some left, none, none => do
    let h ← makeRoot m.nodes left
    let h ← destroyNode h node
    doRebalanceFrom narrow h left
  | none, some right, some top => do
    let h ← replaceChild m.nodes top node (some right)
    let h ← destroyNode h node
    doRebalanceFrom narrow h top
  | none, some right, none => do
    let h ← makeRoot m.nodes right
    let h ← destroyNode h node
    doRebalanceFrom narrow h right
  -- the right subtree goes under the last node of the left one
  | some left, some right, top => do
    let last ← rightmost m.nodes (rounds m.nodes) left
    let h ← setRight m.nodes last (some right)
    match top with
    | some top => do
      let h ← replaceChild h top node (some left)
      let h ← destroyNode h node
      doRebalanceFrom narrow h last
    | none => do
      -- at the root the way up starts at the left child, above the node that has changed
      let h ← makeRoot h left
      let h ← destroyNode h node
      doRebalanceFrom narrow h left

def erase (narrow : Narrowing) (m : RangeMap K V) : Ptr → Except Fault (RangeMap K V)
  | none => .ok m
  | some node => doEraseNode narrow m node

def doDestroyTree : Nat → Nodes K V → Ptr → Except Fault (Nodes K V)
  | _, h, none => .ok h
  | 0, _, some _ => .error .endless
  | fuel + 1, h, some it => do
    let it ← rightmost h (rounds h) it
    let it ← leftmost h (rounds h) it
    let n ← deref h (some it)
    match n.right with
    | some right => doDestroyTree fuel h (some right)
    | none =>
      match n.top with
      -- the root is the last node, and it has no child left
      | none => doDestroyTree fuel h n.left
      | some top => do
        let t ← deref h (some top)
        let h ← hang h (t.left == some it) top none
        let h ← destroyNode h it
        doDestroyTree fuel h (some top)

def clear (m : RangeMap K V) : Except Fault (RangeMap K V) :=
  match m.root with
  | none => .ok m
  | some root => do
    let h ← doDestroyTree (2 * rounds m.nodes) m.nodes (some root)
    -- the walk leaves the root itself
    let h ← destroyNode h root
    .ok { nodes := h, root := none }

end RangeMap

end SmallObject
