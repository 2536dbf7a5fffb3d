import SmallObject.Library.LinkedTree
import SmallObject.Sys
import SmallObject.RangeMap.Range

/-! The nodes of the range map: links, stored heights, rotations and the successor step.

The names of the two rotations are the source's: `rotateRight` lifts the right
child. Heights are values of `int8_t`; every conversion to that type goes through
the narrowing that the operation is given.
-/

set_option autoImplicit false

namespace SmallObject

open Linked

variable {K V : Type}

/-- What a node stores besides its links. -/
structure NodeData (K V : Type) where
  height : Int
  range : Range K
  mapped : V
  deriving DecidableEq, Repr

abbrev AvlTreeNode (K V : Type) := Cell (NodeData K V)

/-- The nodes that exist. -/
abbrev Nodes (K V : Type) := Heap (AvlTreeNode K V)

/-- More rounds than any walk along distinct nodes takes. -/
def rounds (h : Nodes K V) : Nat := h.keys.length + 1

theorem size_lt_rounds {h : Nodes K V} {top : Ptr} {t : LinkTree (NodeData K V)} (rep : Represents h top t)
    (nodup : t.addrs.Nodup) : t.size < rounds h :=
  Nat.lt_succ_of_le (rep.size_le nodup)

namespace AvlTreeNode

/-- The node made for a value: no links, and height zero. -/
def init (range : Range K) (mapped : V) : AvlTreeNode K V :=
  { top := none, left := none, right := none, load := { height := 0, range, mapped } }

def setLeft (h : Nodes K V) (self : Addr) (newLeft : Ptr) : Except Fault (Nodes K V) := do
  let n ← deref h (some self)
  let h := h.insert self { n with left := newLeft }
  match newLeft with
  | none => .ok h
  | some child => do
    let c ← deref h (some child)
    .ok (h.insert child { c with top := some self })

def setRight (h : Nodes K V) (self : Addr) (newRight : Ptr) : Except Fault (Nodes K V) := do
  let n ← deref h (some self)
  let h := h.insert self { n with right := newRight }
  match newRight with
  | none => .ok h
  | some child => do
    let c ← deref h (some child)
    .ok (h.insert child { c with top := some self })

def makeRoot (h : Nodes K V) (self : Addr) : Except Fault (Nodes K V) := do
  let n ← deref h (some self)
  .ok (h.insert self { n with top := none })

def height (h : Nodes K V) : Ptr → Except Fault Int
  | none => .ok 0
  | some node => do
    let n ← deref h (some node)
    .ok n.load.height

def fixHeight (narrow : Narrowing) (h : Nodes K V) (self : Addr) : Except Fault (Nodes K V) := do
  let n ← deref h (some self)
  let hl ← height h n.left
  let hr ← height h n.right
  -- the sum is an `int`, and it is converted to `int8_t` when it is stored
  let fixed ← narrow ((if hl > hr then hl else hr) + 1)
  .ok (h.insert self { n with load := { n.load with height := fixed } })

def factor (narrow : Narrowing) (h : Nodes K V) (self : Addr) : Except Fault Int := do
  let n ← deref h (some self)
  let hl ← height h n.left
  let hr ← height h n.right
  narrow (hl - hr)

def bFactor (narrow : Narrowing) (h : Nodes K V) : Ptr → Except Fault Int
  | none => .ok 0
  | some node => factor narrow h node

def rotateRight (narrow : Narrowing) (h : Nodes K V) (node : Addr) :
    Except Fault (Nodes K V × Addr) := do
  let n ← deref h (some node)
  let result ← nonNull n.right
  let r ← deref h (some result)
  -- the inner subtree goes over to the lower node
  let h ← setRight h node r.left
  let h ← setLeft h result (some node)
  let h ← fixHeight narrow h node
  let h ← fixHeight narrow h result
  .ok (h, result)

def rotateLeft (narrow : Narrowing) (h : Nodes K V) (node : Addr) :
    Except Fault (Nodes K V × Addr) := do
  let n ← deref h (some node)
  let result ← nonNull n.left
  let r ← deref h (some result)
  let h ← setLeft h node r.right
  let h ← setRight h result (some node)
  let h ← fixHeight narrow h node
  let h ← fixHeight narrow h result
  .ok (h, result)

/-- The double rotation is chosen by the factor of the lighter child, as in the source. -/
def balance (narrow : Narrowing) (h : Nodes K V) (p : Addr) : Except Fault (Nodes K V × Addr) := do
  let h ← fixHeight narrow h p
  let f ← bFactor narrow h (some p)
  if f = 2 then do
    -- the left subtree is the higher one, and the right one is asked
    let n ← deref h (some p)
    let inner ← bFactor narrow h n.right
    if inner < 0 then do
      let right ← nonNull n.right
      let (h, lifted) ← rotateRight narrow h right
      let h ← setRight h p (some lifted)
      rotateLeft narrow h p
    else rotateLeft narrow h p
  else if f = -2 then do
    -- the same on the other side
    let n ← deref h (some p)
    let inner ← bFactor narrow h n.left
    if inner > 0 then do
      let left ← nonNull n.left
      let (h, lifted) ← rotateLeft narrow h left
      let h ← setLeft h p (some lifted)
      rotateRight narrow h p
    else rotateRight narrow h p
  else .ok (h, p)

/-- `while (it->left()) it = it->left();` -/
def leftmost (h : Nodes K V) : Nat → Addr → Except Fault Addr
  | 0, _ => .error .endless
  | fuel + 1, it => do
    let n ← deref h (some it)
    match n.left with
    | none => .ok it
    | some next => leftmost h fuel next

/-- `while (it->right()) it = it->right();` -/
def rightmost (h : Nodes K V) : Nat → Addr → Except Fault Addr
  | 0, _ => .error .endless
  | fuel + 1, it => do
    let n ← deref h (some it)
    match n.right with
    | none => .ok it
    | some next => rightmost h fuel next

def incNode (h : Nodes K V) (start : Addr) : Except Fault Ptr := do
  let n ← deref h (some start)
  match n.right with
  | some right => do
    let result ← leftmost h (rounds h) right
    .ok (some result)
  | none =>
    match n.top with
    | none => .ok none
    | some top => do
      let t ← deref h (some top)
      if t.right = some start then
        -- one level is climbed here, and no further
        match t.top with
        | none => .ok none
        | some grand => do
          let g ← deref h (some grand)
          if g.left = some top then .ok (some grand) else .ok none
      else .ok (some top)

end AvlTreeNode

end SmallObject
