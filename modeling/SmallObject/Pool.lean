import Mathlib.Logic.Function.Basic
import SmallObject.Arena

/-! `pool`: the arenas of one block size, each reserved by at most one thread.

The operations here are whole ones: a thread that calls one of them is alone until the
call returns. Their single steps are in `Pool.Threads`.
-/

set_option autoImplicit false

namespace SmallObject

open Linked

/-- What the threads share: the memory and the arenas in it. -/
structure Process where
  mem : Memory
  objects : Heap Arena

/-- What the allocators of the system return during a call: for a new arena, for its first
chunk and the node of it, for the node of the list of arenas, and for one more chunk and
the node of that. The vector of `shrink` gets memory for so many chunks. -/
structure Supply where
  object : Ptr
  first : Ptr
  firstNode : Ptr
  link : Ptr
  region : Ptr
  node : Ptr
  room : Nat
  deriving DecidableEq, Repr

/-- The memory of a `new` expression, or of a node. -/
def newObject : Ptr → Except Fault Addr
  | none => .error .badAlloc
  | some ar => .ok ar

/-- The thread specific pointer, one for each thread, and the list, the latest arena first. -/
structure Pool (T : Type) where
  arena : T → Ptr
  arenas : List Addr

namespace Pool

variable {T : Type}

def init : Pool T := { arena := fun _ => none, arenas := [] }

section Reserve

variable [DecidableEq T]

/-- The thread specific pointer of the calling thread is set. -/
def reset (self : Pool T) (t : T) (ar : Ptr) : Pool T :=
  { self with arena := Function.update self.arena t ar }

def pushFront (self : Pool T) (ar : Addr) : Pool T := { self with arenas := ar :: self.arenas }

/-- The loop of `reserve`: the first arena in the list whose flag is clear. -/
def scan (objects : Heap Arena) : List Addr → Except Fault (Heap Arena × Ptr)
  | [] => .ok (objects, none)
  | it :: rest => do
    let ar ← deref objects (some it)
    let (won, ar) := ar.reserve
    if won then .ok (objects.insert it ar, some it) else scan (objects.insert it ar) rest

def reserve (process : Process) (self : Pool T) (t : T) (size : Nat) (supply : Supply) :
    Except Fault (Process × Pool T) := do
  let (objects, won) ← scan process.objects self.arenas
  let self := if won.isSome then self.reset t won else self
  -- the pointer is asked, not what the loop has found
  match self.arena t with
  | some _ => .ok ({ process with objects }, self)
  | none => do
    let ar ← newObject supply.object
    let (mem, arena) ← Arena.init process.mem size supply.first supply.firstNode
    let _ ← newObject supply.link
    .ok ({ mem, objects := objects.insert ar arena }, (self.reset t (some ar)).pushFront ar)

/-- `malloc`; the size matters only when the thread has no arena yet. -/
def malloc (process : Process) (self : Pool T) (t : T) (size : Nat) (supply : Supply) :
    Except Fault (Reply × Process × Pool T) := do
  let reserved := if (self.arena t).isNone then self.reserve process t size supply else .ok (process, self)
  let (process, self) ← reserved
  let ar ← nonNull (self.arena t)
  let arena ← deref process.objects (some ar)
  let (reply, mem, arena) ← arena.malloc process.mem supply.region supply.node
  .ok (reply, { mem, objects := process.objects.insert ar arena }, self)

end Reserve

/-- `free` on one of the arenas. `synch_free` is the same call under a lock. -/
def freeIn (process : Process) (ar ptr : Addr) : Except Fault (Bool × Process) := do
  let arena ← deref process.objects (some ar)
  let (released, mem, arena) ← arena.free process.mem ptr
  .ok (released, { mem, objects := process.objects.insert ar arena })

/-- The list is gone through until an arena takes the block. It is a `do` loop: the first
element is used before the end of the list is looked for. -/
def threadMissFree (process : Process) (ptr : Addr) : List Addr → Except Fault Process
  | [] => .error .null
  | it :: rest => do
    let (released, process) ← freeIn process it ptr
    if released || rest.isEmpty then .ok process else threadMissFree process ptr rest

/-- `free`; the arena of the calling thread is used without a test for null. -/
def free (process : Process) (self : Pool T) (t : T) (ptr : Addr) : Except Fault Process := do
  let ar ← nonNull (self.arena t)
  let (released, process) ← freeIn process ar ptr
  if released then .ok process else threadMissFree process ptr self.arenas

/-- The cleanup function. -/
def releaseArena (process : Process) (ar : Addr) (room : Nat) (nodes : List Ptr) (region node : Ptr) :
    Except Fault Process := do
  let arena ← deref process.objects (some ar)
  let (mem, arena) ← arena.shrink process.mem room nodes region node
  .ok { mem, objects := process.objects.insert ar arena.release }

/-- A thread ends: its pointer is cleaned up if it is not null. -/
def exit [DecidableEq T] (process : Process) (self : Pool T) (t : T) (room : Nat) (nodes : List Ptr)
    (region node : Ptr) : Except Fault (Process × Pool T) :=
  match self.arena t with
  | none => .ok (process, self)
  | some ar => do
    let process ← releaseArena process ar room nodes region node
    .ok (process, self.reset t none)

end Pool

end SmallObject
