import SmallObject.Chunk
import SmallObject.RangeMap.BasicRangeMap

/-! `arena`: chunks of one block size, found by address in a range map.

Chunks are objects in memory that the arenas of a process share. What `sys::xmalloc`
returns is an argument of the operation that calls it: a region for a chunk, and an
address for a node of the range map. The locks are not modelled here; they do nothing
to a call that runs alone.
-/

set_option autoImplicit false

namespace SmallObject

open Linked

/-- The memory of the process: its bytes, the chunks that exist, and the regions that
were given back, the latest first. -/
structure Memory where
  bytes : Bytes
  chunks : Heap Chunk
  freed : List Addr

structure Arena where
  blockSize : Nat
  chunks : RangeMap Addr Addr
  allocCurrent : Ptr
  freeCurrent : Ptr
  reserved : Bool

/-- How a call that may throw ends. -/
inductive Reply where
  | returned (result : Ptr)
  /-- `std::bad_alloc` leaves the call. -/
  | threw
  deriving DecidableEq, Repr

/-- `sizeof(chunk)`: two pointers and two bytes, padded. -/
def sizeofChunk : Nat := 24

namespace Arena

/-- The region is not tested for null, and the chunk is constructed in it. -/
def createNewChunk (mem : Memory) (size : Nat) (region : Ptr) : Except Fault (Memory × Addr) := do
  let ptr ← nonNull region
  let (c, bytes) := Chunk.init (UInt8.ofNat size) (ptr + sizeofChunk) mem.bytes
  .ok ({ mem with bytes, chunks := mem.chunks.insert ptr c }, ptr)

def releaseChunk (mem : Memory) (cnk : Addr) : Except Fault Memory := do
  let _ ← deref mem.chunks (some cnk)
  .ok { mem with chunks := mem.chunks.erase cnk, freed := cnk :: mem.freed }

/-- The constructor; the arena is made reserved. -/
def init (mem : Memory) (blockSize : Nat) (region node : Ptr) : Except Fault (Memory × Arena) := do
  let (mem, first) ← createNewChunk mem blockSize region
  let c ← deref mem.chunks (some first)
  let (chunks, _) ← RangeMap.init.insert wrapInt8 node c.begin c.end_ first
  .ok (mem, { blockSize, chunks, allocCurrent := some first, freeCurrent := some first, reserved := true })

def tryToAlloc (mem : Memory) (self : Arena) (cnk : Ptr) : Except Fault (Ptr × Memory × Arena) := do
  let c ← deref mem.chunks cnk
  let a ← nonNull cnk
  match c.allocate mem.bytes self.blockSize with
  | (none, _) => .ok (none, mem, self)
  | (some result, c) =>
    .ok (some result, { mem with chunks := mem.chunks.insert a c }, { self with allocCurrent := cnk })

/-- The loop of `malloc` over the chunks, from a position on. -/
def search (mem : Memory) (self : Arena) : Nat → Ptr → Except Fault (Ptr × Memory × Arena)
  | _, none => .ok (none, mem, self)
  -- as many rounds as nodes do not come to the end: the links go round
  | 0, some _ => .error .endless
  | fuel + 1, some it => do
    let n ← deref self.chunks.nodes (some it)
    let (result, mem, self) ← tryToAlloc mem self (some n.load.mapped)
    match result with
    | some p => .ok (some p, mem, self)
    | none => do
      let next ← self.chunks.increment (some it)
      search mem self fuel next

/-- What `malloc` does when no chunk has a free block. The new chunk stays where it is
when no node can be made for it. -/
def grow (mem : Memory) (self : Arena) (region node : Ptr) : Except Fault (Reply × Memory × Arena) := do
  let (mem, current) ← createNewChunk mem self.blockSize region
  let c ← deref mem.chunks (some current)
  let (result, c) := c.allocate mem.bytes self.blockSize
  let mem := { mem with chunks := mem.chunks.insert current c }
  -- the chunk exists by now, and a block of it is taken
  match self.chunks.insert wrapInt8 node c.begin c.end_ current with
  | .error .badAlloc => .ok (.threw, mem, self)
  | .error e => .error e
  | .ok (chunks, _) =>
    .ok (.returned result, mem,
      { self with chunks, allocCurrent := some current, freeCurrent := some current })

def malloc (mem : Memory) (self : Arena) (region node : Ptr) : Except Fault (Reply × Memory × Arena) := do
  let (result, mem, self) ← tryToAlloc mem self self.allocCurrent
  match result with
  | some p => .ok (.returned (some p), mem, self)
  | none => do
    -- then the chunks in turn, the cached one among them
    let it ← self.chunks.begin
    let (result, mem, self) ← search mem self (rounds self.chunks.nodes) it
    match result with
    | some p => .ok (.returned (some p), mem, self)
    | none => grow mem self region node

def tryToFree (mem : Memory) (self : Arena) (ptr : Addr) (cnk : Ptr) :
    Except Fault (Bool × Memory × Arena) := do
  let c ← deref mem.chunks cnk
  let a ← nonNull cnk
  match c.release mem.bytes ptr self.blockSize with
  | (false, _) => .ok (false, mem, self)
  | (true, c, bytes) =>
    .ok (true, { mem with bytes, chunks := mem.chunks.insert a c }, { self with freeCurrent := cnk })

/-- The outcome of the attempt on the chunk that was found is not looked at. -/
def lookupChunkAndFree (mem : Memory) (self : Arena) (ptr : Addr) :
    Except Fault (Bool × Memory × Arena) := do
  let it ← self.chunks.find ptr
  match it with
  | none => .ok (false, mem, self)
  | some it => do
    let n ← deref self.chunks.nodes (some it)
    let (_, mem, self) ← tryToFree mem self ptr (some n.load.mapped)
    .ok (true, mem, self)

def free (mem : Memory) (self : Arena) (ptr : Addr) : Except Fault (Bool × Memory × Arena) := do
  let (released, mem, self) ← tryToFree mem self ptr self.freeCurrent
  if released then .ok (true, mem, self) else lookupChunkAndFree mem self ptr

/-- `emplace_back` on the vector of `shrink`, whose growth is given memory for so many more elements. -/
def emplaceBack : Nat → Except Fault Nat
  | 0 => .error .badAlloc
  | room + 1 => .ok room

/-- The first loop of `shrink`: empty chunks are released, the others are kept in order, as far as
the vector for them can grow. -/
def sweep (mem : Memory) (self : Arena) : Nat → Nat → Ptr → Except Fault (Memory × List Addr)
  | _, _, none => .ok (mem, [])
  | 0, _, some _ => .error .endless
  | fuel + 1, room, some it => do
    let n ← deref self.chunks.nodes (some it)
    let c ← deref mem.chunks (some n.load.mapped)
    -- the map still has the chunks that are released here
    if c.empty then do
      let mem ← releaseChunk mem n.load.mapped
      let next ← self.chunks.increment (some it)
      sweep mem self fuel room next
    else do
      let room ← emplaceBack room
      let next ← self.chunks.increment (some it)
      let (mem, nonEmpty) ← sweep mem self fuel room next
      .ok (mem, n.load.mapped :: nonEmpty)

/-- The second loop of `shrink`; each insertion has the next of the addresses for nodes. -/
def reinsert (mem : Memory) (chunks : RangeMap Addr Addr) :
    List Addr → List Ptr → Except Fault (RangeMap Addr Addr)
  | [], _ => .ok chunks
  | cnk :: rest, nodes => do
    let c ← deref mem.chunks (some cnk)
    let (chunks, _) ← chunks.insert wrapInt8 (nodes.headD none) c.begin c.end_ cnk
    reinsert mem chunks rest nodes.tail

/-- The mapped chunk of the element at a position. -/
def chunkAt (chunks : RangeMap Addr Addr) (it : Ptr) : Except Fault Addr := do
  let n ← deref chunks.nodes it
  .ok n.load.mapped

/-- An exception cannot leave `shrink`; the faults of the model end the program then. -/
def shrink (mem : Memory) (self : Arena) (room : Nat) (nodes : List Ptr) (region node : Ptr) :
    Except Fault (Memory × Arena) := do
  let it ← self.chunks.begin
  let (mem, nonEmpty) ← sweep mem self (rounds self.chunks.nodes) room it
  let chunks ← self.chunks.clear
  let chunks ← reinsert mem chunks nonEmpty nodes
  -- nothing is kept: the arena starts again as in its constructor
  if chunks.empty then do
    let (mem, first) ← createNewChunk mem self.blockSize region
    let c ← deref mem.chunks (some first)
    let (chunks, _) ← chunks.insert wrapInt8 node c.begin c.end_ first
    .ok (mem, { self with chunks, allocCurrent := some first, freeCurrent := some first })
  else do
    let it ← chunks.begin
    let first ← chunkAt chunks it
    .ok (mem, { self with chunks, allocCurrent := some first, freeCurrent := some first })

/-- `test_and_set` on the flag; the outcome says whether it was clear before. -/
def reserve (self : Arena) : Bool × Arena := (!self.reserved, { self with reserved := true })

def release (self : Arena) : Arena := { self with reserved := false }

end Arena

end SmallObject
