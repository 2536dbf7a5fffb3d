import SmallObject.Arena
import SmallObject.RangeMap.Iterate

/-! Whose a byte is: regions hold chunks, chunks hold blocks, and blocks are issued or free.

The invariant of an arena ties its range map to the chunks in memory, and the free
list of every chunk to the blocks that were issued from it. Allocation keeps it and
issues one block that was not issued before.
-/

set_option autoImplicit false

namespace SmallObject

open Linked AvlTree

/-- The values that a map holds, in the order of their ranges. -/
def AvlTree.mapped {K V : Type} (t : AvlTree K V) : List V := t.entries.map fun e => e.2.2

/-- The bytes of a region for a chunk and its blocks. -/
def regionSize (blockSize : Nat) : Nat := sizeofChunk + 255 * blockSize

namespace Memory

/-- What `sys::xmalloc` is assumed to return: a region inside the address space that
meets no region in use. -/
def Fresh (blockSize : Nat) (mem : Memory) (r : Addr) : Prop :=
  r + regionSize blockSize ≤ sizeRange ∧
    ∀ r' c, mem.chunks.lookup r' = some c → r + regionSize blockSize ≤ r' ∨ r' + regionSize blockSize ≤ r

/-- Every chunk lies in a region of its own, the blocks behind the header. -/
structure Placed (blockSize : Nat) (mem : Memory) : Prop where
  shape : ∀ r c, mem.chunks.lookup r = some c →
    c.begin = r + sizeofChunk ∧ c.end_ = r + regionSize blockSize ∧ r + regionSize blockSize ≤ sizeRange
  apart : ∀ r c r' c', mem.chunks.lookup r = some c → mem.chunks.lookup r' = some c' → r ≠ r' →
    r + regionSize blockSize ≤ r' ∨ r' + regionSize blockSize ≤ r

variable {blockSize : Nat} {mem : Memory} {r r' p : Addr} {c c' : Chunk}

theorem Fresh.unused (fresh : mem.Fresh blockSize r) : mem.chunks.lookup r = none := by
  cases found : mem.chunks.lookup r with
  | none => rfl
  | some c =>
    have := fresh.2 r c found
    unfold regionSize sizeofChunk at this
    lia

/-- Memory with nothing allocated in it. -/
def unallocated : Memory := { bytes := fun _ => 0, chunks := ∅, freed := [] }

theorem placed_unallocated : unallocated.Placed blockSize := ⟨by simp [unallocated], by simp [unallocated]⟩

theorem fresh_unallocated (inside : r + regionSize blockSize ≤ sizeRange) : unallocated.Fresh blockSize r :=
  ⟨inside, by simp [unallocated]⟩

/-- A header lies between the block areas of two chunks, so their closed ranges do not meet. -/
theorem Placed.same_chunk (placed : mem.Placed blockSize) (found : mem.chunks.lookup r = some c)
    (found' : mem.chunks.lookup r' = some c') (low : c.begin ≤ p) (high : p ≤ c.end_)
    (low' : c'.begin ≤ p) (high' : p ≤ c'.end_) : r = r' := by
  by_contra different
  obtain ⟨begin, end_, _⟩ := placed.shape r c found
  obtain ⟨begin', end_', _⟩ := placed.shape r' c' found'
  have := placed.apart r c r' c' found found' different
  unfold regionSize sizeofChunk at *
  lia

/-- A chunk is updated in place. -/
theorem Placed.update (placed : mem.Placed blockSize) (found : mem.chunks.lookup r = some c)
    (begin : c'.begin = c.begin) (end_ : c'.end_ = c.end_) {bytes : Bytes} :
    Placed blockSize { mem with bytes, chunks := mem.chunks.insert r c' } := by
  have old : ∀ s d, (mem.chunks.insert r c').lookup s = some d →
      ∃ d', mem.chunks.lookup s = some d' ∧ d.begin = d'.begin ∧ d.end_ = d'.end_ := by
    intro s d stored
    by_cases same : s = r
    · subst same
      rw [AList.lookup_insert] at stored
      obtain rfl : c' = d := by simpa using stored
      exact ⟨c, found, begin, end_⟩
    · rw [AList.lookup_insert_ne same] at stored
      exact ⟨d, stored, rfl, rfl⟩
  refine ⟨fun s d stored => ?_, fun s d s' d' stored stored' different => ?_⟩
  · obtain ⟨d', before, same, same'⟩ := old s d stored
    rw [same, same']
    exact placed.shape s d' before
  · obtain ⟨_, before, _⟩ := old s d stored
    obtain ⟨_, before', _⟩ := old s' d' stored'
    exact placed.apart s _ s' _ before before' different

/-- Some chunks are gone. -/
theorem Placed.sub {mem' : Memory} (placed : mem.Placed blockSize)
    (sub : ∀ r c, mem'.chunks.lookup r = some c → mem.chunks.lookup r = some c) : mem'.Placed blockSize :=
  ⟨fun r c found => placed.shape r c (sub r c found),
    fun r c r' c' found found' => placed.apart r c r' c' (sub r c found) (sub r' c' found')⟩

theorem Placed.bytes (placed : mem.Placed blockSize) {bytes : Bytes} :
    Placed blockSize { mem with bytes } := ⟨placed.shape, placed.apart⟩

/-- A chunk is made in a fresh region. -/
theorem Placed.create (placed : mem.Placed blockSize) (fresh : mem.Fresh blockSize r)
    (begin : c.begin = r + sizeofChunk) (end_ : c.end_ = r + regionSize blockSize) {bytes : Bytes} :
    Placed blockSize { mem with bytes, chunks := mem.chunks.insert r c } := by
  refine ⟨fun s d stored => ?_, fun s d s' d' stored stored' different => ?_⟩
  · by_cases same : s = r
    · subst same
      obtain rfl : c = d := by simpa using stored
      exact ⟨begin, end_, fresh.1⟩
    · exact placed.shape s d (by rwa [AList.lookup_insert_ne same] at stored)
  · by_cases same : s = r
    · subst same
      rw [AList.lookup_insert_ne different.symm] at stored'
      exact fresh.2 s' d' stored'
    · rw [AList.lookup_insert_ne same] at stored
      by_cases same' : s' = r
      · subst same'
        exact (fresh.2 s d stored).symm
      · rw [AList.lookup_insert_ne same'] at stored'
        exact placed.apart s d s' d' stored stored' different

instance (mem : Memory) (r : Addr) : Decidable (mem.Fresh blockSize r) :=
  decidable_of_iff (r + regionSize blockSize ≤ sizeRange ∧ ∀ e ∈ mem.chunks.entries,
      r + regionSize blockSize ≤ e.1 ∨ e.1 + regionSize blockSize ≤ r) <| by
    refine and_congr_right fun _ => ⟨fun all r' c found => ?_, fun all e member => ?_⟩
    · exact all ⟨r', c⟩ (AList.mem_lookup_iff.mp found)
    · exact all e.1 e.2 (AList.mem_lookup_iff.mpr member)

end Memory

namespace Arena

/-- The range map names chunks that exist, each under the closed range of its block area. -/
structure Maps (mem : Memory) (arena : Arena) (t : AvlTree Addr Addr) : Prop where
  stores : arena.chunks.Stores t
  ordered : Ordered t.entries
  chunk : ∀ e ∈ t.entries, ∃ c, mem.chunks.lookup e.2.2 = some c ∧ e.2.1 = ⟨c.begin, c.end_⟩

variable {blockSize : Nat} {mem mem' : Memory} {self self' : Arena} {t t' : AvlTree Addr Addr} {r p : Addr}
  {c : Chunk}

theorem Maps.mapped_chunk (maps : self.Maps mem t) (member : r ∈ t.mapped) :
    ∃ c, mem.chunks.lookup r = some c := by
  obtain ⟨e, inside, rfl⟩ := List.mem_map.mp member
  obtain ⟨c, found, _⟩ := maps.chunk e inside
  exact ⟨c, found⟩

theorem Maps.node (maps : self.Maps mem t) {a : Addr} (member : a ∈ t.addrs) :
    ∃ cell, self.chunks.nodes.lookup a = some cell ∧ cell.load.mapped ∈ t.mapped := by
  obtain ⟨e, inside, rfl⟩ := List.mem_map.mp member
  obtain ⟨cell, found, load⟩ := maps.stores.rep.stored e inside
  refine ⟨cell, found, ?_⟩
  rw [load]
  exact List.mem_map_of_mem (List.mem_map_of_mem (f := fun e => (e.1, e.2.range, e.2.mapped)) inside)

/-- An address in the closed range of a chunk of the map is found in the map at that chunk. -/
theorem Maps.find (maps : self.Maps mem t) (placed : mem.Placed blockSize) (member : r ∈ t.mapped)
    (found : mem.chunks.lookup r = some c) (low : c.begin ≤ p) (high : p ≤ c.end_) :
    ∃ a cell, self.chunks.find p = .ok (some a) ∧ self.chunks.nodes.lookup a = some cell ∧
      cell.load.mapped = r := by
  have enough : t.size ≤ rounds self.chunks.nodes := (size_lt_rounds maps.stores.rep maps.stores.nodup).le
  unfold RangeMap.find RangeMap.findNode
  rw [maps.stores.root]
  rcases findFrom_follows p maps.stores.rep maps.ordered enough with ⟨e, inside, run, holds⟩ | ⟨_, none⟩
  · obtain ⟨c', found', range⟩ := maps.chunk e inside
    rw [range] at holds
    have same := placed.same_chunk found found' low high holds.1 holds.2
    obtain ⟨source, inTree, rfl⟩ := List.mem_map.mp inside
    obtain ⟨cell, stored, load⟩ := maps.stores.rep.stored source inTree
    exact ⟨source.1, cell, run, stored, by rw [load]; exact same.symm⟩
  · obtain ⟨e, inside, rfl⟩ := List.mem_map.mp member
    obtain ⟨c', found', range⟩ := maps.chunk e inside
    obtain rfl : c = c' := Option.some.inj (found.symm.trans found')
    exact absurd ⟨by rw [range]; exact low, by rw [range]; exact high⟩ (none e inside)

/-- The arena and the blocks issued from each chunk of its map. -/
structure Holds (blockSize : Nat) (mem : Memory) (arena : Arena) (t : AvlTree Addr Addr)
    (issued : Addr → List Addr) : Prop where
  size : arena.blockSize = blockSize
  placed : mem.Placed blockSize
  maps : arena.Maps mem t
  owns : ∀ r ∈ t.mapped, ∀ c, mem.chunks.lookup r = some c →
    ∃ free, Chunk.Owns blockSize c mem.bytes (issued r) free

/-- Besides, the two cached pointers name chunks of the map. -/
structure Sound (blockSize : Nat) (mem : Memory) (arena : Arena) (t : AvlTree Addr Addr)
    (issued : Addr → List Addr) : Prop extends Holds blockSize mem arena t issued where
  alloc : ∃ r ∈ t.mapped, arena.allocCurrent = some r
  free : ∃ r ∈ t.mapped, arena.freeCurrent = some r

/-- One block more is issued, by a chunk that may be new. -/
structure Issues (t t' : AvlTree Addr Addr) (issued issued' : Addr → List Addr) (p : Addr) : Prop where
  new : ∃ r ∈ t'.mapped, p ∈ issued' r
  unused : ∀ r ∈ t.mapped, p ∉ issued r
  kept : ∀ r ∈ t.mapped, r ∈ t'.mapped ∧ issued r ⊆ issued' r
  only : ∀ r ∈ t'.mapped, ∀ q ∈ issued' r, q = p ∨ r ∈ t.mapped ∧ q ∈ issued r

/-! ## Blocks of the arena -/

section Blocks

variable {issued : Addr → List Addr}

theorem Holds.in_chunk (holds : self.Holds blockSize mem t issued) (member : r ∈ t.mapped)
    (found : mem.chunks.lookup r = some c) (used : p ∈ issued r) :
    c.begin ≤ p ∧ p + blockSize ≤ c.end_ := by
  obtain ⟨begin, end_, _⟩ := holds.placed.shape r c found
  obtain ⟨free, owns⟩ := holds.owns r member c found
  obtain ⟨i, inside, rfl⟩ := owns.issued_block used
  have bound := Nat.mul_le_mul_right blockSize (Nat.succ_le_of_lt inside)
  rw [Nat.succ_mul] at bound
  simp only [Chunk.blockAt, end_, begin, regionSize]
  lia

/-- A block is issued by one chunk only. -/
theorem Holds.same_chunk (holds : self.Holds blockSize mem t issued) {r' : Addr}
    (member' : r' ∈ t.mapped) (found : mem.chunks.lookup r = some c) (used : p ∈ issued r')
    (low : c.begin ≤ p) (high : p ≤ c.end_) : r = r' := by
  obtain ⟨c', found'⟩ := holds.maps.mapped_chunk member'
  have inside := holds.in_chunk member' found' used
  exact holds.placed.same_chunk found found' low high inside.1 (Nat.le_of_add_right_le inside.2)

/-- Different issued blocks have no byte in common. -/
theorem Holds.disjoint (holds : self.Holds blockSize mem t issued) {r' q : Addr}
    (member : r ∈ t.mapped) (member' : r' ∈ t.mapped) (used : p ∈ issued r) (used' : q ∈ issued r')
    (different : p ≠ q) : p + blockSize ≤ q ∨ q + blockSize ≤ p := by
  obtain ⟨c, found⟩ := holds.maps.mapped_chunk member
  obtain ⟨c', found'⟩ := holds.maps.mapped_chunk member'
  have inside := holds.in_chunk member found used
  have inside' := holds.in_chunk member' found' used'
  -- in one chunk the block numbers decide, in two chunks their regions
  by_cases same : r = r'
  · subst same
    obtain ⟨free, owns⟩ := holds.owns r member c found
    obtain ⟨i, _, rfl⟩ := owns.issued_block used
    obtain ⟨j, _, rfl⟩ := owns.issued_block used'
    rcases Nat.lt_trichotomy i j with below | rfl | above
    · have := Nat.mul_le_mul_right blockSize (Nat.succ_le_of_lt below)
      rw [Nat.succ_mul] at this
      simp only [Chunk.blockAt]
      lia
    · exact absurd rfl different
    · have := Nat.mul_le_mul_right blockSize (Nat.succ_le_of_lt above)
      rw [Nat.succ_mul] at this
      simp only [Chunk.blockAt]
      lia
  · obtain ⟨begin, end_, _⟩ := holds.placed.shape r c found
    obtain ⟨begin', end_', _⟩ := holds.placed.shape r' c' found'
    have := holds.placed.apart r c r' c' found found' same
    unfold regionSize sizeofChunk at *
    lia

end Blocks

/-! ## Allocation -/

section Alloc

variable {issued : Addr → List Addr} {region node : Ptr}

/-- A chunk is updated in place. -/
theorem Maps.update (maps : self.Maps mem t) (found : mem.chunks.lookup r = some c) {c' : Chunk}
    (begin : c'.begin = c.begin) (end_ : c'.end_ = c.end_) {bytes : Bytes} :
    self.Maps { mem with bytes, chunks := mem.chunks.insert r c' } t := by
  refine ⟨maps.stores, maps.ordered, fun e inTree => ?_⟩
  obtain ⟨d, stored, range⟩ := maps.chunk e inTree
  by_cases same : e.2.2 = r
  · obtain rfl : d = c := Option.some.inj (stored.symm.trans (same ▸ found))
    exact ⟨c', same ▸ AList.lookup_insert _, by rw [range, begin, end_]⟩
  · exact ⟨d, by simpa [AList.lookup_insert_ne same] using stored, range⟩

/-- A chunk is updated in place together with the blocks that are issued from it. -/
theorem Holds.replace (holds : self.Holds blockSize mem t issued) (found : mem.chunks.lookup r = some c)
    {c' : Chunk} (begin : c'.begin = c.begin) (end_ : c'.end_ = c.end_) {used : List Addr} {free : List Nat}
    (owns : Chunk.Owns blockSize c' mem.bytes used free) :
    self.Holds blockSize { mem with chunks := mem.chunks.insert r c' } t (Function.update issued r used) := by
  refine ⟨holds.size, holds.placed.update found begin end_, holds.maps.update found begin end_,
    fun s inMap d stored => ?_⟩
  by_cases same : s = r
  · subst same
    obtain rfl : c' = d := by simpa using stored
    exact ⟨free, by simpa using owns⟩
  · rw [Function.update_of_ne same]
    exact holds.owns s inMap d (by simpa [AList.lookup_insert_ne same] using stored)

/-- One chunk of the map hands out a block, and every other chunk stays as it is. -/
theorem Sound.issue (sound : self.Sound blockSize mem t issued) (positive : 0 < blockSize)
    (member : r ∈ t.mapped) (found : mem.chunks.lookup r = some c) {i : Nat} {rest : List Nat}
    (owns : Chunk.Owns blockSize c mem.bytes (issued r) (i :: rest)) :
    ∃ c', c.allocate mem.bytes self.blockSize = (some (c.blockAt blockSize i), c') ∧
      Sound blockSize { mem with chunks := mem.chunks.insert r c' } { self with allocCurrent := some r } t
        (Function.update issued r (c.blockAt blockSize i :: issued r)) ∧
      Issues t t issued (Function.update issued r (c.blockAt blockSize i :: issued r))
        (c.blockAt blockSize i) := by
  obtain ⟨c', run, begin, end_, owns'⟩ := owns.allocate_cons
  have unusedHere : c.blockAt blockSize i ∉ issued r := fun used =>
    owns.issued_ne_free positive used List.mem_cons_self rfl
  have inside : c.begin ≤ c.blockAt blockSize i ∧ c.blockAt blockSize i ≤ c.end_ := by
    obtain ⟨begin, end_, _⟩ := sound.placed.shape r c found
    have bound := Nat.mul_le_mul_right blockSize (Nat.le_of_lt (owns.free_block positive List.mem_cons_self))
    simp only [Chunk.blockAt, end_, begin, regionSize]
    lia
  obtain ⟨size, placed, ⟨stores, ordered, chunk⟩, owned⟩ := sound.replace found begin end_ owns'
  refine ⟨c', sound.size ▸ run, ⟨⟨size, placed, ⟨stores, ordered, chunk⟩, owned⟩, ⟨r, member, rfl⟩, sound.free⟩, ?_⟩
  refine ⟨⟨r, member, by simp⟩, fun s inMap used => ?_, fun s inMap => ⟨inMap, fun q used => ?_⟩,
    fun s inMap q used => ?_⟩
  -- the block is in the range of no other chunk
  · obtain rfl := sound.same_chunk inMap found used inside.1 inside.2
    exact unusedHere used
  · by_cases same : s = r
    · subst same
      simp [used]
    · rwa [Function.update_of_ne same]
  · by_cases same : s = r
    · subst same
      rw [Function.update_self, List.mem_cons] at used
      exact used.imp_right fun old => ⟨inMap, old⟩
    · rw [Function.update_of_ne same] at used
      exact .inr ⟨inMap, used⟩

/-- What an attempt on a chunk of the map comes to. -/
theorem Sound.tryToAlloc (sound : self.Sound blockSize mem t issued) (positive : 0 < blockSize)
    (member : r ∈ t.mapped) :
    self.tryToAlloc mem (some r) = .ok (none, mem, self) ∨
      ∃ p mem' self' issued', self.tryToAlloc mem (some r) = .ok (some p, mem', self') ∧
        self'.Sound blockSize mem' t issued' ∧ Issues t t issued issued' p := by
  obtain ⟨c, found⟩ := sound.maps.mapped_chunk member
  obtain ⟨free, owns⟩ := sound.owns r member c found
  cases free with
  | nil =>
    have none := owns.allocate_none.mpr rfl
    rw [← sound.size] at none
    refine .inl ?_
    simp only [Arena.tryToAlloc, deref_of_lookup found, ok_bind, nonNull_some]
    split
    · rfl
    next run => simp [run] at none
  | cons i rest =>
    obtain ⟨c', run, sound', issues⟩ := sound.issue positive member found owns
    refine .inr ⟨_, _, _, _, ?_, sound', issues⟩
    simp [Arena.tryToAlloc, deref_of_lookup found, run]

/-- The loop over the chunks issues a block or changes nothing. -/
theorem Sound.search (sound : self.Sound blockSize mem t issued) (positive : 0 < blockSize) {fuel : Nat}
    {it result : Ptr} (inTree : ∀ a, it = some a → a ∈ t.addrs)
    (run : self.search mem fuel it = .ok (result, mem', self')) :
    (result = none ∧ mem' = mem ∧ self' = self) ∨
      ∃ p issued', result = some p ∧ self'.Sound blockSize mem' t issued' ∧ Issues t t issued issued' p := by
  induction fuel generalizing it with
  | zero =>
    cases it with
    | none =>
      obtain ⟨rfl, rfl, rfl⟩ : none = result ∧ mem = mem' ∧ self = self' := by simpa [Arena.search] using run
      exact .inl ⟨rfl, rfl, rfl⟩
    | some a => simp [Arena.search] at run
  | succ fuel ih =>
    cases it with
    | none =>
      obtain ⟨rfl, rfl, rfl⟩ : none = result ∧ mem = mem' ∧ self = self' := by simpa [Arena.search] using run
      exact .inl ⟨rfl, rfl, rfl⟩
    | some a =>
      have here := inTree a rfl
      obtain ⟨cell, found, member⟩ := sound.maps.node here
      simp only [Arena.search, deref_of_lookup found, ok_bind] at run
      -- after a full chunk the loop goes on at another node of the tree
      rcases sound.tryToAlloc positive member with full | ⟨p, mem₁, self₁, issued', taken, sound', issues⟩
      · simp only [full, ok_bind] at run
        obtain ⟨next, step, rest⟩ := bind_eq_ok run
        refine ih (fun b same => ?_) rest
        exact RangeMap.increment_mem sound.maps.stores here step b same
      · simp only [taken, ok_bind, Except.ok.injEq, Prod.mk.injEq] at run
        obtain ⟨rfl, rfl, rfl⟩ := run
        exact .inr ⟨p, issued', rfl, sound', issues⟩

end Alloc

/-! ## New chunks -/

section Create

variable {issued : Addr → List Addr}

/-- The chunk that is constructed in a region. -/
def newChunk (blockSize : Nat) (mem : Memory) (r : Addr) : Chunk × Bytes :=
  Chunk.init (UInt8.ofNat blockSize) (r + sizeofChunk) mem.bytes

theorem createNewChunk_eq (mem : Memory) (size : Nat) (r : Addr) :
    createNewChunk mem size (some r) = .ok ({ mem with
      bytes := (newChunk size mem r).2
      chunks := mem.chunks.insert r (newChunk size mem r).1 }, r) := rfl

theorem newChunk_shape (small : blockSize ≤ 255) (mem : Memory) (r : Addr) :
    (newChunk blockSize mem r).1.begin = r + sizeofChunk ∧
      (newChunk blockSize mem r).1.end_ = r + regionSize blockSize := by
  have exact : (UInt8.ofNat blockSize).toNat = blockSize := by
    rw [UInt8.toNat_ofNat']
    omega
  refine ⟨rfl, ?_⟩
  simp only [newChunk, Chunk.init, exact, Chunk.maxBlocks, regionSize]
  simp
  lia

theorem newChunk_owns (positive : 0 < blockSize) (small : blockSize ≤ 255) (mem : Memory) (r : Addr) :
    Chunk.Owns blockSize (newChunk blockSize mem r).1 (newChunk blockSize mem r).2 [] (List.range 255) :=
  Chunk.init_owns positive small _ _

/-- The constructor writes into the blocks of the new chunk only. -/
theorem newChunk_bytes (positive : 0 < blockSize) (small : blockSize ≤ 255) {a : Addr}
    (outside : a < r ∨ r + regionSize blockSize ≤ a) : (newChunk blockSize mem r).2 a = mem.bytes a := by
  have exact : (UInt8.ofNat blockSize).toNat = blockSize := by
    rw [UInt8.toNat_ofNat']
    omega
  have kept := (Chunk.linkBlocks_links positive (r + sizeofChunk) mem.bytes).2 a
  simp only [newChunk, Chunk.init, exact]
  apply kept
  unfold regionSize sizeofChunk at *
  lia

/-- The blocks of chunks that exist are as they were when a chunk is made elsewhere. -/
theorem Holds.owns_created (holds : self.Holds blockSize mem t issued) (positive : 0 < blockSize)
    (small : blockSize ≤ 255) (fresh : mem.Fresh blockSize r) {s : Addr} {d : Chunk} (member : s ∈ t.mapped)
    (found : mem.chunks.lookup s = some d) :
    ∃ free, Chunk.Owns blockSize d (newChunk blockSize mem r).2 (issued s) free := by
  obtain ⟨free, owns⟩ := holds.owns s member d found
  obtain ⟨begin, _, _⟩ := holds.placed.shape s d found
  refine ⟨free, owns.congr fun i inFree => newChunk_bytes positive small ?_⟩
  have apart := fresh.2 s d found
  have inside := owns.free_block positive inFree
  have bound := Nat.mul_le_mul_right blockSize (Nat.succ_le_of_lt inside)
  rw [Nat.succ_mul] at bound
  simp only [Chunk.blockAt, begin]
  unfold regionSize sizeofChunk at *
  lia

/-- The range of a chunk in a fresh region compares with every range of the map. -/
theorem Maps.compares (maps : self.Maps mem t) (placed : mem.Placed blockSize) (fresh : mem.Fresh blockSize r)
    (begin : c.begin = r + sizeofChunk) (end_ : c.end_ = r + regionSize blockSize) :
    ∀ e ∈ t.entries, Comparable ⟨c.begin, c.end_⟩ e.2.1 := by
  intro e member
  obtain ⟨d, found, range⟩ := maps.chunk e member
  obtain ⟨begin', end_', _⟩ := placed.shape e.2.2 d found
  have := fresh.2 e.2.2 d found
  unfold Comparable Range.Before
  rw [range]
  simp only [begin, end_, begin', end_']
  unfold regionSize sizeofChunk at *
  lia

/-- No issued block is in a fresh region. -/
theorem Holds.outside_fresh (holds : self.Holds blockSize mem t issued) (positive : 0 < blockSize)
    (fresh : mem.Fresh blockSize r) {s : Addr} (member : s ∈ t.mapped) (used : p ∈ issued s) :
    p < r ∨ r + regionSize blockSize ≤ p := by
  obtain ⟨d, found⟩ := holds.maps.mapped_chunk member
  have inside := holds.in_chunk member found used
  have apart := fresh.2 s d found
  obtain ⟨begin, end_, _⟩ := holds.placed.shape s d found
  unfold regionSize sizeofChunk at *
  lia

/-- A chunk of the map is not in a fresh region. -/
theorem Maps.not_mapped (maps : self.Maps mem t) (fresh : mem.Fresh blockSize r) : r ∉ t.mapped := by
  intro member
  obtain ⟨d, found⟩ := maps.mapped_chunk member
  simp [fresh.unused] at found

/-- A new chunk that is entered in the map stands beside what was there. -/
theorem Maps.enter (maps : self.Maps mem t) (placed : mem.Placed blockSize) (fresh : mem.Fresh blockSize r)
    {n : Addr} (unused : self.chunks.nodes.lookup n = none) {c : Chunk} (bytes : Bytes)
    (begin : c.begin = r + sizeofChunk) (end_ : c.end_ = r + regionSize blockSize)
    {chunks : RangeMap Addr Addr} {inserted : Bool}
    (run : self.chunks.insert wrapInt8 (some n) c.begin c.end_ r = .ok (chunks, inserted)) :
    inserted = true ∧ ∃ t' pre post, t.entries = pre ++ post ∧
      t'.entries = pre ++ (n, ⟨c.begin, c.end_⟩, r) :: post ∧
      Maps { mem with bytes, chunks := mem.chunks.insert r c }
        { self with chunks, allocCurrent := some r, freeCurrent := some r } t' := by
  have notMapped := maps.not_mapped fresh
  obtain ⟨t', stores, ordered, gained | ⟨_, _, _, e, member, apart⟩⟩ :=
    insert_stores maps.stores maps.ordered unused run
  · obtain ⟨rfl, pre, post, split, gained⟩ := gained
    refine ⟨rfl, t', pre, post, split, gained, stores, ordered, fun e member => ?_⟩
    rw [gained] at member
    have inOld : e = (n, ⟨c.begin, c.end_⟩, r) ∨ e ∈ t.entries := by
      rw [split]
      simp only [List.mem_append, List.mem_cons] at member ⊢
      tauto
    rcases inOld with rfl | old
    · exact ⟨c, by simp, rfl⟩
    · obtain ⟨d, found, range⟩ := maps.chunk e old
      refine ⟨d, ?_, range⟩
      have different : e.2.2 ≠ r := fun same => notMapped (same ▸ List.mem_map_of_mem old)
      rwa [AList.lookup_insert_ne different]
  · exact absurd (maps.compares placed fresh begin end_ e member) apart

/-- The arena keeps what it had when a new chunk is entered in the map. -/
theorem Holds.enter (holds : self.Holds blockSize mem t issued) (positive : 0 < blockSize)
    (small : blockSize ≤ 255) (fresh : mem.Fresh blockSize r) {n : Addr}
    (unused : self.chunks.nodes.lookup n = none) {c : Chunk} {used : List Addr} {free : List Nat}
    (begin : c.begin = r + sizeofChunk) (end_ : c.end_ = r + regionSize blockSize)
    (owns : Chunk.Owns blockSize c (newChunk blockSize mem r).2 used free) {chunks : RangeMap Addr Addr}
    {inserted : Bool} (run : self.chunks.insert wrapInt8 (some n) c.begin c.end_ r = .ok (chunks, inserted)) :
    inserted = true ∧ r ∉ t.mapped ∧ ∃ t' pre post, t.entries = pre ++ post ∧
      t'.entries = pre ++ (n, ⟨c.begin, c.end_⟩, r) :: post ∧
      Sound blockSize
        { mem with bytes := (newChunk blockSize mem r).2, chunks := mem.chunks.insert r c }
        { self with chunks, allocCurrent := some r, freeCurrent := some r } t'
        (Function.update issued r used) := by
  obtain ⟨yes, t', pre, post, split, gained, maps⟩ :=
    holds.maps.enter holds.placed fresh unused (newChunk blockSize mem r).2 begin end_ run
  have isNew : r ∈ t'.mapped := List.mem_map.mpr ⟨(n, ⟨c.begin, c.end_⟩, r), by simp [gained], rfl⟩
  refine ⟨yes, holds.maps.not_mapped fresh, t', pre, post, split, gained,
    ⟨holds.size, holds.placed.create fresh begin end_, maps, fun s member d stored => ?_⟩,
    ⟨r, isNew, rfl⟩, ⟨r, isNew, rfl⟩⟩
  by_cases same : s = r
  · subst same
    obtain rfl : c = d := by simpa using stored
    exact ⟨free, by simpa using owns⟩
  · have old : s ∈ t.mapped := by
      simp only [AvlTree.mapped, gained, split, List.map_append, List.map_cons, List.mem_append, List.mem_cons]
        at member ⊢
      tauto
    rw [Function.update_of_ne same]
    rw [AList.lookup_insert_ne same] at stored
    exact holds.owns_created positive small fresh old stored

/-- A new chunk as the first one of an empty map. -/
theorem Holds.enter_first (bare : self.Holds blockSize mem .nil issued) (positive : 0 < blockSize)
    (small : blockSize ≤ 255) (fresh : mem.Fresh blockSize r) {n : Addr}
    (unused : self.chunks.nodes.lookup n = none) {chunks : RangeMap Addr Addr} {inserted : Bool}
    (run : self.chunks.insert wrapInt8 (some n) (newChunk blockSize mem r).1.begin
      (newChunk blockSize mem r).1.end_ r = .ok (chunks, inserted)) :
    ∃ t', t'.mapped = [r] ∧ Sound blockSize
      { mem with bytes := (newChunk blockSize mem r).2, chunks := mem.chunks.insert r (newChunk blockSize mem r).1 }
      { self with chunks, allocCurrent := some r, freeCurrent := some r } t' (Function.update issued r []) := by
  obtain ⟨begin, end_⟩ := newChunk_shape small mem r
  obtain ⟨_, _, t', pre, post, split, gained, sound⟩ :=
    bare.enter positive small fresh unused begin end_ (newChunk_owns positive small mem r) run
  obtain ⟨rfl, rfl⟩ : pre = [] ∧ post = [] := by simpa using split
  exact ⟨t', by simp [AvlTree.mapped, gained], sound⟩

end Create

/-! ## Whole allocations -/

section Malloc

variable {issued : Addr → List Addr} {node : Ptr} {reply : Reply}

/-- A chunk that is made and not entered in the map changes nothing for the arena. -/
theorem Sound.leak (sound : self.Sound blockSize mem t issued) (positive : 0 < blockSize)
    (small : blockSize ≤ 255) (fresh : mem.Fresh blockSize r) (begin : c.begin = r + sizeofChunk)
    (end_ : c.end_ = r + regionSize blockSize) :
    Sound blockSize { mem with bytes := (newChunk blockSize mem r).2, chunks := mem.chunks.insert r c } self t
      issued := by
  have notMapped := sound.maps.not_mapped fresh
  refine ⟨⟨sound.size, sound.placed.create fresh begin end_,
    ⟨sound.maps.stores, sound.maps.ordered, fun e member => ?_⟩, fun s member d stored => ?_⟩, sound.alloc, sound.free⟩
  · obtain ⟨d, found, range⟩ := sound.maps.chunk e member
    have different : e.2.2 ≠ r := fun same => notMapped (same ▸ List.mem_map_of_mem member)
    exact ⟨d, by rwa [AList.lookup_insert_ne different], range⟩
  · have different : s ≠ r := fun same => notMapped (same ▸ member)
    rw [AList.lookup_insert_ne different] at stored
    exact sound.owns_created positive small fresh member stored

/-- What the last part of `malloc` comes to when a region is there for the chunk. -/
theorem Sound.grow (sound : self.Sound blockSize mem t issued) (positive : 0 < blockSize)
    (small : blockSize ≤ 255) (fresh : mem.Fresh blockSize r)
    (unused : ∀ n, node = some n → self.chunks.nodes.lookup n = none)
    (run : self.grow mem (some r) node = .ok (reply, mem', self')) :
    (∃ p t' issued', reply = .returned (some p) ∧ self'.Sound blockSize mem' t' issued' ∧
      Issues t t' issued issued' p) ∨ (reply = .threw ∧ self'.Sound blockSize mem' t issued) := by
  obtain rfl := sound.size
  obtain ⟨begin, end_⟩ := newChunk_shape small mem r
  obtain ⟨c, taken, begin', end_', owns⟩ := (newChunk_owns positive small mem r).allocate_cons
  rw [begin] at begin'
  rw [end_] at end_'
  simp only [Arena.grow, createNewChunk_eq, ok_bind, deref_of_lookup (AList.lookup_insert _), taken,
    AList.insert_insert] at run
  -- without a node the new chunk is in no map; otherwise it is entered with its first block issued
  split at run
  · simp only [Except.ok.injEq, Prod.mk.injEq] at run
    obtain ⟨rfl, rfl, rfl⟩ := run
    exact .inr ⟨rfl, sound.leak positive small fresh begin' end_'⟩
  · simp at run
  next chunks inserted entered =>
    simp only [Except.ok.injEq, Prod.mk.injEq] at run
    obtain ⟨rfl, rfl, rfl⟩ := run
    obtain ⟨n, rfl⟩ : ∃ n, node = some n := by
      cases node with
      | some n => exact ⟨n, rfl⟩
      | none =>
        rcases insert_without_memory wrapInt8 c.begin c.end_ r sound.maps.stores with failed | ⟨_, e, member, apart⟩
        · simp [failed] at entered
        · exact absurd (sound.maps.compares sound.placed fresh begin' end_' e member) apart
    obtain ⟨_, notMapped, t', pre, post, split, gained, sound'⟩ :=
      sound.toHolds.enter positive small fresh (unused n rfl) begin' end_' owns entered
    have inNew : ∀ s, s ∈ t'.mapped ↔ s = r ∨ s ∈ t.mapped := by
      intro s
      simp only [AvlTree.mapped, gained, split, List.map_append, List.map_cons, List.mem_append, List.mem_cons]
      tauto
    have unissued : ∀ s ∈ t.mapped, (newChunk self.blockSize mem r).1.blockAt self.blockSize 0 ∉ issued s := by
      intro s member used
      have outside := sound.outside_fresh positive fresh member used
      simp only [Chunk.blockAt, begin, regionSize] at outside
      clear * - outside positive
      lia
    refine .inl ⟨_, t', _, rfl, sound', ⟨r, (inNew r).mpr (.inl rfl), by simp⟩, unissued, fun s member => ?_,
      fun s member q used => ?_⟩
    · have different : s ≠ r := fun same => notMapped (same ▸ member)
      exact ⟨(inNew s).mpr (.inr member), by rw [Function.update_of_ne different]; exact List.Subset.refl _⟩
    · rcases (inNew s).mp member with rfl | old
      · rw [Function.update_self] at used
        exact .inl (List.mem_singleton.mp used)
      · have different : s ≠ r := fun same => notMapped (same ▸ old)
        rw [Function.update_of_ne different] at used
        exact .inr ⟨old, used⟩

/-- `malloc` issues one block, of an old chunk or of a new one; when it throws, the arena is
what it was. -/
theorem Sound.malloc (sound : self.Sound blockSize mem t issued) (positive : 0 < blockSize)
    (small : blockSize ≤ 255) (fresh : mem.Fresh blockSize r)
    (unused : ∀ n, node = some n → self.chunks.nodes.lookup n = none)
    (run : self.malloc mem (some r) node = .ok (reply, mem', self')) :
    (∃ p t' issued', reply = .returned (some p) ∧ self'.Sound blockSize mem' t' issued' ∧
      Issues t t' issued issued' p) ∨ (reply = .threw ∧ self'.Sound blockSize mem' t issued) := by
  obtain ⟨current, member, cached⟩ := sound.alloc
  simp only [Arena.malloc, cached] at run
  rcases sound.tryToAlloc positive member with full | ⟨p, mem₁, self₁, issued', taken, sound', issues⟩
  · simp only [full, ok_bind, RangeMap.begin_follows sound.maps.stores] at run
    obtain ⟨⟨result, mem₁, self₁⟩, searched, rest⟩ := bind_eq_ok run
    have inTree : ∀ a, t.addrs.head? = some a → a ∈ t.addrs := fun a head => List.mem_of_mem_head? head
    rcases sound.search positive inTree searched with ⟨rfl, rfl, rfl⟩ | ⟨p, issued', rfl, sound', issues⟩
    · exact sound.grow positive small fresh unused rest
    · simp only [Except.ok.injEq, Prod.mk.injEq] at rest
      obtain ⟨rfl, rfl, rfl⟩ := rest
      exact .inl ⟨p, t, issued', rfl, sound', issues⟩
  · simp only [taken, ok_bind, Except.ok.injEq, Prod.mk.injEq] at run
    obtain ⟨rfl, rfl, rfl⟩ := run
    exact .inl ⟨p, t, issued', rfl, sound', issues⟩

theorem init_completes (mem : Memory) (blockSize : Nat) (r n : Addr) :
    ∃ mem' self, Arena.init mem blockSize (some r) (some n) = .ok (mem', self) := by
  simp [Arena.init, createNewChunk_eq, deref_of_lookup (AList.lookup_insert _), RangeMap.insert,
    RangeMap.insertNode, RangeMap.init, RangeMap.createNode]

/-- A new arena has one chunk, from which nothing is issued. -/
theorem init_sound (placed : mem.Placed blockSize) (positive : 0 < blockSize) (small : blockSize ≤ 255)
    (fresh : mem.Fresh blockSize r) {n : Addr}
    (run : Arena.init mem blockSize (some r) (some n) = .ok (mem', self)) :
    ∃ t, self.Sound blockSize mem' t (fun _ => []) ∧ t.mapped = [r] ∧
      mem'.chunks = mem.chunks.insert r (newChunk blockSize mem r).1 ∧
      mem'.bytes = (newChunk blockSize mem r).2 ∧ mem'.freed = mem.freed := by
  have bare : Holds blockSize mem ⟨blockSize, RangeMap.init, some r, some r, true⟩ .nil (fun _ => []) :=
    ⟨rfl, placed, ⟨RangeMap.stores_init, .nil, by simp⟩, by simp [AvlTree.mapped]⟩
  simp only [Arena.init, createNewChunk_eq, ok_bind, deref_of_lookup (AList.lookup_insert _)] at run
  obtain ⟨⟨chunks, inserted⟩, entered, rest⟩ := bind_eq_ok run
  simp only [Except.ok.injEq, Prod.mk.injEq] at rest
  obtain ⟨rfl, rfl⟩ := rest
  obtain ⟨t', only, sound⟩ := bare.enter_first positive small fresh rfl entered
  rw [Function.update_eq_self] at sound
  exact ⟨t', sound, only, rfl, rfl, rfl⟩

end Malloc

end Arena

end SmallObject
