import SmallObject.Library.FreeList
import SmallObject.Sys

/-! `chunk`: 255 blocks of one size behind a header, with the free list in the blocks.

The header is an object of its own; the blocks are bytes of memory that user and free
list share. Pointer differences are values of `size_t` and wrap, block numbers are
bytes. The word size is that of a 64 bit platform.
-/

set_option autoImplicit false

namespace SmallObject

open Linked Threaded

/-- The contents of memory, byte by byte. -/
abbrev Bytes := Addr → UInt8

/-- The number of values of `size_t`. -/
def sizeRange : Nat := 2 ^ 64

/-- The difference of two pointers that are read as `size_t`. -/
def sizeSub (a b : Addr) : Nat := (a + sizeRange - b) % sizeRange

structure Chunk where
  begin : Addr
  end_ : Addr
  freeBlocks : UInt8
  position : UInt8
  deriving DecidableEq, Repr

namespace Chunk

def maxBlocks : UInt8 := 255

/-- `for (uint8_t i = 1; i < MAX_BLOCKS; i++) { *p = i; p += block_size; }` -/
def linkBlocks (blockSize : Nat) (begin : Addr) (bytes : Bytes) : Bytes :=
  ((List.range' 1 254).foldl (fun (p, bytes) i => (p + blockSize, Function.update bytes p (UInt8.ofNat i)))
    (begin, bytes)).2

/-- The constructor; the block size is a byte here. -/
def init (blockSize : UInt8) (begin : Addr) (bytes : Bytes) : Chunk × Bytes :=
  ({ begin := begin
     end_ := begin + maxBlocks.toNat * blockSize.toNat
     freeBlocks := maxBlocks
     position := 0 },
    linkBlocks blockSize.toNat begin bytes)

def allocate (self : Chunk) (bytes : Bytes) (blockSize : Nat) : Ptr × Chunk :=
  if self.freeBlocks = 0 then (none, self)
  else
    -- the first byte of a free block is the number of the next one
    let result := self.begin + self.position.toNat * blockSize
    (some result, { self with position := bytes result, freeBlocks := self.freeBlocks - 1 })

/-- The statements of `release` after its guard. -/
def returnBlock (self : Chunk) (bytes : Bytes) (ptr : Addr) (blockSize : Nat) : Chunk × Bytes :=
  let p := sizeSub ptr self.begin / blockSize
  ({ self with position := UInt8.ofNat p, freeBlocks := self.freeBlocks + 1 },
    Function.update bytes ptr self.position)

/-- The guard refuses the pointers of this very chunk. -/
def release (self : Chunk) (bytes : Bytes) (ptr : Addr) (blockSize : Nat) : Bool × Chunk × Bytes :=
  if ptr ≤ self.end_ ∧ self.begin ≤ ptr then (false, self, bytes)
  else (true, self.returnBlock bytes ptr blockSize)

def empty (self : Chunk) : Bool := maxBlocks == self.freeBlocks

/-- The address of a block. -/
def blockAt (self : Chunk) (blockSize i : Nat) : Addr := self.begin + i * blockSize

/-- All blocks in the order of their addresses. -/
def blocks (begin : Addr) (blockSize : Nat) : List Addr :=
  (List.range 255).map fun i => begin + i * blockSize

/-- The free list of a chunk: every block is either issued or free, the links lead through
the free ones, and the counter says how many they are. Nothing is said of the link of the
last free block, nor of the bytes of issued ones. -/
structure Owns (blockSize : Nat) (c : Chunk) (bytes : Bytes) (issued : List Addr) (free : List Nat) : Prop where
  placed : (issued ++ free.map (c.blockAt blockSize)).Perm (blocks c.begin blockSize)
  threads : Threads (fun i => (bytes (c.blockAt blockSize i)).toNat) c.position.toNat free
  counted : c.freeBlocks.toNat = free.length

section Blocks

variable {blockSize i j begin a : Nat}

theorem blocks_nodup (positive : 0 < blockSize) : (blocks begin blockSize).Nodup := by
  refine List.Nodup.map (fun i j same => ?_) List.nodup_range
  have : i * blockSize = j * blockSize := by simpa using same
  exact Nat.eq_of_mul_eq_mul_right positive this

theorem mem_blocks : a ∈ blocks begin blockSize ↔ ∃ i < 255, begin + i * blockSize = a := by
  simp [blocks]

theorem length_blocks : (blocks begin blockSize).length = 255 := by simp [blocks]

/-- Bytes of different blocks are different. -/
theorem block_apart (different : i ≠ j) (low : begin + i * blockSize ≤ a)
    (high : a < begin + i * blockSize + blockSize) : begin + j * blockSize ≠ a := by
  rcases Nat.lt_or_gt_of_ne different with below | above
  · have := Nat.mul_le_mul_right blockSize (Nat.succ_le_of_lt below)
    rw [Nat.succ_mul] at this
    omega
  · have := Nat.mul_le_mul_right blockSize (Nat.succ_le_of_lt above)
    rw [Nat.succ_mul] at this
    omega

/-- The block number that `release` computes for a block of the chunk. -/
theorem sizeSub_block (positive : 0 < blockSize) (small : blockSize ≤ 255) (inside : i < 255) :
    sizeSub (begin + i * blockSize) begin / blockSize = i := by
  have bound : i * blockSize < sizeRange := by
    have := Nat.mul_le_mul (Nat.le_of_lt inside) small
    unfold sizeRange
    omega
  have offset : begin + i * blockSize + sizeRange - begin = i * blockSize + sizeRange := by omega
  rw [sizeSub, offset, Nat.add_mod_right, Nat.mod_eq_of_lt bound, Nat.mul_div_cancel _ positive]

end Blocks

/-! ## The constructor -/

/-- The loop after some rounds: where it is, and which links it has written. -/
theorem linkBlocks_rounds {blockSize : Nat} (positive : 0 < blockSize) (begin : Nat) (bytes : Bytes) (n : Nat) :
    ∃ bytes', (List.range' 1 n).foldl
        (fun (p, bytes) i => (p + blockSize, Function.update bytes p (UInt8.ofNat i))) (begin, bytes) =
          (begin + n * blockSize, bytes') ∧
      (∀ i < n, bytes' (begin + i * blockSize) = UInt8.ofNat (i + 1)) ∧
      (∀ a : Nat, (a < begin ∨ begin + n * blockSize ≤ a) → bytes' a = bytes a) := by
  -- a round writes one link, above all that were written before
  induction n with
  | zero => exact ⟨bytes, by simp, by simp, by simp⟩
  | succ n ih =>
    obtain ⟨bytes', run, linked, outside⟩ := ih
    refine ⟨Function.update bytes' (begin + n * blockSize) (UInt8.ofNat (n + 1)), ?_, fun i below => ?_,
      fun a away => ?_⟩
    · rw [List.range'_concat, List.foldl_concat, run]
      simp [Nat.add_mul, Nat.add_assoc, Nat.add_comm 1]
    · rcases Nat.lt_succ_iff_lt_or_eq.mp below with earlier | rfl
      · have apart : begin + i * blockSize ≠ begin + n * blockSize :=
          block_apart (Nat.ne_of_gt earlier) (Nat.le_refl _) (by omega)
        rw [Function.update_of_ne apart]
        exact linked i earlier
      · simp
    · rw [Nat.add_mul] at away
      have apart : a ≠ begin + n * blockSize := by omega
      rw [Function.update_of_ne apart]
      exact outside a (by omega)

theorem linkBlocks_links {blockSize : Nat} (positive : 0 < blockSize) (begin : Nat) (bytes : Bytes) :
    (∀ i < 254, linkBlocks blockSize begin bytes (begin + i * blockSize) = UInt8.ofNat (i + 1)) ∧
      (∀ a : Nat, (a < begin ∨ begin + 254 * blockSize ≤ a) → linkBlocks blockSize begin bytes a = bytes a) := by
  obtain ⟨bytes', run, linked, outside⟩ := linkBlocks_rounds positive begin bytes 254
  unfold linkBlocks
  rw [run]
  exact ⟨linked, outside⟩

-- the loop is reasoned about by its links only
attribute [irreducible] linkBlocks

/-- A new chunk owns all blocks, the first one at the head of its free list. -/
theorem init_owns {blockSize : Nat} (positive : 0 < blockSize) (small : blockSize ≤ 255) (begin : Addr)
    (bytes : Bytes) :
    Owns blockSize (init (UInt8.ofNat blockSize) begin bytes).1 (init (UInt8.ofNat blockSize) begin bytes).2
      [] (List.range 255) := by
  have exact : (UInt8.ofNat blockSize).toNat = blockSize := by
    rw [UInt8.toNat_ofNat']
    omega
  refine ⟨List.Perm.refl _, ?_, by simp [init, maxBlocks]⟩
  rw [List.range_eq_range']
  refine Threads.range 0 fun i _ inside => ?_
  -- the last block has no link, and needs none
  have below : i < 254 := by omega
  have link := (linkBlocks_links positive begin bytes).1 i below
  simp only [init, blockAt, exact, link, UInt8.toNat_ofNat']
  omega

/-! ## One step -/

namespace Owns

variable {blockSize : Nat} {c : Chunk} {bytes bytes' : Bytes} {issued : List Addr} {free : List Nat}

theorem length (owns : Owns blockSize c bytes issued free) : issued.length + free.length = 255 := by
  have := owns.placed.length_eq
  simpa [length_blocks] using this

theorem nodup (owns : Owns blockSize c bytes issued free) (positive : 0 < blockSize) :
    (issued ++ free.map (c.blockAt blockSize)).Nodup :=
  owns.placed.nodup_iff.mpr (blocks_nodup positive)

theorem issued_block (owns : Owns blockSize c bytes issued free) {p : Addr} (member : p ∈ issued) :
    ∃ i < 255, c.blockAt blockSize i = p :=
  mem_blocks.mp (owns.placed.subset (List.mem_append_left _ member))

theorem free_block (owns : Owns blockSize c bytes issued free) (positive : 0 < blockSize) {i : Nat}
    (member : i ∈ free) : i < 255 := by
  have inside := owns.placed.subset (List.mem_append_right _ (List.mem_map_of_mem member))
  obtain ⟨j, below, same⟩ := mem_blocks.mp inside
  have : j * blockSize = i * blockSize := by simpa [blockAt] using same
  exact Nat.eq_of_mul_eq_mul_right positive this ▸ below

theorem issued_ne_free (owns : Owns blockSize c bytes issued free) (positive : 0 < blockSize) {i j : Nat}
    (used : c.blockAt blockSize i ∈ issued) (member : j ∈ free) : i ≠ j := by
  rintro rfl
  exact (List.nodup_append.mp (owns.nodup positive)).2.2 _ used _ (List.mem_map_of_mem member) rfl

/-- Only the links of free blocks matter. -/
theorem congr (owns : Owns blockSize c bytes issued free)
    (same : ∀ i ∈ free, bytes' (c.blockAt blockSize i) = bytes (c.blockAt blockSize i)) :
    Owns blockSize c bytes' issued free :=
  ⟨owns.placed, owns.threads.congr fun i member => by rw [same i member], owns.counted⟩

/-- A write into an issued block. -/
theorem write (owns : Owns blockSize c bytes issued free) (positive : 0 < blockSize) {p a : Addr} {v : UInt8}
    (used : p ∈ issued) (low : p ≤ a) (high : a < p + blockSize) :
    Owns blockSize c (Function.update bytes a v) issued free := by
  obtain ⟨i, _, rfl⟩ := owns.issued_block used
  refine owns.congr fun j member => Function.update_of_ne ?_ _ _
  exact block_apart (owns.issued_ne_free positive used member) low high

theorem allocate_none (owns : Owns blockSize c bytes issued free) :
    (c.allocate bytes blockSize).1 = none ↔ free = [] := by
  have zero : c.freeBlocks = 0 ↔ c.freeBlocks.toNat = 0 := by
    rw [← UInt8.toNat_inj]
    rfl
  rw [← List.length_eq_zero_iff, ← owns.counted, ← zero]
  unfold Chunk.allocate
  split <;> simp_all

/-- `allocate` takes the head of the free list. -/
theorem allocate_cons {i : Nat} (owns : Owns blockSize c bytes issued (i :: free)) :
    ∃ c', c.allocate bytes blockSize = (some (c.blockAt blockSize i), c') ∧ c'.begin = c.begin ∧
      c'.end_ = c.end_ ∧ Owns blockSize c' bytes (c.blockAt blockSize i :: issued) free := by
  obtain ⟨head, rest⟩ := owns.threads
  have counted := owns.counted
  rw [List.length_cons] at counted
  have some : c.freeBlocks ≠ 0 := by
    intro zero
    rw [zero] at counted
    simp at counted
  refine ⟨{ c with position := bytes (c.blockAt blockSize i), freeBlocks := c.freeBlocks - 1 }, ?_, rfl, rfl,
    ?_, ?_, ?_⟩
  · simp [Chunk.allocate, some, head, blockAt]
  · exact List.perm_middle.symm.trans owns.placed
  · exact rest
  · have one : (1 : UInt8) ≤ c.freeBlocks := by
      rw [UInt8.le_iff_toNat_le]
      simp
      omega
    have := UInt8.toNat_sub_of_le _ _ one
    simp only [this, counted]
    simp

/-- Returning an issued block puts it at the head of the free list. -/
theorem returnBlock (owns : Owns blockSize c bytes issued free) (positive : 0 < blockSize)
    (small : blockSize ≤ 255) {p : Addr} (used : p ∈ issued) :
    ∃ i c', c.blockAt blockSize i = p ∧
      c.returnBlock bytes p blockSize = (c', Function.update bytes p c.position) ∧ c'.begin = c.begin ∧
      c'.end_ = c.end_ ∧
      Owns blockSize c' (Function.update bytes p c.position) (issued.erase p) (i :: free) := by
  obtain ⟨i, inside, rfl⟩ := owns.issued_block used
  have number : sizeSub (c.blockAt blockSize i) c.begin / blockSize = i := sizeSub_block positive small inside
  have length := owns.length
  have some : 0 < issued.length := List.length_pos_of_mem used
  refine ⟨i, { c with position := UInt8.ofNat i, freeBlocks := c.freeBlocks + 1 }, rfl, ?_, rfl, rfl, ?_, ?_, ?_⟩
  · simp [Chunk.returnBlock, number]
  · exact List.perm_middle.trans (((List.perm_cons_erase used).symm.append_right _).trans owns.placed)
  · have position : (UInt8.ofNat i).toNat = i := by
      rw [UInt8.toNat_ofNat']
      omega
    simp only [position]
    refine Threads.push owns.threads (by simp [blockAt]) fun j member => ?_
    have apart : c.blockAt blockSize j ≠ c.blockAt blockSize i :=
      block_apart (owns.issued_ne_free positive used member) (Nat.le_refl _) (Nat.lt_add_of_pos_right positive)
    simp only [blockAt] at apart ⊢
    rw [Function.update_of_ne apart]
  · simp only [UInt8.toNat_add, owns.counted, List.length_cons]
    simp
    omega

end Owns

end Chunk

end SmallObject
