import SmallObject.Arena.Ownership

/-! `arena::free`: what it does with a pointer, and that this is never what it is for.

The guard of `chunk::release` refuses exactly the pointers that it should accept. So
the cached chunk swallows every pointer outside its own range, a pointer inside it is
looked up and refused once more, and both ways the call reports success.
-/

set_option autoImplicit false

namespace SmallObject

open Linked AvlTree Threaded

namespace Chunk

/-- The position starts a path of as many distinct blocks as the counter says, none of them live. -/
structure Listed (blockSize : Nat) (c : Chunk) (bytes : Bytes) (live : List Addr) : Prop where
  path : ∃ free : List Nat, Threads (fun i => (bytes (c.blockAt blockSize i)).toNat) c.position.toNat free ∧
    c.freeBlocks.toNat = free.length ∧ free.Nodup ∧ ∀ i ∈ free, i < 255 ∧ c.blockAt blockSize i ∉ live
  block : ∀ p ∈ live, ∃ i < 255, c.blockAt blockSize i = p

variable {blockSize : Nat} {c : Chunk} {bytes : Bytes} {p : Addr}

theorem Owns.listed {issued : List Addr} {free : List Nat} (owns : Owns blockSize c bytes issued free)
    (positive : 0 < blockSize) : Listed blockSize c bytes issued := by
  refine ⟨⟨free, owns.threads, owns.counted, ?_, fun i member => ⟨owns.free_block positive member, fun used => ?_⟩⟩,
    fun p used => owns.issued_block used⟩
  · exact List.Nodup.of_map _ (owns.nodup positive).of_append_right
  · exact owns.issued_ne_free positive used member rfl

theorem release_inside (low : c.begin ≤ p) (high : p ≤ c.end_) :
    c.release bytes p blockSize = (false, c, bytes) := by
  simp [release, low, high]

theorem release_outside (outside : ¬ (c.begin ≤ p ∧ p ≤ c.end_)) :
    c.release bytes p blockSize = (true, c.returnBlock bytes p blockSize) := by
  rw [release, if_neg (fun inside => outside inside.symm)]

end Chunk

/-- A block is put at the head of the free list of its chunk, and no other chunk changes. -/
structure Memory.Returns (blockSize : Nat) (mem mem' : Memory) (r p : Addr) : Prop where
  head : ∃ c c', mem.chunks.lookup r = some c ∧ mem'.chunks.lookup r = some c' ∧
    c'.freeBlocks = c.freeBlocks + 1 ∧ c'.blockAt blockSize c'.position.toNat = p ∧
    mem'.bytes = Function.update mem.bytes p c.position
  others : ∀ s, s ≠ r → mem'.chunks.lookup s = mem.chunks.lookup s

/-- A chunk that is as it was has not got a block back. -/
theorem Memory.not_returns {blockSize : Nat} {mem mem' : Memory} {r p : Addr}
    (same : mem'.chunks.lookup r = mem.chunks.lookup r) : ¬ mem.Returns blockSize mem' r p := by
  rintro ⟨⟨c, c', found, found', more, _⟩, _⟩
  obtain rfl : c = c' := Option.some.inj (found.symm.trans (same.symm.trans found'))
  have := congrArg UInt8.toNat more
  rw [UInt8.toNat_add] at this
  have bound := c.freeBlocks.toNat_lt
  simp at this
  omega

namespace Arena

variable {blockSize : Nat} {mem mem' : Memory} {self self' : Arena} {t : AvlTree Addr Addr} {r p : Addr}
  {c : Chunk}

theorem tryToFree_inside (found : mem.chunks.lookup r = some c) (low : c.begin ≤ p) (high : p ≤ c.end_) :
    self.tryToFree mem p (some r) = .ok (false, mem, self) := by
  simp [tryToFree, deref_of_lookup found, Chunk.release_inside low high]

/-- A pointer of the cached chunk is looked up, refused again, and reported as released. -/
theorem free_cached (placed : mem.Placed blockSize) (maps : self.Maps mem t) (member : r ∈ t.mapped)
    (cached : self.freeCurrent = some r) (found : mem.chunks.lookup r = some c) (low : c.begin ≤ p)
    (high : p ≤ c.end_) : self.free mem p = .ok (true, mem, self) := by
  obtain ⟨a, cell, looked, stored, load⟩ := maps.find placed member found low high
  simp [free, cached, tryToFree_inside found low high, lookupChunkAndFree, looked, deref_of_lookup stored, load]

/-- Any other pointer is taken for a block of the cached chunk. -/
theorem free_elsewhere (cached : self.freeCurrent = some r) (found : mem.chunks.lookup r = some c)
    (outside : ¬ (c.begin ≤ p ∧ p ≤ c.end_)) :
    self.free mem p = .ok (true, { mem with
      bytes := (c.returnBlock mem.bytes p self.blockSize).2
      chunks := mem.chunks.insert r (c.returnBlock mem.bytes p self.blockSize).1 }, self) := by
  simp [free, cached, tryToFree, deref_of_lookup found, Chunk.release_outside outside]
  rw [← cached]

/-- An arena whose map is right and whose chunks have consistent free lists. -/
structure Consistent (blockSize : Nat) (mem : Memory) (arena : Arena) (t : AvlTree Addr Addr)
    (live : Addr → List Addr) : Prop where
  size : arena.blockSize = blockSize
  placed : mem.Placed blockSize
  maps : arena.Maps mem t
  listed : ∀ r ∈ t.mapped, ∀ c, mem.chunks.lookup r = some c → c.Listed blockSize mem.bytes (live r)
  free : ∃ r ∈ t.mapped, arena.freeCurrent = some r

variable {live : Addr → List Addr}

theorem Sound.consistent (sound : self.Sound blockSize mem t live) (positive : 0 < blockSize) :
    self.Consistent blockSize mem t live := by
  refine ⟨sound.size, sound.placed, sound.maps, fun r member c found => ?_, sound.free⟩
  obtain ⟨free, owns⟩ := sound.owns r member c found
  exact owns.listed positive

theorem Consistent.in_chunk (consistent : self.Consistent blockSize mem t live) (positive : 0 < blockSize)
    (member : r ∈ t.mapped) (found : mem.chunks.lookup r = some c) (used : p ∈ live r) :
    c.begin ≤ p ∧ p < c.end_ := by
  obtain ⟨begin, end_, _⟩ := consistent.placed.shape r c found
  obtain ⟨i, inside, rfl⟩ := (consistent.listed r member c found).block p used
  have bound := Nat.mul_le_mul_right blockSize (Nat.succ_le_of_lt inside)
  rw [Nat.succ_mul] at bound
  simp only [Chunk.blockAt, end_, begin, regionSize]
  lia

/-- What `free` is for: a live block goes back to its chunk and nothing else changes; any
other pointer is refused, and memory stays as it is. -/
def FreeMeets (blockSize : Nat) (mem : Memory) (self : Arena) (t : AvlTree Addr Addr)
    (live : Addr → List Addr) (p : Addr) : Prop :=
  ∃ found mem' self', self.free mem p = .ok (found, mem', self') ∧
    (found = true ↔ ∃ r ∈ t.mapped, p ∈ live r) ∧
    (∀ r ∈ t.mapped, p ∈ live r → mem.Returns blockSize mem' r p) ∧
    (found = false → (∀ r, mem'.chunks.lookup r = mem.chunks.lookup r) ∧ mem'.bytes = mem.bytes)

/-- Whatever the pointer, `free` reports success, and no chunk that it points into changes. -/
theorem Consistent.free_outcome (consistent : self.Consistent blockSize mem t live) (p : Addr) :
    ∃ mem' self', self.free mem p = .ok (true, mem', self') ∧
      ∀ r ∈ t.mapped, ∀ c, mem.chunks.lookup r = some c → c.begin ≤ p → p ≤ c.end_ →
        mem'.chunks.lookup r = mem.chunks.lookup r := by
  obtain ⟨f, member, cached⟩ := consistent.free
  obtain ⟨d, found⟩ := consistent.maps.mapped_chunk member
  by_cases inside : d.begin ≤ p ∧ p ≤ d.end_
  · exact ⟨mem, self, free_cached consistent.placed consistent.maps member cached found inside.1 inside.2,
      fun _ _ _ _ _ _ => rfl⟩
  · refine ⟨_, _, free_elsewhere cached found inside, fun r _ c stored low high => ?_⟩
    have different : r ≠ f := by
      rintro rfl
      obtain rfl : d = c := Option.some.inj (found.symm.trans stored)
      exact inside ⟨low, high⟩
    exact AList.lookup_insert_ne different

/-- On no consistent arena, and for no live block and no foreign pointer, is the outcome right. -/
theorem free_never_meets (consistent : self.Consistent blockSize mem t live) (positive : 0 < blockSize)
    (place : (∃ r ∈ t.mapped, p ∈ live r) ∨
      ∀ r ∈ t.mapped, ∀ c, mem.chunks.lookup r = some c → ¬ (c.begin ≤ p ∧ p < c.end_)) :
    ¬ FreeMeets blockSize mem self t live p := by
  rintro ⟨found, mem', self', run, accepted, returned, _⟩
  obtain ⟨mem₁, self₁, done, kept⟩ := consistent.free_outcome p
  obtain ⟨rfl, rfl, rfl⟩ : true = found ∧ mem₁ = mem' ∧ self₁ = self' := by simpa [done] using run
  rcases place with ⟨r, member, used⟩ | foreign
  · obtain ⟨c, stored⟩ := consistent.maps.mapped_chunk member
    obtain ⟨low, high⟩ := consistent.in_chunk positive member stored used
    exact Memory.not_returns (kept r member c stored low (Nat.le_of_lt high)) (returned r member used)
  · obtain ⟨r, member, used⟩ := accepted.mp rfl
    obtain ⟨c, stored⟩ := consistent.maps.mapped_chunk member
    exact foreign r member c stored (consistent.in_chunk positive member stored used)

/-- An address that is in no chunk of a new arena. -/
theorem free_never_meets_foreign :
    ∃ mem self t, Arena.init .unallocated 16 (some 16384) (some 1) = .ok (mem, self) ∧
      self.Consistent 16 mem t (fun _ => []) ∧ ¬ FreeMeets 16 mem self t (fun _ => []) 100 := by
  obtain ⟨mem, self, made⟩ := init_completes .unallocated 16 16384 1
  obtain ⟨t, sound, mapped, _⟩ := init_sound (r := 16384) Memory.placed_unallocated (by decide) (by decide)
    (Memory.fresh_unallocated (by decide)) made
  have consistent := sound.consistent (by decide)
  refine ⟨mem, self, t, made, consistent, free_never_meets consistent (by decide) (.inr fun r member c found => ?_)⟩
  obtain ⟨begin, _, _⟩ := consistent.placed.shape r c found
  rw [mapped, List.mem_singleton] at member
  simp [begin, member, sizeofChunk]

/-- The only live block of an arena is freed: the call reports success and does nothing. -/
theorem free_loses_block :
    ∃ mem₀ self₀ mem self t live, Arena.init .unallocated 16 (some 16384) (some 1) = .ok (mem₀, self₀) ∧
      self₀.malloc mem₀ (some 32768) none = .ok (.returned (some 16408), mem, self) ∧
      self.Consistent 16 mem t live ∧ (∃ r ∈ t.mapped, 16408 ∈ live r) ∧
      ¬ FreeMeets 16 mem self t live 16408 := by
  obtain ⟨mem₀, self₀, made⟩ := init_completes .unallocated 16 16384 1
  obtain ⟨t, sound, mapped, chunks, bytes, _⟩ := init_sound (r := 16384) Memory.placed_unallocated (by decide)
    (by decide) (Memory.fresh_unallocated (by decide)) made
  have member : 16384 ∈ t.mapped := by simp [mapped]
  have found : mem₀.chunks.lookup 16384 = some (newChunk 16 .unallocated 16384).1 := by simp [chunks]
  have small : 0 < 16 ∧ 16 ≤ 255 := by decide
  have owns := newChunk_owns small.1 small.2 .unallocated 16384
  rw [← bytes] at owns
  obtain ⟨c, taken, sound', issues⟩ := sound.issue (by decide) member found owns
  have first : (newChunk 16 .unallocated 16384).1.blockAt 16 0 = 16408 := rfl
  rw [first] at taken sound' issues
  have cached : self₀.allocCurrent = some 16384 := by
    obtain ⟨r, inMap, cached⟩ := sound.alloc
    rw [mapped, List.mem_singleton] at inMap
    rw [cached, inMap]
  refine ⟨mem₀, self₀, _, _, t, _, made, ?_, sound'.consistent (by decide), ⟨16384, member, by simp⟩, ?_⟩
  · simp [Arena.malloc, cached, tryToAlloc, deref_of_lookup found, taken]
  -- the chunk refuses the pointer, and the search comes to the same chunk
  · rintro ⟨yes, mem', self', run, _, returned, _⟩
    obtain ⟨mem₁, self₁, done, kept⟩ := (sound'.consistent (by decide)).free_outcome 16408
    obtain ⟨rfl, rfl, rfl⟩ : true = yes ∧ mem₁ = mem' ∧ self₁ = self' := by simpa [done] using run
    have inside := sound'.in_chunk (p := 16408) member (AList.lookup_insert _) (by simp)
    exact Memory.not_returns (kept 16384 member c (AList.lookup_insert _) inside.1 (by lia))
      (returned 16384 member (by simp))

end Arena

end SmallObject
