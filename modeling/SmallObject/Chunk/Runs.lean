import SmallObject.Chunk

/-! Runs of one chunk: blocks are taken and given back while their users write into them.

Seen from outside the chunk is a stack of block addresses. What it hands out depends
on the order of the calls only: not on the memory it was built in, and not on what is
written into the blocks that are in use.
-/

set_option autoImplicit false

namespace SmallObject

open Linked Threaded

namespace Chunk

/-- A chunk, the memory around it, and the blocks that are in use. -/
structure State where
  chunk : Chunk
  bytes : Bytes
  live : List Addr

/-- The runs of a chunk from its construction on, with the calls made and what they returned.
A block is given back by the statements of `release` behind its guard. -/
inductive Run (blockSize : Nat) (begin : Addr) (bytes₀ : Bytes) :
    List (Command Addr) → List Ptr → State → Prop
  | start : Run blockSize begin bytes₀ [] []
      { chunk := (init (UInt8.ofNat blockSize) begin bytes₀).1
        bytes := (init (UInt8.ofNat blockSize) begin bytes₀).2
        live := [] }
  | allocate {cs : List (Command Addr)} {results : List Ptr} {s : State} :
    Run blockSize begin bytes₀ cs results s →
    Run blockSize begin bytes₀ (cs ++ [.take]) (results ++ [(s.chunk.allocate s.bytes blockSize).1])
      { s with
        chunk := (s.chunk.allocate s.bytes blockSize).2
        live := (s.chunk.allocate s.bytes blockSize).1.toList ++ s.live }
  | returnBlock (ptr : Addr) {cs : List (Command Addr)} {results : List Ptr} {s : State} :
    Run blockSize begin bytes₀ cs results s → ptr ∈ s.live →
    Run blockSize begin bytes₀ (cs ++ [.give ptr]) results
      { chunk := (s.chunk.returnBlock s.bytes ptr blockSize).1
        bytes := (s.chunk.returnBlock s.bytes ptr blockSize).2
        live := s.live.erase ptr }
  | write (ptr a : Addr) (v : UInt8) {cs : List (Command Addr)} {results : List Ptr} {s : State} :
    Run blockSize begin bytes₀ cs results s → ptr ∈ s.live → ptr ≤ a → a < ptr + blockSize →
    Run blockSize begin bytes₀ cs results { s with bytes := Function.update s.bytes a v }

variable {blockSize : Nat} {begin : Addr} {bytes₀ : Bytes} {cs : List (Command Addr)}
  {results : List Ptr} {s : State}

/-- The chunk after some calls is the stack after the same calls. -/
def Implements (blockSize : Nat) (begin : Addr) (cs : List (Command Addr)) (results : List Ptr) (s : State) :
    Prop :=
  ∃ free, Owns blockSize s.chunk s.bytes s.live free ∧ s.chunk.begin = begin ∧
    results = outcomes (blocks begin blockSize) cs ∧
    free.map (s.chunk.blockAt blockSize) = remaining (blocks begin blockSize) cs

theorem allocate_head {free : List Nat} (owns : Owns blockSize s.chunk s.bytes s.live free) :
    (s.chunk.allocate s.bytes blockSize).1 = (free.map (s.chunk.blockAt blockSize)).head? := by
  cases free with
  | nil => exact owns.allocate_none.mpr rfl
  | cons i rest =>
    obtain ⟨c', run, _⟩ := owns.allocate_cons
    simp [run]

theorem Implements.allocate (implements : Implements blockSize begin cs results s) :
    Implements blockSize begin (cs ++ [.take]) (results ++ [(s.chunk.allocate s.bytes blockSize).1])
      { s with
        chunk := (s.chunk.allocate s.bytes blockSize).2
        live := (s.chunk.allocate s.bytes blockSize).1.toList ++ s.live } := by
  obtain ⟨free, owns, here, handed, stack⟩ := implements
  have outcome : results ++ [(s.chunk.allocate s.bytes blockSize).1] =
      outcomes (blocks begin blockSize) (cs ++ [.take]) := by
    rw [outcomes_append, ← handed, ← stack, allocate_head owns]
    rfl
  cases free with
  | nil =>
    -- nothing is left, and the chunk stays as it is
    have none := owns.allocate_none.mpr rfl
    have unchanged : (s.chunk.allocate s.bytes blockSize).2 = s.chunk := by
      unfold Chunk.allocate at none ⊢
      split at none
      next zero => simp [zero]
      next => simp at none
    refine ⟨[], ?_, by simp [unchanged, here], outcome, ?_⟩
    · simpa [none, unchanged] using owns
    · rw [remaining_append, ← stack]
      rfl
  | cons i rest =>
    obtain ⟨c', run, here', _, owns'⟩ := owns.allocate_cons
    refine ⟨rest, by simpa [run] using owns', by simp [run, here', here], outcome, ?_⟩
    rw [remaining_append, ← stack]
    simp [remaining, after, run, blockAt, here']

theorem Implements.returnBlock (implements : Implements blockSize begin cs results s)
    (positive : 0 < blockSize) (small : blockSize ≤ 255) {ptr : Addr} (used : ptr ∈ s.live) :
    Implements blockSize begin (cs ++ [.give ptr]) results
      { chunk := (s.chunk.returnBlock s.bytes ptr blockSize).1
        bytes := (s.chunk.returnBlock s.bytes ptr blockSize).2
        live := s.live.erase ptr } := by
  obtain ⟨free, owns, here, handed, stack⟩ := implements
  obtain ⟨i, c', place, run, here', _, owns'⟩ := owns.returnBlock positive small used
  refine ⟨i :: free, by simpa [run] using owns', by simp [run, here', here], ?_, ?_⟩
  · rw [outcomes_append, ← handed]
    simp [outcomes, Threaded.handed]
  · simp only [run]
    rw [remaining_append, ← stack]
    simp [remaining, after, blockAt, here', ← place]

theorem Run.implements (positive : 0 < blockSize) (small : blockSize ≤ 255)
    (run : Run blockSize begin bytes₀ cs results s) : Implements blockSize begin cs results s := by
  induction run with
  | start =>
    have owns := init_owns positive small begin bytes₀
    refine ⟨List.range 255, by simpa only using owns, rfl, by simp [outcomes], ?_⟩
    simp only [remaining, List.foldl_nil]
    rfl
  | allocate _ ih => exact ih.allocate
  | returnBlock ptr _ used ih => exact ih.returnBlock positive small used
  | write ptr a v _ used low high ih =>
    obtain ⟨free, owns, rest⟩ := ih
    exact ⟨free, owns.write positive used low high, rest⟩

/-- At every point of every run: `allocate` fails only when all blocks are in use, and
otherwise returns a block that is not; the counter is exact; and neither the memory the
chunk was built in nor any write has an influence on what calls return. -/
theorem run_allocates (positive : 0 < blockSize) (small : blockSize ≤ 255)
    (run : Run blockSize begin bytes₀ cs results s) :
    ((s.chunk.allocate s.bytes blockSize).1 = none ↔ s.live.length = 255) ∧
    (∀ p, (s.chunk.allocate s.bytes blockSize).1 = some p →
      ∃ i < 255, p = begin + i * blockSize ∧ p ∉ s.live) ∧
    s.live.Nodup ∧ s.chunk.freeBlocks.toNat + s.live.length = 255 ∧
    (∀ bytes₁ results' s', Run blockSize begin bytes₁ cs results' s' →
      results' = results ∧
        (s'.chunk.allocate s'.bytes blockSize).1 = (s.chunk.allocate s.bytes blockSize).1) := by
  obtain ⟨free, owns, here, handed, stack⟩ := run.implements positive small
  have length := owns.length
  have nodup := owns.nodup positive
  refine ⟨?_, fun p returned => ?_, nodup.of_append_left, ?_, fun bytes₁ results' s' run' => ?_⟩
  · rw [owns.allocate_none, ← List.length_eq_zero_iff]
    omega
  · cases free with
    | nil => simp [owns.allocate_none.mpr rfl] at returned
    | cons i rest =>
      obtain ⟨c', step, _⟩ := owns.allocate_cons
      obtain rfl : s.chunk.blockAt blockSize i = p := by simpa [step] using returned
      refine ⟨i, owns.free_block positive List.mem_cons_self, by simp [blockAt, here], fun used => ?_⟩
      exact owns.issued_ne_free positive used List.mem_cons_self rfl
  · rw [owns.counted]
    omega
  -- what a call returns depends on the calls before it only
  · obtain ⟨free', owns', _, handed', stack'⟩ := run'.implements positive small
    rw [handed, handed', allocate_head owns, allocate_head owns', stack, stack']
    exact ⟨rfl, rfl⟩

/-- Two blocks of 16 bytes are taken, the first is written over and given back. -/
theorem run_allocates_reuse :
    ∃ results s, Run 16 1000 (fun _ => 0) [.take, .take, .give 1000] results s ∧
      results = [some 1000, some 1016] ∧ s.live = [1016] ∧
      s.chunk.freeBlocks.toNat + s.live.length = 255 := by
  have started : Run 16 1000 (fun _ => 0) [] [] _ := .start
  have taken := started.allocate.allocate
  have written := taken.write 1000 1003 77 (by decide +kernel) (by decide) (by decide)
  have returned := written.returnBlock 1000 (by decide +kernel)
  exact ⟨_, _, returned, by decide +kernel, by decide +kernel,
    (run_allocates (by decide) (by decide) returned).2.2.2.1⟩

end Chunk

end SmallObject
