import SmallObject.Arena.Shrink

/-! Arenas of different block sizes in one memory.

For every chunk it is written down whose it is, how long its blocks are and which of them were
handed out. An operation of one arena leaves the chunks of the others alone, hands out a block that
no chunk has handed out before, and gives back no chunk with a block in use.
-/

set_option autoImplicit false

namespace SmallObject

open Linked AvlTree

/-- What is known of a chunk besides its header. -/
structure Deed where
  owner : Addr
  size : Nat
  issued : List Addr

namespace Deed

structure Describes (deed : Deed) (r : Addr) (c : Chunk) (bytes : Bytes) : Prop where
  positive : 0 < deed.size
  small : deed.size ≤ 255
  begin : c.begin = r + sizeofChunk
  end_ : c.end_ = r + regionSize deed.size
  inside : r + regionSize deed.size ≤ sizeRange
  owns : ∃ free, c.Owns deed.size bytes deed.issued free

variable {deed : Deed} {r p q a : Addr} {c c' : Chunk} {bytes bytes' : Bytes}

theorem Describes.block (describes : deed.Describes r c bytes) (used : p ∈ deed.issued) :
    c.begin ≤ p ∧ p + deed.size ≤ c.end_ := by
  obtain ⟨free, owns⟩ := describes.owns
  obtain ⟨i, inside, rfl⟩ := owns.issued_block used
  have bound := Nat.mul_le_mul_right deed.size (Nat.succ_le_of_lt inside)
  rw [Nat.succ_mul] at bound
  simp only [Chunk.blockAt, describes.end_, describes.begin, regionSize]
  lia

/-- Blocks of one chunk do not overlap. -/
theorem Describes.apart (describes : deed.Describes r c bytes) (used : p ∈ deed.issued) (used' : q ∈ deed.issued)
    (different : p ≠ q) : p + deed.size ≤ q ∨ q + deed.size ≤ p := by
  obtain ⟨free, owns⟩ := describes.owns
  obtain ⟨i, _, rfl⟩ := owns.issued_block used
  obtain ⟨j, _, rfl⟩ := owns.issued_block used'
  rcases Nat.lt_trichotomy i j with below | rfl | above
  · have := Nat.mul_le_mul_right deed.size (Nat.succ_le_of_lt below)
    rw [Nat.succ_mul] at this
    simp only [Chunk.blockAt]
    lia
  · exact absurd rfl different
  · have := Nat.mul_le_mul_right deed.size (Nat.succ_le_of_lt above)
    rw [Nat.succ_mul] at this
    simp only [Chunk.blockAt]
    lia

/-- Only the bytes of the region matter. -/
theorem Describes.congr (describes : deed.Describes r c bytes)
    (same : ∀ a, r ≤ a → a < r + regionSize deed.size → bytes' a = bytes a) : deed.Describes r c bytes' := by
  obtain ⟨free, owns⟩ := describes.owns
  refine ⟨describes.positive, describes.small, describes.begin, describes.end_, describes.inside, free,
    owns.congr fun i member => same _ ?_ ?_⟩
  all_goals
    have bound := Nat.mul_le_mul_right deed.size (Nat.succ_le_of_lt (owns.free_block describes.positive member))
    rw [Nat.succ_mul] at bound
    have := describes.positive
    simp only [Chunk.blockAt, describes.begin, regionSize] at *
    lia

/-- A block that was handed out may be written. -/
theorem Describes.write (describes : deed.Describes r c bytes) (used : p ∈ deed.issued) (low : p ≤ a)
    (high : a < p + deed.size) (v : UInt8) : deed.Describes r c (Function.update bytes a v) := by
  obtain ⟨free, owns⟩ := describes.owns
  exact ⟨describes.positive, describes.small, describes.begin, describes.end_, describes.inside, free,
    owns.write describes.positive used low high⟩

/-- A chunk with a free block hands out one that it has not handed out. -/
theorem Describes.allocate (describes : deed.Describes r c bytes)
    (run : c.allocate bytes deed.size = (some p, c')) :
    p ∉ deed.issued ∧ ({ deed with issued := p :: deed.issued }).Describes r c' bytes := by
  obtain ⟨free, owns⟩ := describes.owns
  cases free with
  | nil =>
    have none := owns.allocate_none.mpr rfl
    simp [run] at none
  | cons i rest =>
    obtain ⟨c₁, taken, begin, end_, owns'⟩ := owns.allocate_cons
    obtain ⟨rfl, rfl⟩ : p = _ ∧ c' = c₁ := by simpa [run] using taken
    refine ⟨fun used => owns.issued_ne_free describes.positive used List.mem_cons_self rfl, ?_⟩
    exact ⟨describes.positive, describes.small, begin.trans describes.begin, end_.trans describes.end_,
      describes.inside, rest, owns'⟩

theorem Describes.empty (describes : deed.Describes r c bytes) : c.empty = true ↔ deed.issued = [] := by
  obtain ⟨free, owns⟩ := describes.owns
  exact owns.empty_iff

end Deed

abbrev Deeds := Addr → Deed

namespace Memory

/-- A region of this length is inside the address space and meets no chunk. -/
def Clear (blockSize : Nat) (mem : Memory) (r : Addr) : Prop :=
  r + regionSize blockSize ≤ sizeRange ∧
    ∀ r' c, mem.chunks.lookup r' = some c → r + regionSize blockSize ≤ r' ∨ c.end_ ≤ r

/-- Every chunk is as its deed says, in a region of its own. -/
structure Divided (d : Deeds) (mem : Memory) : Prop where
  chunk : ∀ r c, mem.chunks.lookup r = some c → (d r).Describes r c mem.bytes
  apart : ∀ r c r' c', mem.chunks.lookup r = some c → mem.chunks.lookup r' = some c' → r ≠ r' →
    c.end_ ≤ r' ∨ c'.end_ ≤ r

variable {d : Deeds} {mem mem' : Memory} {blockSize : Nat} {r r' p q a : Addr} {c c' : Chunk} {deed : Deed}

theorem Clear.unused (clear : mem.Clear blockSize r) (divided : mem.Divided d) : mem.chunks.lookup r = none := by
  cases found : mem.chunks.lookup r with
  | none => rfl
  | some c =>
    have := clear.2 r c found
    have end_ := (divided.chunk r c found).end_
    unfold regionSize sizeofChunk at *
    lia

theorem Clear.sub (clear : mem.Clear blockSize r)
    (sub : ∀ r c, mem'.chunks.lookup r = some c → mem.chunks.lookup r = some c) : mem'.Clear blockSize r :=
  ⟨clear.1, fun r' c found => clear.2 r' c (sub r' c found)⟩

instance (blockSize : Nat) (mem : Memory) (r : Addr) : Decidable (mem.Clear blockSize r) :=
  decidable_of_iff (r + regionSize blockSize ≤ sizeRange ∧ ∀ e ∈ mem.chunks.entries,
      r + regionSize blockSize ≤ e.1 ∨ e.2.end_ ≤ r) <| by
    refine and_congr_right fun _ => ⟨fun all r' c found => ?_, fun all e member => ?_⟩
    · exact all ⟨r', c⟩ (AList.mem_lookup_iff.mp found)
    · exact all e.1 e.2 (AList.mem_lookup_iff.mpr member)

namespace Divided

/-- Blocks of different chunks do not overlap either. -/
theorem separate (divided : mem.Divided d) (found : mem.chunks.lookup r = some c)
    (found' : mem.chunks.lookup r' = some c') (used : p ∈ (d r).issued) (used' : q ∈ (d r').issued)
    (different : p ≠ q) : p + (d r).size ≤ q ∨ q + (d r').size ≤ p := by
  by_cases same : r = r'
  · subst same
    exact (divided.chunk r c found).apart used used' different
  · have inside := (divided.chunk r c found).block used
    have inside' := (divided.chunk r' c' found').block used'
    have begin := (divided.chunk r c found).begin
    have begin' := (divided.chunk r' c' found').begin
    have := divided.apart r c r' c' found found' same
    unfold sizeofChunk at *
    lia

/-- What is in the region of a chunk is in the region of no other one. -/
theorem same_chunk (divided : mem.Divided d) (found : mem.chunks.lookup r = some c)
    (found' : mem.chunks.lookup r' = some c') (low : r ≤ a) (high : a < c.end_) (low' : r' ≤ a)
    (high' : a < c'.end_) : r = r' := by
  by_contra different
  have := divided.apart r c r' c' found found' different
  lia

theorem unallocated : Memory.unallocated.Divided d := ⟨by simp [Memory.unallocated], by simp [Memory.unallocated]⟩

/-- Some chunks are gone. -/
theorem sub (divided : mem.Divided d) (bytes : mem'.bytes = mem.bytes)
    (sub : ∀ r c, mem'.chunks.lookup r = some c → mem.chunks.lookup r = some c) : mem'.Divided d :=
  ⟨fun r c found => bytes ▸ divided.chunk r c (sub r c found),
    fun r c r' c' found found' => divided.apart r c r' c' (sub r c found) (sub r' c' found')⟩

/-- One chunk has a new header, or is a new one; its region is as it was or was nobody's. -/
theorem insert (divided : mem.Divided d) {bytes : Bytes} (describes : deed.Describes r c bytes)
    (outside : ∀ r' c', mem.chunks.lookup r' = some c' → r' ≠ r → c.end_ ≤ r' ∨ c'.end_ ≤ r)
    (same : ∀ a, (a < r ∨ c.end_ ≤ a) → bytes a = mem.bytes a) :
    Divided (Function.update d r deed) { mem with bytes, chunks := mem.chunks.insert r c } := by
  refine ⟨fun s e stored => ?_, fun s e s' e' stored stored' different => ?_⟩
  · by_cases here : s = r
    · subst here
      obtain rfl : c = e := by simpa using stored
      simpa using describes
    · rw [AList.lookup_insert_ne here] at stored
      rw [Function.update_of_ne here]
      refine (divided.chunk s e stored).congr fun a low high => same a ?_
      have := outside s e stored here
      have end_ := (divided.chunk s e stored).end_
      lia
  · by_cases here : s = r
    · subst here
      obtain rfl : c = e := by simpa using stored
      rw [AList.lookup_insert_ne different.symm] at stored'
      exact outside s' e' stored' different.symm
    · rw [AList.lookup_insert_ne here] at stored
      by_cases there : s' = r
      · subst there
        obtain rfl : c = e' := by simpa using stored'
        exact (outside s e stored here).symm
      · rw [AList.lookup_insert_ne there] at stored'
        exact divided.apart s e s' e' stored stored' different

/-- A chunk hands out a block. -/
theorem issue (divided : mem.Divided d) (found : mem.chunks.lookup r = some c)
    (run : c.allocate mem.bytes (d r).size = (some p, c')) :
    Divided (Function.update d r { d r with issued := p :: (d r).issued })
      { mem with chunks := mem.chunks.insert r c' } ∧
    ∀ s e, mem.chunks.lookup s = some e → p ∉ (d s).issued := by
  obtain ⟨unissued, describes⟩ := (divided.chunk r c found).allocate run
  have ends : c'.end_ = c.end_ := describes.end_.trans (divided.chunk r c found).end_.symm
  refine ⟨divided.insert describes (fun s e stored other => ?_) fun _ _ => rfl, fun s e stored used => ?_⟩
  · rw [ends]
    exact (divided.apart s e r c stored found other).symm
  · have inside := describes.block (p := p) List.mem_cons_self
    have inside' := (divided.chunk s e stored).block used
    have begin := describes.begin
    have begin' := (divided.chunk s e stored).begin
    have positive := (divided.chunk s e stored).positive
    have positive' : 0 < (d r).size := describes.positive
    have high : p < c'.end_ := by
      simp only at inside
      lia
    have low : r ≤ p := by
      simp only at inside
      lia
    obtain rfl := divided.same_chunk found stored low (ends ▸ high) (by lia) (by lia)
    exact unissued used

theorem newChunk_describes (positive : 0 < blockSize) (small : blockSize ≤ 255) (clear : mem.Clear blockSize r)
    (owner : Addr) : (Deed.mk owner blockSize []).Describes r (Arena.newChunk blockSize mem r).1
      (Arena.newChunk blockSize mem r).2 := by
  obtain ⟨begin, end_⟩ := Arena.newChunk_shape small mem r
  exact ⟨positive, small, begin, end_, clear.1, _, Arena.newChunk_owns positive small mem r⟩

/-- A chunk is made in a clear region. -/
theorem create (divided : mem.Divided d) (positive : 0 < blockSize) (small : blockSize ≤ 255)
    (clear : mem.Clear blockSize r) (owner : Addr) :
    Divided (Function.update d r ⟨owner, blockSize, []⟩) { mem with
      bytes := (Arena.newChunk blockSize mem r).2
      chunks := mem.chunks.insert r (Arena.newChunk blockSize mem r).1 } := by
  have describes := newChunk_describes positive small clear owner
  have ends : (Arena.newChunk blockSize mem r).1.end_ = r + regionSize blockSize := describes.end_
  refine divided.insert describes (fun s e stored _ => ?_) fun a outside => ?_
  · rw [ends]
    exact clear.2 s e stored
  · rw [ends] at outside
    exact Arena.newChunk_bytes positive small outside

/-- A write into a block that was handed out. -/
theorem write (divided : mem.Divided d) (found : mem.chunks.lookup r = some c) (used : p ∈ (d r).issued)
    (low : p ≤ a) (high : a < p + (d r).size) (v : UInt8) :
    Divided d { mem with bytes := Function.update mem.bytes a v } := by
  refine ⟨fun s e stored => ?_, divided.apart⟩
  by_cases same : s = r
  · subst same
    exact (divided.chunk s e stored).write used low high v
  · refine (divided.chunk s e stored).congr fun b low' high' => Function.update_of_ne (fun here => same ?_) ..
    have inside := (divided.chunk r c found).block used
    have begin := (divided.chunk r c found).begin
    have end_ := (divided.chunk s e stored).end_
    subst here
    exact divided.same_chunk stored found low' (by lia) (by lia) (by lia)

end Divided

end Memory

end SmallObject
