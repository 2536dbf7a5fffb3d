import SmallObject.Arena.Calls

/-! Where the chunks are, and what no call of an arena moves.

A chunk keeps its closed range for as long as it exists. A block is handed out in the range
of its chunk, and `free` leaves every chunk alone whose range the pointer is in.
-/

set_option autoImplicit false

namespace SmallObject

open Linked

/-- The blocks of every chunk follow its header. -/
def Memory.Shaped (blockSize : Nat) (mem : Memory) : Prop :=
  ∀ r c, mem.chunks.lookup r = some c → c.begin = r + sizeofChunk ∧ c.end_ = r + regionSize blockSize

section Shaped

variable {blockSize : Nat} {mem : Memory} {r p : Addr} {c c' : Chunk} {bytes : Bytes} {result : Ptr}

theorem Memory.Shaped.insert (shaped : mem.Shaped blockSize) (begin : c.begin = r + sizeofChunk)
    (end_ : c.end_ = r + regionSize blockSize) :
    Shaped blockSize { mem with bytes, chunks := mem.chunks.insert r c } := by
  intro s d found
  by_cases same : s = r
  · subst same
    obtain rfl : c = d := by simpa using found
    exact ⟨begin, end_⟩
  · rw [AList.lookup_insert_ne same] at found
    exact shaped s d found

theorem Memory.Shaped.update (shaped : mem.Shaped blockSize) (found : mem.chunks.lookup r = some c)
    (begin : c'.begin = c.begin) (end_ : c'.end_ = c.end_) :
    Shaped blockSize { mem with bytes, chunks := mem.chunks.insert r c' } := by
  obtain ⟨low, high⟩ := shaped r c found
  exact shaped.insert (begin.trans low) (end_.trans high)

theorem Chunk.allocate_range (run : c.allocate bytes blockSize = (result, c')) :
    c'.begin = c.begin ∧ c'.end_ = c.end_ := by
  unfold Chunk.allocate at run
  split at run
  · simp only [Prod.mk.injEq] at run
    exact run.2 ▸ ⟨rfl, rfl⟩
  · simp only [Prod.mk.injEq] at run
    exact run.2 ▸ ⟨rfl, rfl⟩

/-- What a chunk hands out is in its closed range, whatever its free list says. -/
theorem Chunk.allocate_inside (begin : c.begin = r + sizeofChunk)
    (run : c.allocate bytes blockSize = (some p, c')) :
    r + sizeofChunk ≤ p ∧ p ≤ r + regionSize blockSize := by
  unfold Chunk.allocate at run
  split at run
  · simp at run
  · simp only [Prod.mk.injEq, Option.some.injEq] at run
    obtain ⟨rfl, _⟩ := run
    have position : c.position.toNat * blockSize ≤ 255 * blockSize :=
      Nat.mul_le_mul_right blockSize (Nat.le_of_lt_succ c.position.toNat_lt)
    unfold regionSize
    constructor <;> lia

end Shaped

namespace Arena

variable {blockSize : Nat} {mem mem' : Memory} {self self' : Arena} {region node : Ptr} {p : Addr}

/-- The block is in the closed range of the chunk that `alloc_current_` names. -/
def Current (blockSize : Nat) (arena : Arena) (p : Addr) : Prop :=
  ∃ r, arena.allocCurrent = some r ∧ r + sizeofChunk ≤ p ∧ p ≤ r + regionSize blockSize

theorem createNewChunk_shaped (shaped : mem.Shaped blockSize) (small : blockSize ≤ 255) {r : Addr}
    (run : createNewChunk mem blockSize region = .ok (mem', r)) : mem'.Shaped blockSize := by
  cases region with
  | none => simp [createNewChunk] at run
  | some r₀ =>
    rw [createNewChunk_eq] at run
    simp only [Except.ok.injEq, Prod.mk.injEq] at run
    obtain ⟨rfl, rfl⟩ := run
    obtain ⟨begin, end_⟩ := newChunk_shape small mem r₀
    exact shaped.insert begin end_

theorem Takes.shaped (takes : Takes mem self p mem' self') (shaped : mem.Shaped self.blockSize) :
    mem'.Shaped self.blockSize ∧ self'.Current self.blockSize p := by
  obtain ⟨r, c, c', found, taken, rfl, rfl⟩ := takes
  obtain ⟨begin, end_⟩ := Chunk.allocate_range taken
  exact ⟨shaped.update found begin end_, r, rfl, Chunk.allocate_inside (shaped r c found).1 taken⟩

theorem malloc_shaped {reply : Reply} (shaped : mem.Shaped self.blockSize) (small : self.blockSize ≤ 255)
    (run : self.malloc mem region node = .ok (reply, mem', self')) :
    mem'.Shaped self.blockSize ∧ ∀ p, reply = .returned (some p) → self'.Current self.blockSize p := by
  rcases malloc_cases run with ⟨p, rfl, takes⟩ | grown
  · obtain ⟨shaped', current⟩ := takes.shaped shaped
    refine ⟨shaped', fun q same => ?_⟩
    obtain rfl : p = q := by simpa using same
    exact current
  · obtain ⟨r, _, rfl, outcome⟩ := grow_cases grown
    obtain ⟨begin, end_⟩ := newChunk_shape small mem r
    -- the new chunk is entered, and then again as it is without its first block
    generalize taken : (newChunk self.blockSize mem r).1.allocate _ self.blockSize = left at outcome ⊢
    obtain ⟨result, c'⟩ := left
    obtain ⟨begin', end_'⟩ := Chunk.allocate_range taken
    have entered : Memory.Shaped self.blockSize
        { mem with chunks := mem.chunks.insert r (newChunk self.blockSize mem r).1 } := shaped.insert begin end_
    constructor
    · exact entered.update (AList.lookup_insert _) begin' end_'
    · intro p same
      rcases outcome with ⟨rfl, _⟩ | ⟨rfl, chunks, rfl⟩
      · simp at same
      · obtain rfl : result = some p := by simpa using same
        exact ⟨r, rfl, Chunk.allocate_inside begin taken⟩

theorem init_shaped (shaped : mem.Shaped blockSize) (small : blockSize ≤ 255)
    (run : Arena.init mem blockSize region node = .ok (mem', self)) : mem'.Shaped blockSize := by
  obtain ⟨⟨mem₁, r⟩, created, rest⟩ := bind_eq_ok run
  obtain ⟨c, _, rest⟩ := bind_eq_ok rest
  obtain ⟨⟨chunks, inserted⟩, _, rest⟩ := bind_eq_ok rest
  simp only [Except.ok.injEq, Prod.mk.injEq] at rest
  exact rest.1 ▸ createNewChunk_shaped shaped small created

theorem shrink_shaped {room : Nat} {nodes : List Ptr} (shaped : mem.Shaped self.blockSize)
    (small : self.blockSize ≤ 255) (run : self.shrink mem room nodes region node = .ok (mem', self')) :
    mem'.Shaped self.blockSize := by
  obtain ⟨mem₁, fewer, made, _⟩ := shrink_cases run
  have shaped₁ : mem₁.Shaped self.blockSize := fun r c found => shaped r c (fewer r c found)
  rcases made with rfl | ⟨r, created⟩
  · exact shaped₁
  · exact createNewChunk_shaped shaped₁ small created

/-! ## Calls of `free` -/

/-- No chunk changes whose closed range the pointer is in. -/
structure Spares (blockSize : Nat) (mem mem' : Memory) (p : Addr) : Prop where
  shaped : mem.Shaped blockSize → mem'.Shaped blockSize
  same : ∀ r c, mem.chunks.lookup r = some c → c.begin ≤ p → p ≤ c.end_ → mem'.chunks.lookup r = some c

theorem Spares.refl (blockSize : Nat) (mem : Memory) (p : Addr) : Spares blockSize mem mem p :=
  ⟨id, fun _ _ found _ _ => found⟩

theorem Spares.trans {mem'' : Memory} (first : Spares blockSize mem mem' p)
    (second : Spares blockSize mem' mem'' p) : Spares blockSize mem mem'' p :=
  ⟨second.shaped ∘ first.shaped,
    fun r c found low high => second.same r c (first.same r c found low high) low high⟩

theorem tryToFree_spares (blockSize : Nat) {cnk : Ptr} {released : Bool}
    (run : self.tryToFree mem p cnk = .ok (released, mem', self')) :
    Spares blockSize mem mem' p ∧ self.Alike self' := by
  rcases tryToFree_cases run with ⟨_, rfl, rfl⟩ | ⟨a, c, stored, outside, _, rfl, rfl⟩
  · exact ⟨Spares.refl _ _ _, rfl, rfl⟩
  · refine ⟨⟨fun shaped => shaped.update stored rfl rfl, fun r d present low high => ?_⟩, rfl, rfl⟩
    -- the chunk that was changed does not have the pointer in its range, so it is another one
    have different : r ≠ a := by
      rintro rfl
      obtain rfl : c = d := Option.some.inj (stored.symm.trans present)
      exact outside ⟨low, high⟩
    rwa [AList.lookup_insert_ne different]

theorem free_spares (blockSize : Nat) {released : Bool}
    (run : self.free mem p = .ok (released, mem', self')) :
    Spares blockSize mem mem' p ∧ self.Alike self' := by
  obtain ⟨⟨tried, mem₁, self₁⟩, attempt, rest⟩ := bind_eq_ok run
  obtain ⟨spares, alike⟩ := tryToFree_spares blockSize attempt
  cases tried with
  | true =>
    simp only [if_true, Except.ok.injEq, Prod.mk.injEq] at rest
    obtain ⟨_, rfl, rfl⟩ := rest
    exact ⟨spares, alike⟩
  | false =>
    simp only [Bool.false_eq_true, if_false] at rest
    -- the cached chunk has refused the pointer, and another one may take it
    obtain ⟨it, _, rest⟩ := bind_eq_ok rest
    cases it with
    | none =>
      simp only [Except.ok.injEq, Prod.mk.injEq] at rest
      obtain ⟨_, rfl, rfl⟩ := rest
      exact ⟨spares, alike⟩
    | some a =>
      obtain ⟨cell, _, rest⟩ := bind_eq_ok rest
      obtain ⟨⟨again, mem₂, self₂⟩, retry, rest⟩ := bind_eq_ok rest
      simp only [Except.ok.injEq, Prod.mk.injEq] at rest
      obtain ⟨_, rfl, rfl⟩ := rest
      obtain ⟨spares', alike'⟩ := tryToFree_spares blockSize retry
      exact ⟨spares.trans spares', alike'.1.trans alike.1, alike'.2.trans alike.2⟩

end Arena

end SmallObject
