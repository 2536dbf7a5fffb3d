import SmallObject.Arena.Free

/-! What the calls of an arena can do, whatever state they are made in.

One lemma for each function says how a completed call ended. From these follow what
every call keeps: the block size and the flag of the arena, the place of every chunk,
and, in a call of `free`, every chunk that the pointer is in.
-/

set_option autoImplicit false

namespace SmallObject

open Linked

namespace Arena

variable {mem mem' : Memory} {self self' : Arena} {result region node : Ptr} {reply : Reply} {p : Addr}

/-- A chunk handed out a block and is the one to try first from now on. -/
def Takes (mem : Memory) (self : Arena) (p : Addr) (mem' : Memory) (self' : Arena) : Prop :=
  ∃ r c c', mem.chunks.lookup r = some c ∧ c.allocate mem.bytes self.blockSize = (some p, c') ∧
    mem' = { mem with chunks := mem.chunks.insert r c' } ∧ self' = { self with allocCurrent := some r }

theorem tryToAlloc_cases {cnk : Ptr} (run : self.tryToAlloc mem cnk = .ok (result, mem', self')) :
    (result = none ∧ mem' = mem ∧ self' = self) ∨ ∃ p, result = some p ∧ Takes mem self p mem' self' := by
  cases cnk with
  | none => simp [tryToAlloc, deref] at run
  | some r =>
    obtain ⟨c, found, rest⟩ := bind_eq_ok run
    simp only [nonNull_some, ok_bind] at rest
    split at rest
    · simp only [Except.ok.injEq, Prod.mk.injEq] at rest
      obtain ⟨rfl, rfl, rfl⟩ := rest
      exact .inl ⟨rfl, rfl, rfl⟩
    next p c' taken =>
      simp only [Except.ok.injEq, Prod.mk.injEq] at rest
      obtain ⟨rfl, rfl, rfl⟩ := rest
      exact .inr ⟨p, rfl, r, c, c', lookup_of_deref found, taken, rfl, rfl⟩

/-- An attempt that fails changes nothing, so the loop ends with the attempt that succeeds. -/
theorem search_cases {fuel : Nat} {it : Ptr} (run : self.search mem fuel it = .ok (result, mem', self')) :
    (result = none ∧ mem' = mem ∧ self' = self) ∨ ∃ p, result = some p ∧ Takes mem self p mem' self' := by
  induction fuel generalizing it with
  | zero =>
    cases it with
    | some a => simp [search] at run
    | none =>
      obtain ⟨rfl, rfl, rfl⟩ : none = result ∧ mem = mem' ∧ self = self' := by simpa [search] using run
      exact .inl ⟨rfl, rfl, rfl⟩
  | succ fuel ih =>
    cases it with
    | none =>
      obtain ⟨rfl, rfl, rfl⟩ : none = result ∧ mem = mem' ∧ self = self' := by simpa [search] using run
      exact .inl ⟨rfl, rfl, rfl⟩
    | some a =>
      obtain ⟨cell, _, run⟩ := bind_eq_ok run
      obtain ⟨⟨tried, mem₁, self₁⟩, attempt, rest⟩ := bind_eq_ok run
      -- the loop goes on only after an attempt that has changed nothing
      rcases tryToAlloc_cases attempt with ⟨rfl, rfl, rfl⟩ | ⟨p, rfl, takes⟩
      · obtain ⟨next, _, again⟩ := bind_eq_ok rest
        exact ih again
      · simp only [Except.ok.injEq, Prod.mk.injEq] at rest
        obtain ⟨rfl, rfl, rfl⟩ := rest
        exact .inr ⟨p, rfl, takes⟩

/-- A chunk is made and asked for a block; it is entered in the map unless there is no
memory for the node. -/
theorem grow_cases (run : self.grow mem region node = .ok (reply, mem', self')) :
    ∃ r, region = some r ∧
      mem' = { mem with
        bytes := (newChunk self.blockSize mem r).2
        chunks := (mem.chunks.insert r (newChunk self.blockSize mem r).1).insert r
          ((newChunk self.blockSize mem r).1.allocate (newChunk self.blockSize mem r).2 self.blockSize).2 } ∧
      ((reply = .threw ∧ self' = self) ∨
        (reply = .returned
            ((newChunk self.blockSize mem r).1.allocate (newChunk self.blockSize mem r).2 self.blockSize).1 ∧
          ∃ chunks, self' = { self with chunks, allocCurrent := some r, freeCurrent := some r })) := by
  cases region with
  | none => simp [grow, createNewChunk] at run
  | some r =>
    refine ⟨r, rfl, ?_⟩
    simp only [grow, createNewChunk_eq, ok_bind, deref_of_lookup (AList.lookup_insert _)] at run
    -- the insertion throws, faults or completes
    split at run
    · simp only [Except.ok.injEq, Prod.mk.injEq] at run
      obtain ⟨rfl, rfl, rfl⟩ := run
      exact ⟨rfl, .inl ⟨rfl, rfl⟩⟩
    · simp at run
    next chunks inserted _ =>
      simp only [Except.ok.injEq, Prod.mk.injEq] at run
      obtain ⟨rfl, rfl, rfl⟩ := run
      exact ⟨rfl, .inr ⟨rfl, chunks, rfl⟩⟩

theorem malloc_cases (run : self.malloc mem region node = .ok (reply, mem', self')) :
    (∃ p, reply = .returned (some p) ∧ Takes mem self p mem' self') ∨
      self.grow mem region node = .ok (reply, mem', self') := by
  obtain ⟨⟨tried, mem₁, self₁⟩, attempt, rest⟩ := bind_eq_ok run
  rcases tryToAlloc_cases attempt with ⟨rfl, rfl, rfl⟩ | ⟨p, rfl, takes⟩
  · obtain ⟨it, _, searching⟩ := bind_eq_ok rest
    obtain ⟨⟨found, mem₂, self₂⟩, searched, last⟩ := bind_eq_ok searching
    rcases search_cases searched with ⟨rfl, rfl, rfl⟩ | ⟨p, rfl, takes⟩
    · exact .inr last
    · simp only [Except.ok.injEq, Prod.mk.injEq] at last
      obtain ⟨rfl, rfl, rfl⟩ := last
      exact .inl ⟨p, rfl, takes⟩
  · simp only [Except.ok.injEq, Prod.mk.injEq] at rest
    obtain ⟨rfl, rfl, rfl⟩ := rest
    exact .inl ⟨p, rfl, takes⟩

/-- What an attempt to free does, for any chunk: nothing, or the pointer is outside and becomes
the head of the free list of the chunk. -/
theorem tryToFree_cases {cnk : Ptr} {released : Bool}
    (run : self.tryToFree mem p cnk = .ok (released, mem', self')) :
    (released = false ∧ mem' = mem ∧ self' = self) ∨
      ∃ r c, mem.chunks.lookup r = some c ∧ ¬ (c.begin ≤ p ∧ p ≤ c.end_) ∧ released = true ∧
        mem' = { mem with
          bytes := (c.returnBlock mem.bytes p self.blockSize).2
          chunks := mem.chunks.insert r (c.returnBlock mem.bytes p self.blockSize).1 } ∧
        self' = { self with freeCurrent := some r } := by
  cases cnk with
  | none => simp [tryToFree, deref] at run
  | some r =>
    obtain ⟨c, found, rest⟩ := bind_eq_ok run
    simp only [nonNull_some, ok_bind] at rest
    by_cases inside : c.begin ≤ p ∧ p ≤ c.end_
    · simp only [Chunk.release_inside inside.1 inside.2, Except.ok.injEq, Prod.mk.injEq] at rest
      obtain ⟨rfl, rfl, rfl⟩ := rest
      exact .inl ⟨rfl, rfl, rfl⟩
    · simp only [Chunk.release_outside inside, Except.ok.injEq, Prod.mk.injEq] at rest
      obtain ⟨rfl, rfl, rfl⟩ := rest
      exact .inr ⟨r, c, lookup_of_deref found, inside, rfl, rfl, rfl⟩

theorem sweep_sub {fuel room : Nat} {it : Ptr} {nonEmpty : List Addr}
    (run : self.sweep mem fuel room it = .ok (mem', nonEmpty)) :
    ∀ r c, mem'.chunks.lookup r = some c → mem.chunks.lookup r = some c := by
  induction fuel generalizing mem room it nonEmpty with
  | zero =>
    cases it with
    | some a => simp [sweep] at run
    | none =>
      obtain ⟨rfl, _⟩ : mem = mem' ∧ _ := by simpa [sweep] using run
      exact fun _ _ => id
  | succ fuel ih =>
    cases it with
    | none =>
      obtain ⟨rfl, _⟩ : mem = mem' ∧ _ := by simpa [sweep] using run
      exact fun _ _ => id
    | some a =>
      obtain ⟨cell, _, rest⟩ := bind_eq_ok run
      obtain ⟨c, _, rest⟩ := bind_eq_ok rest
      -- an empty chunk is released, any other one stays
      split at rest
      · obtain ⟨mem₁, released, rest⟩ := bind_eq_ok rest
        obtain ⟨_, _, same⟩ := bind_eq_ok released
        obtain ⟨next, _, rest⟩ := bind_eq_ok rest
        simp only [Except.ok.injEq] at same
        intro r d found
        have before := ih rest r d found
        rw [← same] at before
        by_cases gone : r = cell.load.mapped
        · rw [gone, AList.lookup_erase] at before
          simp at before
        · rwa [AList.lookup_erase_ne gone] at before
      · obtain ⟨_, _, rest⟩ := bind_eq_ok rest
        obtain ⟨next, _, rest⟩ := bind_eq_ok rest
        obtain ⟨⟨mem₁, kept⟩, swept, rest⟩ := bind_eq_ok rest
        simp only [Except.ok.injEq, Prod.mk.injEq] at rest
        obtain ⟨rfl, _⟩ := rest
        exact ih swept

/-- `shrink` releases some chunks, makes at most one, and then has new cached pointers. -/
theorem shrink_cases {room : Nat} {nodes : List Ptr}
    (run : self.shrink mem room nodes region node = .ok (mem', self')) :
    ∃ mem₁, (∀ r c, mem₁.chunks.lookup r = some c → mem.chunks.lookup r = some c) ∧
      (mem' = mem₁ ∨ ∃ r, createNewChunk mem₁ self.blockSize region = .ok (mem', r)) ∧
      ∃ chunks first, self' = { self with chunks, allocCurrent := some first, freeCurrent := some first } := by
  obtain ⟨it, _, rest⟩ := bind_eq_ok run
  obtain ⟨⟨mem₁, nonEmpty⟩, swept, rest⟩ := bind_eq_ok rest
  obtain ⟨cleared, _, rest⟩ := bind_eq_ok rest
  obtain ⟨chunks, _, rest⟩ := bind_eq_ok rest
  refine ⟨mem₁, sweep_sub swept, ?_⟩
  split at rest
  · obtain ⟨⟨mem₂, first⟩, created, rest⟩ := bind_eq_ok rest
    obtain ⟨c, _, rest⟩ := bind_eq_ok rest
    obtain ⟨⟨chunks', inserted⟩, _, rest⟩ := bind_eq_ok rest
    simp only [Except.ok.injEq, Prod.mk.injEq] at rest
    obtain ⟨rfl, rfl⟩ := rest
    exact ⟨.inr ⟨first, created⟩, chunks', first, rfl⟩
  · obtain ⟨it', _, rest⟩ := bind_eq_ok rest
    obtain ⟨first, _, rest⟩ := bind_eq_ok rest
    simp only [Except.ok.injEq, Prod.mk.injEq] at rest
    obtain ⟨rfl, rfl⟩ := rest
    exact ⟨.inl rfl, chunks, first, rfl⟩

/-! ## The block size and the flag -/

/-- Two states of an arena between which neither its block size nor its flag has changed. -/
def Alike (self self' : Arena) : Prop := self'.blockSize = self.blockSize ∧ self'.reserved = self.reserved

theorem malloc_alike (run : self.malloc mem region node = .ok (reply, mem', self')) : self.Alike self' := by
  rcases malloc_cases run with ⟨_, _, _, _, _, _, _, _, rfl⟩ | grown
  · exact ⟨rfl, rfl⟩
  · obtain ⟨_, _, _, ⟨_, rfl⟩ | ⟨_, _, rfl⟩⟩ := grow_cases grown <;> exact ⟨rfl, rfl⟩

theorem shrink_alike {room : Nat} {nodes : List Ptr}
    (run : self.shrink mem room nodes region node = .ok (mem', self')) : self.Alike self' := by
  obtain ⟨_, _, _, _, _, rfl⟩ := shrink_cases run
  exact ⟨rfl, rfl⟩

/-- The constructor sets both. -/
theorem init_alike {size : Nat} (run : Arena.init mem size region node = .ok (mem', self)) :
    self.blockSize = size ∧ self.reserved = true := by
  obtain ⟨⟨mem₁, r⟩, _, rest⟩ := bind_eq_ok run
  obtain ⟨c, _, rest⟩ := bind_eq_ok rest
  obtain ⟨⟨chunks, inserted⟩, _, rest⟩ := bind_eq_ok rest
  simp only [Except.ok.injEq, Prod.mk.injEq] at rest
  obtain ⟨_, rfl⟩ := rest
  exact ⟨rfl, rfl⟩

end Arena

end SmallObject
