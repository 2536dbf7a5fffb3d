import SmallObject.Arena.Shape
import SmallObject.Arena.Shrink

/-! Where `malloc` has its block from: the cached chunk, a chunk that the loop comes to, or a new one.

The loop over the chunks ends where the iterator of the map does, so a chunk behind a
dead end of the tree is never asked. A call that none of the chunks serves takes a region
that it does not check, and keeps it when there is no memory for the node.
-/

set_option autoImplicit false

namespace SmallObject

open Linked AvlTree

/-- The chunk exists, and its counter says that it has a free block. -/
def Memory.HasFree (mem : Memory) (r : Addr) : Prop := ∃ c, mem.chunks.lookup r = some c ∧ c.freeBlocks ≠ 0

/-- A chunk in a region whose first block is free and all others are live. -/
def Chunk.spare (blockSize : Nat) (r : Addr) : Chunk :=
  { begin := r + sizeofChunk, end_ := r + regionSize blockSize, freeBlocks := 1, position := 0 }

theorem Chunk.spare_owns (blockSize : Nat) (r : Addr) (bytes : Bytes) :
    (spare blockSize r).Owns blockSize bytes (blocks (r + sizeofChunk) blockSize).tail [0] := by
  refine ⟨?_, ⟨rfl, trivial⟩, rfl⟩
  have all : blocks (r + sizeofChunk) blockSize =
      (spare blockSize r).blockAt blockSize 0 :: (blocks (r + sizeofChunk) blockSize).tail := rfl
  rw [all]
  exact List.perm_append_singleton _ _

namespace Memory

variable {blockSize : Nat} {rs : List Addr} {r s : Addr}

/-- Full chunks in these regions, but for the first block of one of them. -/
def filledBut (blockSize : Nat) (rs : List Addr) (r : Addr) : Memory :=
  { filled blockSize rs with chunks := (filled blockSize rs).chunks.insert r (.spare blockSize r) }

theorem hasFree_filledBut : (filledBut blockSize rs r).HasFree s ↔ s = r := by
  by_cases same : s = r
  · subst same
    exact iff_of_true ⟨_, AList.lookup_insert _, by simp [Chunk.spare]⟩ rfl
  · refine iff_of_false ?_ same
    rintro ⟨c, found, positive⟩
    rw [filledBut, AList.lookup_insert_ne same, lookup_filled] at found
    split at found
    · obtain rfl := Option.some.inj found
      exact positive rfl
    · cases found

end Memory

namespace Arena

variable {blockSize : Nat} {mem mem' : Memory} {self self' : Arena} {t : AvlTree Addr Addr}
  {issued : Addr → List Addr} {region node : Ptr} {r : Addr} {c : Chunk}

/-! ## One attempt -/

/-- The call took the block from one chunk of the map; this chunk is the one to try first from
now on, and nothing else has changed. -/
structure Served (blockSize : Nat) (mem : Memory) (arena : Arena) (t : AvlTree Addr Addr)
    (issued : Addr → List Addr) (p : Addr) (mem' : Memory) (arena' : Arena) : Prop where
  block : ∃ r ∈ t.mapped, ∃ c, mem.chunks.lookup r = some c ∧ p ∈ Chunk.blocks c.begin blockSize ∧ p ∉ issued r ∧
    arena' = { arena with allocCurrent := some r } ∧
    ∀ s, s ≠ r → mem'.chunks.lookup s = mem.chunks.lookup s
  present : ∀ s, mem'.chunks.lookup s = none ↔ mem.chunks.lookup s = none
  bytes : mem'.bytes = mem.bytes

theorem tryToAlloc_full (self : Arena) (found : mem.chunks.lookup r = some c) (full : ¬ mem.HasFree r) :
    self.tryToAlloc mem (some r) = .ok (none, mem, self) := by
  have none : c.freeBlocks = 0 := by
    by_contra some
    exact full ⟨c, found, some⟩
  simp [tryToAlloc, deref_of_lookup found, Chunk.allocate, none]

theorem tryToAlloc_free (self : Arena) (free : mem.HasFree r) :
    ∃ p mem' self', self.tryToAlloc mem (some r) = .ok (some p, mem', self') := by
  obtain ⟨c, found, some⟩ := free
  simp [tryToAlloc, deref_of_lookup found, Chunk.allocate, some]

/-- A chunk of the map that has a free block serves the call. -/
theorem Sound.serve (sound : self.Sound blockSize mem t issued) (positive : 0 < blockSize) (member : r ∈ t.mapped)
    (free : mem.HasFree r) :
    ∃ p mem' self' issued', self.tryToAlloc mem (some r) = .ok (some p, mem', self') ∧
      self'.Sound blockSize mem' t issued' ∧ Issues t t issued issued' p ∧
      Served blockSize mem self t issued p mem' self' := by
  obtain ⟨c, found, some⟩ := free
  obtain ⟨numbers, owns⟩ := sound.owns r member c found
  cases numbers with
  | nil =>
    -- the counter is not zero, so the free list is not empty
    have zero := owns.counted
    rw [List.length_nil, ← UInt8.toNat_zero, UInt8.toNat_inj] at zero
    exact absurd zero some
  | cons i rest =>
    obtain ⟨c', taken, sound', issues⟩ := sound.issue positive member found owns
    refine ⟨_, _, _, _, ?run, sound', issues, ⟨r, member, c, found, ?_, issues.unused r member, rfl, ?_⟩, ?_, rfl⟩
    case run => simp [Arena.tryToAlloc, deref_of_lookup found, taken]
    · exact owns.placed.subset (List.mem_append_right _ (List.mem_map_of_mem List.mem_cons_self))
    · exact fun s other => AList.lookup_insert_ne other
    · intro s
      by_cases same : s = r
      · subst same
        simp [found]
      · rw [AList.lookup_insert_ne same]

/-! ## The loop -/

/-- Over chunks that the iteration comes to, the loop ends at the first one with a free block. -/
theorem search_follows {fuel : Nat} {it : Ptr} {es : List (Entry Addr Addr)}
    (visit : self.chunks.visitFrom fuel it = .ok (es.map Prod.fst))
    (stored : ∀ e ∈ es, ∃ cell, self.chunks.nodes.lookup e.1 = some cell ∧ cell.load.mapped = e.2.2)
    (present : ∀ e ∈ es, ∃ c, mem.chunks.lookup e.2.2 = some c) :
    (self.search mem fuel it = .ok (none, mem, self) ∧ ∀ e ∈ es, ¬ mem.HasFree e.2.2) ∨
      ∃ e ∈ es, mem.HasFree e.2.2 ∧ self.search mem fuel it = self.tryToAlloc mem (some e.2.2) := by
  induction es generalizing fuel it with
  | nil =>
    obtain rfl := RangeMap.visitFrom_eq_nil visit
    exact .inl ⟨by simp [search], by simp⟩
  | cons e es ih =>
    obtain ⟨left, next, rfl, rfl, step, visited⟩ := RangeMap.visitFrom_eq_cons visit
    obtain ⟨cell, found, load⟩ := stored e List.mem_cons_self
    obtain ⟨c, chunk⟩ := present e List.mem_cons_self
    simp only [search, deref_of_lookup found, load, ok_bind]
    -- the first chunk with a free block ends the loop
    by_cases free : mem.HasFree e.2.2
    · obtain ⟨p, mem', self', taken⟩ := tryToAlloc_free self free
      refine .inr ⟨e, List.mem_cons_self, free, ?_⟩
      simp only [taken, ok_bind]
    · simp only [tryToAlloc_full self chunk free, ok_bind, step]
      rcases ih visited (fun f member => stored f (List.mem_cons_of_mem e member))
        (fun f member => present f (List.mem_cons_of_mem e member)) with ⟨run, full⟩ | ⟨f, member, has, run⟩
      · refine .inl ⟨run, fun f member => ?_⟩
        rcases List.mem_cons.mp member with rfl | inRest
        · exact free
        · exact full f inRest
      · exact .inr ⟨f, List.mem_cons_of_mem e member, has, run⟩

/-- The chunk that is tried first has a free block, or one that no dead end hides from the loop. -/
def Supplied (mem : Memory) (self : Arena) (t : AvlTree Addr Addr) : Prop :=
  (∃ r, self.allocCurrent = some r ∧ mem.HasFree r) ∨
    ∃ pre e post, t.entries = pre ++ e :: post ∧ mem.HasFree e.2.2 ∧ ∀ f ∈ pre, ¬ t.DeadEnd f.1

/-- The loop on an arena: it goes over the chunks that no dead end hides, and asks the first
one with a free block. -/
theorem Maps.search_reaches (maps : self.Maps mem t) :
    ∃ es : List (Entry Addr Addr), es ⊆ t.entries ∧
      (∀ pre e post, t.entries = pre ++ e :: post → (e ∈ es ↔ ∀ f ∈ pre, ¬ t.DeadEnd f.1)) ∧
      ((self.search mem (rounds self.chunks.nodes) t.addrs.head? = .ok (none, mem, self) ∧
          ∀ e ∈ es, ¬ mem.HasFree e.2.2) ∨
        ∃ e ∈ es, mem.HasFree e.2.2 ∧ self.search mem (rounds self.chunks.nodes) t.addrs.head? =
          self.tryToAlloc mem (some e.2.2)) := by
  have stores := maps.stores
  obtain ⟨seen, missed, flat, run, _⟩ := RangeMap.visited_follows stores
  have reaches := fun pre b post (split : t.addrs = pre ++ b :: post) => RangeMap.visited_reaches stores split run
  rw [← map_fst_entries, List.map_eq_append_iff] at flat
  obtain ⟨es, others, split, rfl, rfl⟩ := flat
  have inTree : es ⊆ t.entries := fun e member => split ▸ List.mem_append_left _ member
  refine ⟨es, inTree, fun pre e post here => ?_, ?_⟩
  · have distinct : (t.entries.map Prod.fst).Nodup := by
      rw [map_fst_entries]
      exact stores.nodup
    have place := reaches (pre.map Prod.fst) e.1 (post.map Prod.fst) (by rw [← map_fst_entries, here]; simp)
    -- an element of the map is known by its node
    have byKey : e.1 ∈ es.map Prod.fst ↔ e ∈ es := by
      refine ⟨fun member => ?_, List.mem_map_of_mem⟩
      obtain ⟨e', inside, same⟩ := List.mem_map.mp member
      have : e' = e := List.inj_on_of_nodup_map distinct (inTree inside) (by simp [here]) same
      exact this ▸ inside
    rw [← byKey, place]
    simp
  · simp only [RangeMap.visited, RangeMap.begin_follows stores, ok_bind] at run
    refine search_follows run (fun e member => ?_) fun e member =>
      (maps.chunk e (inTree member)).imp fun _ => And.left
    obtain ⟨source, inside, rfl⟩ := List.mem_map.mp (inTree member)
    obtain ⟨cell, found, load⟩ := stores.rep.stored source inside
    exact ⟨cell, found, by rw [load]⟩

/-- A call that a chunk of the map serves. -/
theorem Sound.malloc_supplied (sound : self.Sound blockSize mem t issued) (positive : 0 < blockSize)
    (supplied : Supplied mem self t) (region node : Ptr) :
    ∃ p mem' self' issued', self.malloc mem region node = .ok (.returned (some p), mem', self') ∧
      self'.Sound blockSize mem' t issued' ∧ Issues t t issued issued' p ∧
      Served blockSize mem self t issued p mem' self' := by
  obtain ⟨current, member, cached⟩ := sound.alloc
  obtain ⟨c, found⟩ := sound.maps.mapped_chunk member
  by_cases free : mem.HasFree current
  · obtain ⟨p, mem', self', issued', taken, outcome⟩ := sound.serve positive member free
    exact ⟨p, mem', self', issued', by simp [Arena.malloc, cached, taken], outcome⟩
  · obtain ⟨es, inTree, reaches, searched⟩ := sound.maps.search_reaches
    have first := tryToAlloc_full self found free
    rcases searched with ⟨_, full⟩ | ⟨e, inside, has, searched⟩
    · exfalso
      -- the supply would be a chunk that the loop has found full
      rcases supplied with ⟨r, current', has⟩ | ⟨pre, e, post, split, has, clear⟩
      · obtain rfl : current = r := Option.some.inj (cached.symm.trans current')
        exact free has
      · exact full e ((reaches pre e post split).mpr clear) has
    · obtain ⟨p, mem', self', issued', taken, outcome⟩ :=
        sound.serve positive (List.mem_map_of_mem (f := fun e => e.2.2) (inTree inside)) has
      refine ⟨p, mem', self', issued', ?_, outcome⟩
      simp [Arena.malloc, cached, first, RangeMap.begin_follows sound.maps.stores, searched, taken]

/-- A call that none serves asks for a region. -/
theorem Sound.malloc_unsupplied (sound : self.Sound blockSize mem t issued)
    (unsupplied : ¬ Supplied mem self t) (region node : Ptr) :
    self.malloc mem region node = self.grow mem region node := by
  obtain ⟨current, member, cached⟩ := sound.alloc
  obtain ⟨c, found⟩ := sound.maps.mapped_chunk member
  have full : ¬ mem.HasFree current := fun free => unsupplied (.inl ⟨current, cached, free⟩)
  obtain ⟨es, inTree, reaches, ⟨searched, _⟩ | ⟨e, inside, has, _⟩⟩ := sound.maps.search_reaches
  · simp [Arena.malloc, cached, tryToAlloc_full self found full,
      RangeMap.begin_follows sound.maps.stores, searched]
  · obtain ⟨pre, post, split⟩ := List.append_of_mem (inTree inside)
    exact absurd (.inr ⟨pre, e, post, split, has, (reaches pre e post split).mp inside⟩) unsupplied

/-- What the search for a block is for: a chunk is made only when all chunks of the map are full,
and as long as one of them is not, one of them serves the call. -/
def ReuseMeets (blockSize : Nat) (mem : Memory) (self : Arena) (t : AvlTree Addr Addr)
    (issued : Addr → List Addr) (region node : Ptr) : Prop :=
  (∀ reply mem' self', self.malloc mem region node = .ok (reply, mem', self') →
    (∃ r, mem.chunks.lookup r = none ∧ mem'.chunks.lookup r ≠ none) → ∀ r ∈ t.mapped, ¬ mem.HasFree r) ∧
  ((∃ r ∈ t.mapped, mem.HasFree r) → ∃ p mem' self',
    self.malloc mem region node = .ok (.returned (some p), mem', self') ∧
      Served blockSize mem self t issued p mem' self')

/-- Whatever the region and the node, chunks are used up before a new one is made exactly when all
of them are full, or one that is not is the current one or hidden by no dead end. -/
theorem malloc_reuses_iff_supplied (sound : self.Sound blockSize mem t issued) (positive : 0 < blockSize)
    (fresh : ∀ r, region = some r → mem.Fresh blockSize r) :
    ReuseMeets blockSize mem self t issued region node ↔
      (∀ r ∈ t.mapped, ¬ mem.HasFree r) ∨ Supplied mem self t := by
  by_cases supplied : Supplied mem self t
  · refine ⟨fun _ => .inr supplied, fun _ => ?_⟩
    obtain ⟨p, mem', self', _, run, _, _, served⟩ := sound.malloc_supplied positive supplied region node
    refine ⟨fun reply mem₁ self₁ run₁ ⟨r, absent, made⟩ => ?_, fun _ => ⟨p, mem', self', run, served⟩⟩
    obtain ⟨_, rfl, _⟩ : .returned (some p) = reply ∧ mem' = mem₁ ∧ self' = self₁ := by simpa [run] using run₁
    exact absurd ((served.present r).mpr absent) made
  · constructor
    · rintro ⟨only, serves⟩
      by_cases some : ∃ r ∈ t.mapped, mem.HasFree r
      · -- a chunk is made although one of them has a free block
        obtain ⟨p, mem', self', run, _⟩ := serves some
        have grown := run
        rw [sound.malloc_unsupplied supplied] at grown
        obtain ⟨r, rfl, rfl, _⟩ := grow_cases grown
        exact .inl (only _ _ _ run ⟨r, (fresh r rfl).unused, by simp⟩)
      · exact .inl fun r member free => some ⟨r, member, free⟩
    · rintro (full | supplied')
      · exact ⟨fun _ _ _ _ _ => full, fun ⟨r, member, free⟩ => absurd free (full r member)⟩
      · exact absurd supplied' supplied

/-! ### One free block -/

theorem holds_filledBut {rs : List Addr} (size : self.blockSize = blockSize)
    (placed : (Memory.filled blockSize rs).Placed blockSize) (stores : self.chunks.Stores t)
    (ordered : Ordered t.entries)
    (ranges : ∀ e ∈ t.entries, e.2.2 ∈ rs ∧ e.2.1 = ⟨e.2.2 + sizeofChunk, e.2.2 + regionSize blockSize⟩)
    (member : r ∈ rs) :
    self.Holds blockSize (.filledBut blockSize rs r) t
      (Function.update (fun r => Chunk.blocks (r + sizeofChunk) blockSize) r
        (Chunk.blocks (r + sizeofChunk) blockSize).tail) :=
  have found : (Memory.filled blockSize rs).chunks.lookup r = some (.full blockSize r) := by
    rw [Memory.lookup_filled, if_pos member]
  (holds_filled size placed stores ordered ranges).replace found (show (Chunk.spare blockSize r).begin = _ from rfl)
    rfl (Chunk.spare_owns blockSize r _)

/-- The tree of four chunks that were entered in an order that hides the last one from the loops. -/
def concealing : AvlTree Addr Addr :=
  .node 13 (.node 10 .nil ⟨2, ⟨8216, 12296⟩, 8192⟩
    (.node 11 .nil ⟨1, ⟨16408, 20488⟩, 16384⟩ (.node 12 .nil ⟨0, ⟨24600, 28680⟩, 24576⟩ .nil)))
    ⟨3, ⟨32792, 36872⟩, 32768⟩ .nil

/-- All blocks are live but one, and the cached chunk is full unless it is the one with that block. -/
theorem concealing_sound {chunks : RangeMap Addr Addr} (stores : chunks.Stores concealing)
    (member : r ∈ [8192, 16384, 24576, 32768]) :
    Sound 16 (.filledBut 16 [8192, 16384, 24576, 32768] r) ⟨16, chunks, some 8192, some 8192, true⟩ concealing
      (Function.update (fun r => Chunk.blocks (r + sizeofChunk) 16) r (Chunk.blocks (r + sizeofChunk) 16).tail) := by
  refine ⟨holds_filledBut rfl (Memory.placed_filled (by decide) (by decide)) stores ?_ (by decide) member,
    ⟨8192, by decide, rfl⟩, ⟨8192, by decide, rfl⟩⟩
  simp [Ordered, concealing]
  decide

/-- The loop comes to the third chunk, which alone has a free block. -/
theorem concealing_supplied : ∃ chunks : RangeMap Addr Addr,
    RangeMap.insertAll .init [(10, ⟨8216, 12296⟩, 8192), (13, ⟨32792, 36872⟩, 32768), (11, ⟨16408, 20488⟩, 16384),
      (12, ⟨24600, 28680⟩, 24576)] = .ok chunks ∧ chunks.Stores concealing ∧
    Supplied (.filledBut 16 [8192, 16384, 24576, 32768] 24576) ⟨16, chunks, some 8192, some 8192, true⟩ concealing := by
  have made : ∃ chunks : RangeMap Addr Addr, RangeMap.insertAll .init [(10, ⟨8216, 12296⟩, 8192),
      (13, ⟨32792, 36872⟩, 32768), (11, ⟨16408, 20488⟩, 16384), (12, ⟨24600, 28680⟩, 24576)] = .ok chunks ∧
      chunks.Stores concealing ∧ chunks.visited = .ok [10, 11, 12] :=
    ⟨_, rfl, ⟨rfl, by simp [Represents, concealing]; decide, by decide⟩, rfl⟩
  obtain ⟨chunks, made, stores, visited⟩ := made
  refine ⟨chunks, made, stores, .inr ⟨[(10, ⟨8216, 12296⟩, 8192), (11, ⟨16408, 20488⟩, 16384)],
    (12, ⟨24600, 28680⟩, 24576), [(13, ⟨32792, 36872⟩, 32768)], rfl, Memory.hasFree_filledBut.mpr rfl,
    fun f member => ?_⟩⟩
  -- the loop comes to the chunk, so no dead end is before it
  have reaches : 12 ∈ [10, 11, 12] ↔ ∀ a ∈ [10, 11], ¬ concealing.DeadEnd a :=
    RangeMap.visited_reaches stores rfl visited
  exact reaches.mp (by decide) f.1 (by simpa using List.mem_map_of_mem (f := Prod.fst) member)

/-- The cached chunk is full, and the loop comes to another one that has a free block. -/
theorem malloc_reuses_iff_supplied_searched :
    ∃ (mem : Memory) (self : Arena) (t : AvlTree Addr Addr) (issued : Addr → List Addr),
      RangeMap.insertAll .init [(10, ⟨8216, 12296⟩, 8192), (13, ⟨32792, 36872⟩, 32768), (11, ⟨16408, 20488⟩, 16384),
        (12, ⟨24600, 28680⟩, 24576)] = .ok self.chunks ∧ self.Sound 16 mem t issued ∧
      self.allocCurrent = some 8192 ∧ (∀ r, mem.HasFree r ↔ r = 24576) ∧
      ReuseMeets 16 mem self t issued (some 40960) (some 24) := by
  obtain ⟨chunks, made, stores, supplied⟩ := concealing_supplied
  have sound := concealing_sound stores (r := 24576) (by decide)
  refine ⟨_, _, concealing, _, made, sound, rfl, fun r => Memory.hasFree_filledBut,
    (malloc_reuses_iff_supplied sound (by decide) fun r same => ?_).mpr (.inr supplied)⟩
  obtain rfl : 40960 = r := Option.some.inj same
  decide

/-- Four chunks, entered in an order that hides the last one; it alone has a free block, and the
call makes a fifth chunk. -/
theorem malloc_grows_beside_free_block :
    ∃ (mem : Memory) (self : Arena) (t : AvlTree Addr Addr) (issued : Addr → List Addr),
      RangeMap.insertAll .init [(10, ⟨8216, 12296⟩, 8192), (13, ⟨32792, 36872⟩, 32768),
        (11, ⟨16408, 20488⟩, 16384), (12, ⟨24600, 28680⟩, 24576)] = .ok self.chunks ∧ self.chunks.Built ∧
      self.Sound 16 mem t issued ∧ 32768 ∈ t.mapped ∧ mem.HasFree 32768 ∧ mem.Fresh 16 40960 ∧
      ¬ ReuseMeets 16 mem self t issued (some 40960) (some 24) := by
  refine ⟨.filledBut 16 [8192, 16384, 24576, 32768] 32768, ⟨16, _, some 8192, some 8192, true⟩, concealing, _, rfl,
    ?built, concealing_sound ⟨rfl, ?stores, by decide⟩ (by decide), by decide, Memory.hasFree_filledBut.mpr rfl,
    by decide, ?misses⟩
  case built =>
    exact .insert 12 24600 28680 24576 (.insert 11 16408 20488 16384 (.insert 13 32792 36872 32768
      (.insert 10 8216 12296 8192 .init rfl rfl) rfl rfl) rfl rfl) rfl rfl
  case stores =>
    simp [Represents, concealing]
    decide
  -- the chunk that served the call is a new one
  case misses =>
    rintro ⟨_, serves⟩
    obtain ⟨p, mem', self', run, ⟨r, member, c, _, _, _, rfl, _⟩, _⟩ := serves ⟨32768, by decide, _, rfl, by decide⟩
    have made := congrArg (Except.map fun result => result.2.2.allocCurrent) run
    have cached : some 40960 = some r := Except.ok.inj made
    obtain rfl : 40960 = r := Option.some.inj cached
    exact absurd member (by decide)

/-! ## Failing allocations -/

/-- What `malloc` is for when memory may run out: it returns a block that was free, or the failure
is reported and everything is as it was. -/
def MallocSafe (blockSize : Nat) (mem : Memory) (self : Arena) (t : AvlTree Addr Addr)
    (issued : Addr → List Addr) (region node : Ptr) : Prop :=
  ∃ reply mem' self', self.malloc mem region node = .ok (reply, mem', self') ∧
    ((∃ p t' issued', reply = .returned (some p) ∧ self'.Sound blockSize mem' t' issued' ∧
        Issues t t' issued issued' p) ∨
      ((reply = .returned none ∨ reply = .threw) ∧ self' = self ∧
        (∀ r, mem'.chunks.lookup r = mem.chunks.lookup r) ∧
        ∀ r c, mem.chunks.lookup r = some c → ∀ a, r ≤ a → a < r + regionSize blockSize →
          mem'.bytes a = mem.bytes a))

/-- The map takes the range of a chunk in the region: nowhere on the way to the root does rebalancing
try to lift a child that is missing. -/
def Admits (self : Arena) (r n : Addr) : Prop :=
  ∃ entered, self.chunks.insert wrapInt8 (some n) (r + sizeofChunk) (r + regionSize self.blockSize) r = .ok entered

/-- That is so at least as long as no height that is stored is too large for `int8_t`. -/
theorem Maps.admits {n : Addr} (maps : self.Maps mem t) (fit : t.HeightsFit)
    (unused : self.chunks.nodes.lookup n = none)
    (fits : self.chunks.insert exactInt8 (some n) (r + sizeofChunk) (r + regionSize self.blockSize) r ≠
      .error .narrow) : self.Admits r n := by
  obtain ⟨_, inserted, chunks, _, _, done, _⟩ := insert_fits maps.stores fit unused fits
  exact ⟨(chunks, inserted), done⟩

theorem grow_returns_iff (small : self.blockSize ≤ 255) :
    (∃ result mem' self', self.grow mem (some r) node = .ok (.returned result, mem', self')) ↔
      ∃ entered, self.chunks.insert wrapInt8 node (r + sizeofChunk) (r + regionSize self.blockSize) r =
        .ok entered := by
  obtain ⟨begin, end_⟩ := newChunk_shape small mem r
  generalize taken : (newChunk self.blockSize mem r).1.allocate (newChunk self.blockSize mem r).2
    self.blockSize = left
  obtain ⟨result, c⟩ := left
  obtain ⟨begin', end_'⟩ := Chunk.allocate_range taken
  simp only [Arena.grow, createNewChunk_eq, ok_bind, deref_of_lookup (AList.lookup_insert _), taken, begin', end_',
    begin, end_]
  cases self.chunks.insert wrapInt8 node (r + sizeofChunk) (r + regionSize self.blockSize) r with
  | error e => cases e <;> simp
  | ok entered => simp

/-- Without memory for the node no chunk is entered. -/
theorem Sound.no_node (sound : self.Sound blockSize mem t issued) (small : blockSize ≤ 255)
    (fresh : mem.Fresh blockSize r) (entered : RangeMap Addr Addr × Bool) :
    self.chunks.insert wrapInt8 none (r + sizeofChunk) (r + regionSize blockSize) r ≠ .ok entered := by
  intro run
  obtain ⟨begin, end_⟩ := newChunk_shape small mem r
  rcases insert_without_memory wrapInt8 (r + sizeofChunk) (r + regionSize blockSize) r sound.maps.stores with
    failed | ⟨_, e, member, apart⟩
  · simp [failed] at run
  · have compares := sound.maps.compares sound.placed fresh begin end_ e member
    rw [begin, end_] at compares
    exact apart compares

/-- `malloc` is safe exactly when a chunk of the map serves it, or memory is there both for the
chunk and for the node and the map takes the chunk. -/
theorem malloc_safe_iff (sound : self.Sound blockSize mem t issued) (positive : 0 < blockSize)
    (small : blockSize ≤ 255) (fresh : ∀ r, region = some r → mem.Fresh blockSize r)
    (unused : ∀ n, node = some n → self.chunks.nodes.lookup n = none) :
    MallocSafe blockSize mem self t issued region node ↔
      Supplied mem self t ∨ ∃ r n, region = some r ∧ node = some n ∧ self.Admits r n := by
  by_cases supplied : Supplied mem self t
  · refine ⟨fun _ => .inl supplied, fun _ => ?_⟩
    obtain ⟨p, mem', self', issued', run, sound', issues, _⟩ := sound.malloc_supplied positive supplied region node
    exact ⟨_, mem', self', run, .inl ⟨p, t, issued', rfl, sound', issues⟩⟩
  · obtain rfl := sound.size
    constructor
    · rintro ⟨reply, mem', self', run, outcome⟩
      rw [sound.malloc_unsupplied supplied] at run
      obtain ⟨r, rfl, same, done⟩ := grow_cases run
      -- the new chunk is not given back, so the call has returned a block
      rcases outcome with ⟨p, t', issued', rfl, _⟩ | ⟨_, _, chunks, _⟩
      · obtain ⟨entered, inserted⟩ := (grow_returns_iff small).mp ⟨_, _, _, run⟩
        cases node with
        | none => exact absurd inserted (sound.no_node small (fresh r rfl) entered)
        | some n => exact .inr ⟨r, n, rfl, rfl, entered, inserted⟩
      · have kept := chunks r
        rw [same, (fresh r rfl).unused] at kept
        simp at kept
    · rintro (supplied' | ⟨r, n, rfl, rfl, admits⟩)
      · exact absurd supplied' supplied
      · obtain ⟨result, mem', self', grown⟩ :
            ∃ result mem' self', self.grow mem (some r) (some n) = .ok (.returned result, mem', self') :=
          (grow_returns_iff small).mpr admits
        refine ⟨_, mem', self', (sound.malloc_unsupplied supplied _ _).trans grown, .inl ?_⟩
        rcases sound.grow positive small (fresh r rfl) unused grown with valid | ⟨threw, _⟩
        · exact valid
        · simp at threw

/-- No memory is left, neither for a chunk nor for a node, and the cached chunk is full; another chunk
serves the call. -/
theorem malloc_safe_iff_exhausted :
    ∃ (mem : Memory) (self : Arena) (t : AvlTree Addr Addr) (issued : Addr → List Addr),
      RangeMap.insertAll .init [(10, ⟨8216, 12296⟩, 8192), (13, ⟨32792, 36872⟩, 32768), (11, ⟨16408, 20488⟩, 16384),
        (12, ⟨24600, 28680⟩, 24576)] = .ok self.chunks ∧ self.Sound 16 mem t issued ∧
      self.allocCurrent = some 8192 ∧ (∀ r, mem.HasFree r ↔ r = 24576) ∧
      MallocSafe 16 mem self t issued none none := by
  obtain ⟨chunks, made, stores, supplied⟩ := concealing_supplied
  have sound := concealing_sound stores (r := 24576) (by decide)
  exact ⟨_, _, concealing, _, made, sound, rfl, fun r => Memory.hasFree_filledBut,
    (malloc_safe_iff sound (by decide) (by decide) (by simp) (by simp)).mpr (.inl supplied)⟩

/-- The only chunk is full. Without memory for another one the null region is used; without
memory for its node the region is not given back. -/
theorem malloc_unsafe_without_memory :
    ∃ (self : Arena) (t : AvlTree Addr Addr), self.chunks.Built ∧
      self.Sound 16 (.filled 16 [16384]) t (fun r => Chunk.blocks (r + sizeofChunk) 16) ∧
      ¬ MallocSafe 16 (.filled 16 [16384]) self t (fun r => Chunk.blocks (r + sizeofChunk) 16) none (some 2) ∧
      (Memory.filled 16 [16384]).Fresh 16 32768 ∧
      ¬ MallocSafe 16 (.filled 16 [16384]) self t (fun r => Chunk.blocks (r + sizeofChunk) 16) (some 32768) none := by
  let tree : AvlTree Addr Addr := .node 1 .nil ⟨0, ⟨16408, 20488⟩, 16384⟩ .nil
  refine ⟨⟨16, _, some 16384, some 16384, true⟩, tree, .insert 1 16408 20488 16384 .init rfl rfl,
    ⟨holds_filled rfl (Memory.placed_filled (by decide) (by decide)) ?stores (by simp [Ordered, tree]) (by decide),
      ⟨16384, by decide, rfl⟩, ⟨16384, by decide, rfl⟩⟩, ?region, by decide, ?node⟩
  case stores => exact ⟨rfl, by simp [Represents, tree]; decide, by decide⟩
  -- without a region the chunk is constructed at a null address
  case region =>
    rintro ⟨reply, mem', self', run, _⟩
    have faults : (.error .null : Except Fault _) = .ok (reply, mem', self') := run
    simp at faults
  -- without a node the chunk is made, and no map has it
  case node =>
    rintro ⟨reply, mem', self', run, outcome⟩
    have threw : Reply.threw = reply := Except.ok.inj (congrArg (Except.map Prod.fst) run)
    subst threw
    rcases outcome with ⟨_, _, _, returned, _⟩ | ⟨_, _, chunks, _⟩
    · simp at returned
    · have kept := congrArg (Except.map fun result => (result.2.1.chunks.lookup 32768).isSome) run
      have present : true = (mem'.chunks.lookup 32768).isSome := Except.ok.inj kept
      rw [chunks 32768] at present
      exact absurd present (by decide)

end Arena

end SmallObject
