import SmallObject.Arena.Supply
import SmallObject.Library.Execution

/-! Runs of `malloc`, `free` and `shrink`, whatever the free lists have come to.

What the chunks hand out and take back does not matter to the map: it names chunks that
exist, each under its closed range, and the cached pointers name chunks of the map. The
outcomes of insertions, which the source does not look at, are noted beside the calls.
-/

set_option autoImplicit false

namespace SmallObject

open Linked AvlTree Execution

namespace Arena

/-! ## The outcomes of insertions -/

section Noting

variable (narrow : Narrowing) (mem : Memory) (self : Arena) (region node : Ptr)

def growNoting : Except Fault ((Reply × Memory × Arena) × List Bool) := do
  let (mem, current) ← createNewChunk mem self.blockSize region
  let c ← deref mem.chunks (some current)
  let (result, c) := c.allocate mem.bytes self.blockSize
  let mem := { mem with chunks := mem.chunks.insert current c }
  match self.chunks.insert narrow node c.begin c.end_ current with
  | .error .badAlloc => .ok ((.threw, mem, self), [])
  | .error e => .error e
  | .ok (chunks, inserted) =>
    .ok ((.returned result, mem, { self with chunks, allocCurrent := some current, freeCurrent := some current }),
      [inserted])

def mallocNoting : Except Fault ((Reply × Memory × Arena) × List Bool) := do
  let (result, mem, self) ← tryToAlloc mem self self.allocCurrent
  match result with
  | some p => .ok ((.returned (some p), mem, self), [])
  | none => do
    let it ← self.chunks.begin
    let (result, mem, self) ← search mem self (rounds self.chunks.nodes) it
    match result with
    | some p => .ok ((.returned (some p), mem, self), [])
    | none => growNoting narrow mem self region node

def settleNoting : Except Fault ((Memory × Arena) × List Bool) :=
  if self.chunks.empty then do
    let (mem, first) ← createNewChunk mem self.blockSize region
    let c ← deref mem.chunks (some first)
    let (chunks, inserted) ← self.chunks.insert narrow node c.begin c.end_ first
    .ok ((mem, { self with chunks, allocCurrent := some first, freeCurrent := some first }), [inserted])
  else do
    let it ← self.chunks.begin
    let first ← chunkAt self.chunks it
    .ok ((mem, { self with allocCurrent := some first, freeCurrent := some first }), [])

def shrinkNoting (room : Nat) (nodes : List Ptr) : Except Fault ((Memory × Arena) × List Bool) := do
  let it ← self.chunks.begin
  let (mem, nonEmpty) ← sweep mem self (rounds self.chunks.nodes) room it
  let chunks ← self.chunks.clear
  let (chunks, noted) ← reinsertNoting narrow mem chunks nonEmpty nodes
  let (result, last) ← settleNoting narrow mem { self with chunks } region node
  .ok (result, noted ++ last)

def initNoting (blockSize : Nat) : Except Fault ((Memory × Arena) × List Bool) := do
  let (mem, first) ← createNewChunk mem blockSize region
  let c ← deref mem.chunks (some first)
  let (chunks, inserted) ← RangeMap.init.insert narrow node c.begin c.end_ first
  .ok ((mem, { blockSize, chunks, allocCurrent := some first, freeCurrent := some first, reserved := true }),
    [inserted])

end Noting

section Forget

variable (mem : Memory) (self : Arena) (region node : Ptr)

theorem grow_forgets : grow mem self region node = (growNoting wrapInt8 mem self region node).map Prod.fst := by
  simp only [grow, growNoting, map_bind]
  refine bind_congr fun made => bind_congr fun c => ?_
  cases self.chunks.insert wrapInt8 node (c.allocate made.1.bytes self.blockSize).2.begin
    (c.allocate made.1.bytes self.blockSize).2.end_ made.2 with
  | error e => cases e <;> rfl
  | ok entered => rfl

theorem malloc_forgets : malloc mem self region node = (mallocNoting wrapInt8 mem self region node).map Prod.fst := by
  simp only [malloc, mallocNoting, map_bind]
  refine bind_congr fun tried => ?_
  split
  · simp [*, Except.map]
  · simp only [*, map_bind]
    refine bind_congr fun it => bind_congr fun searched => ?_
    split
    · simp [*, Except.map]
    · simp [*, grow_forgets]

theorem settle_forgets : settle mem self region node = (settleNoting wrapInt8 mem self region node).map Prod.fst := by
  unfold settle settleNoting
  split
  · simp only [map_bind]
    rfl
  · simp only [map_bind]
    rfl

theorem shrink_forgets (room : Nat) (nodes : List Ptr) : shrink mem self room nodes region node =
    (shrinkNoting wrapInt8 mem self region node room nodes).map Prod.fst := by
  simp only [shrink_eq, shrinkNoting, map_bind, reinsert_eq]
  refine bind_congr fun it => bind_congr fun swept => bind_congr fun cleared => ?_
  cases reinsertNoting wrapInt8 swept.1 cleared swept.2 nodes with
  | error e => rfl
  | ok entered =>
    simp only [Except.map, ok_bind, settle_forgets]
    cases settleNoting wrapInt8 swept.1 { self with chunks := entered.1 } region node <;> rfl

theorem init_forgets (blockSize : Nat) :
    Arena.init mem blockSize region node = (initNoting wrapInt8 mem region node blockSize).map Prod.fst := by
  simp only [Arena.init, initNoting, map_bind]
  rfl

end Forget

/-! ## What every call keeps -/

/-- The map is right, its heights fit, and the cached pointers name chunks of it. Nothing is
said of the free lists. -/
structure Intact (blockSize : Nat) (mem : Memory) (arena : Arena) (t : AvlTree Addr Addr) : Prop where
  size : arena.blockSize = blockSize
  placed : mem.Placed blockSize
  maps : arena.Maps mem t
  fit : t.HeightsFit
  alloc : ∃ r ∈ t.mapped, arena.allocCurrent = some r
  free : ∃ r ∈ t.mapped, arena.freeCurrent = some r

variable {blockSize : Nat} {mem mem' : Memory} {self self' : Arena} {t : AvlTree Addr Addr} {r n p : Addr} {c : Chunk}

/-- A chunk in a fresh region is never rejected. -/
theorem Maps.enter_fits (maps : self.Maps mem t) (placed : mem.Placed blockSize) (fit : t.HeightsFit)
    (fresh : mem.Fresh blockSize r) (unused : self.chunks.nodes.lookup n = none) (bytes : Bytes)
    (begin : c.begin = r + sizeofChunk) (end_ : c.end_ = r + regionSize blockSize)
    (fits : self.chunks.insert exactInt8 (some n) c.begin c.end_ r ≠ .error .narrow) :
    ∃ chunks t', self.chunks.insert wrapInt8 (some n) c.begin c.end_ r = .ok (chunks, true) ∧
      Maps { mem with bytes, chunks := mem.chunks.insert r c }
        { self with chunks, allocCurrent := some r, freeCurrent := some r } t' ∧ t'.HeightsFit ∧ r ∈ t'.mapped := by
  obtain ⟨t', inserted, chunks, _, fit', run, stores, _⟩ := insert_fits maps.stores fit unused fits
  obtain ⟨rfl, t₁, pre, post, _, gained, maps'⟩ := maps.enter placed fresh unused bytes begin end_ run
  obtain rfl : t₁ = t' := maps'.stores.unique stores
  exact ⟨chunks, t₁, run, maps', fit', by simp [AvlTree.mapped, gained]⟩

/-- The first chunk of an empty map. -/
theorem Maps.enter_empty (bare : self.Maps mem .nil) (placed : mem.Placed blockSize) (fresh : mem.Fresh blockSize r)
    (unused : self.chunks.nodes.lookup n = none) (bytes : Bytes) (begin : c.begin = r + sizeofChunk)
    (end_ : c.end_ = r + regionSize blockSize) :
    ∃ chunks t', self.chunks.insert wrapInt8 (some n) c.begin c.end_ r = .ok (chunks, true) ∧
      Maps { mem with bytes, chunks := mem.chunks.insert r c }
        { self with chunks, allocCurrent := some r, freeCurrent := some r } t' ∧ t'.HeightsFit ∧ r ∈ t'.mapped := by
  refine bare.enter_fits placed heightsFit_nil fresh unused bytes begin end_ ?_
  simp [RangeMap.insert, RangeMap.insertNode, bare.stores.root, RangeMap.createNode]

theorem Intact.tryToAlloc (intact : self.Intact blockSize mem t) (member : r ∈ t.mapped) :
    self.tryToAlloc mem (some r) = .ok (none, mem, self) ∨
      ∃ p mem' self', self.tryToAlloc mem (some r) = .ok (some p, mem', self') ∧ self'.Intact blockSize mem' t ∧
        mem'.freed = mem.freed := by
  obtain ⟨c, found⟩ := intact.maps.mapped_chunk member
  generalize taken : c.allocate mem.bytes self.blockSize = outcome
  obtain ⟨result, c'⟩ := outcome
  cases result with
  | none => exact .inl (by simp [Arena.tryToAlloc, deref_of_lookup found, taken])
  | some p =>
    obtain ⟨begin, end_⟩ := Chunk.allocate_range taken
    have maps : Maps { mem with chunks := mem.chunks.insert r c' } self t := intact.maps.update found begin end_
    refine .inr ⟨p, { mem with chunks := mem.chunks.insert r c' }, { self with allocCurrent := some r },
      by simp [Arena.tryToAlloc, deref_of_lookup found, taken], ⟨intact.size, intact.placed.update found begin end_,
        ⟨maps.stores, maps.ordered, maps.chunk⟩, intact.fit, ⟨r, member, rfl⟩, intact.free⟩, rfl⟩

/-- The loop over the chunks ends, with a block of one of them or with none. -/
theorem Intact.search (intact : self.Intact blockSize mem t) :
    self.search mem (rounds self.chunks.nodes) t.addrs.head? = .ok (none, mem, self) ∨
      ∃ p mem' self', self.search mem (rounds self.chunks.nodes) t.addrs.head? = .ok (some p, mem', self') ∧
        self'.Intact blockSize mem' t ∧ mem'.freed = mem.freed := by
  obtain ⟨es, inTree, _, ⟨run, _⟩ | ⟨e, member, _, run⟩⟩ := intact.maps.search_reaches
  · exact .inl run
  · rw [run]
    exact intact.tryToAlloc (List.mem_map_of_mem (f := fun e => e.2.2) (inTree member))

/-- A chunk that is made and entered. -/
theorem Intact.grow (intact : self.Intact blockSize mem t) (small : blockSize ≤ 255) (fresh : mem.Fresh blockSize r)
    (unused : self.chunks.nodes.lookup n = none)
    (fits : self.growNoting exactInt8 mem (some r) (some n) ≠ .error .narrow) :
    ∃ reply mem' self' t', self.growNoting wrapInt8 mem (some r) (some n) = .ok ((reply, mem', self'), [true]) ∧
      self'.Intact blockSize mem' t' ∧ mem'.freed = mem.freed := by
  obtain rfl := intact.size
  obtain ⟨begin, end_⟩ := newChunk_shape small mem r
  generalize taken : (newChunk self.blockSize mem r).1.allocate (newChunk self.blockSize mem r).2
    self.blockSize = outcome
  obtain ⟨result, c⟩ := outcome
  obtain ⟨begin', end_'⟩ := Chunk.allocate_range taken
  rw [begin] at begin'
  rw [end_] at end_'
  simp only [growNoting, createNewChunk_eq, ok_bind, deref_of_lookup (AList.lookup_insert _), taken,
    AList.insert_insert] at fits ⊢
  obtain ⟨chunks, t', entered, maps, fit, isNew⟩ := intact.maps.enter_fits intact.placed intact.fit fresh unused
    (newChunk self.blockSize mem r).2 begin' end_' (fun wide => fits (by simp [wide]))
  simp only [entered]
  exact ⟨_, _, _, t', rfl, ⟨rfl, intact.placed.create fresh begin' end_', maps, fit, ⟨r, isNew, rfl⟩,
    ⟨r, isNew, rfl⟩⟩, rfl⟩

/-- `malloc` completes, and an insertion that it makes is accepted. -/
theorem Intact.malloc (intact : self.Intact blockSize mem t) (small : blockSize ≤ 255) (fresh : mem.Fresh blockSize r)
    (unused : self.chunks.nodes.lookup n = none)
    (fits : self.mallocNoting exactInt8 mem (some r) (some n) ≠ .error .narrow) :
    ∃ reply mem' self' t' noted, self.mallocNoting wrapInt8 mem (some r) (some n) = .ok ((reply, mem', self'), noted) ∧
      (∀ inserted ∈ noted, inserted = true) ∧ self'.Intact blockSize mem' t' ∧ mem'.freed = mem.freed := by
  obtain ⟨current, member, cached⟩ := intact.alloc
  simp only [mallocNoting, cached] at fits ⊢
  rcases intact.tryToAlloc member with full | ⟨p, mem', self', taken, intact', freed⟩
  · simp only [full, ok_bind, RangeMap.begin_follows intact.maps.stores] at fits ⊢
    rcases intact.search with missed | ⟨p, mem', self', found, intact', freed⟩
    · simp only [missed, ok_bind] at fits ⊢
      obtain ⟨reply, mem', self', t', run, intact', freed⟩ := intact.grow small fresh unused fits
      exact ⟨reply, mem', self', t', _, run, by simp, intact', freed⟩
    · simp only [found, ok_bind]
      exact ⟨_, mem', self', t, _, rfl, by simp, intact', freed⟩
  · simp only [taken, ok_bind]
    exact ⟨_, mem', self', t, _, rfl, by simp, intact', freed⟩

theorem Intact.tryToFree (intact : self.Intact blockSize mem t) (member : r ∈ t.mapped) (p : Addr) :
    ∃ released mem' self', self.tryToFree mem p (some r) = .ok (released, mem', self') ∧
      self'.Intact blockSize mem' t ∧ mem'.freed = mem.freed ∧ self'.chunks = self.chunks := by
  obtain ⟨c, found⟩ := intact.maps.mapped_chunk member
  by_cases inside : c.begin ≤ p ∧ p ≤ c.end_
  · exact ⟨false, mem, self, by simp [Arena.tryToFree, deref_of_lookup found, Chunk.release_inside inside.1 inside.2],
      intact, rfl, rfl⟩
  · have begin : (c.returnBlock mem.bytes p self.blockSize).1.begin = c.begin := rfl
    have end_ : (c.returnBlock mem.bytes p self.blockSize).1.end_ = c.end_ := rfl
    have maps : Maps { mem with
        bytes := (c.returnBlock mem.bytes p self.blockSize).2
        chunks := mem.chunks.insert r (c.returnBlock mem.bytes p self.blockSize).1 } self t :=
      intact.maps.update found begin end_
    refine ⟨true, _, { self with freeCurrent := some r }, ?run, ⟨intact.size, intact.placed.update found begin end_,
      ⟨maps.stores, maps.ordered, maps.chunk⟩, intact.fit, intact.alloc, ⟨r, member, rfl⟩⟩, rfl, rfl⟩
    case run => simp [Arena.tryToFree, deref_of_lookup found, Chunk.release_outside inside]

/-- `free` completes, whatever the pointer. -/
theorem Intact.release (intact : self.Intact blockSize mem t) (p : Addr) :
    ∃ released mem' self', self.free mem p = .ok (released, mem', self') ∧ self'.Intact blockSize mem' t ∧
      mem'.freed = mem.freed := by
  obtain ⟨f, member, cached⟩ := intact.free
  obtain ⟨released, mem₁, self₁, run, intact₁, freed₁, _⟩ := intact.tryToFree member p
  simp only [Arena.free, cached, run, ok_bind]
  cases released with
  | true => exact ⟨true, mem₁, self₁, rfl, intact₁, freed₁⟩
  | false =>
    have stores := intact₁.maps.stores
    simp only [Bool.false_eq_true, if_false, lookupChunkAndFree, RangeMap.find, RangeMap.findNode, stores.root]
    rcases findFrom_follows p stores.rep intact₁.maps.ordered (size_lt_rounds stores.rep stores.nodup).le with
      ⟨e, inside, found, _⟩ | ⟨missed, _⟩
    · obtain ⟨cell, stored, mapped⟩ := intact₁.maps.node (a := e.1)
        (by rw [← map_fst_entries]; exact List.mem_map_of_mem inside)
      obtain ⟨again, mem₂, self₂, retry, intact₂, freed₂, _⟩ := intact₁.tryToFree mapped p
      simp only [found, ok_bind, deref_of_lookup stored, retry]
      exact ⟨true, mem₂, self₂, rfl, intact₂, freed₂.trans freed₁⟩
    · simp only [missed, ok_bind]
      exact ⟨false, mem₁, self₁, rfl, intact₁, freed₁⟩

/-- Only chunks that are there are released, each once. -/
def Releases (mem mem' : Memory) : Prop :=
  ∃ rs : List Addr, mem'.freed = rs ++ mem.freed ∧ rs.Nodup ∧ ∀ r ∈ rs, ∃ c, mem.chunks.lookup r = some c

theorem Releases.none (same : mem'.freed = mem.freed) : Releases mem mem' := ⟨[], by simp [same], .nil, by simp⟩

theorem settleNoting_inhabited (narrow : Narrowing) (mem : Memory) (region node : Ptr)
    (inhabited : self.chunks.empty = false) :
    self.settleNoting narrow mem region node = (self.settle mem region node).map fun result => (result, []) := by
  simp only [settleNoting, settle, inhabited, Bool.false_eq_true, if_false, map_bind]
  rfl

/-- No chunk is left: a fresh one is entered. -/
theorem Maps.settle_empty (bare : self.Maps mem .nil) (size : self.blockSize = blockSize)
    (placed : mem.Placed blockSize)
    (small : blockSize ≤ 255) (fresh : mem.Fresh blockSize r) (unused : self.chunks.nodes.lookup n = none) :
    ∃ mem' self' t', self.settleNoting wrapInt8 mem (some r) (some n) = .ok ((mem', self'), [true]) ∧
      self'.Intact blockSize mem' t' ∧ mem'.freed = mem.freed := by
  obtain rfl := size
  obtain ⟨begin, end_⟩ := newChunk_shape small mem r
  obtain ⟨chunks, t', entered, maps, fit, isNew⟩ :=
    bare.enter_empty placed fresh unused (newChunk self.blockSize mem r).2 begin end_
  have vacant : self.chunks.empty = true := by simp [RangeMap.empty, bare.stores.root]
  simp only [settleNoting, vacant, if_true, createNewChunk_eq, ok_bind, deref_of_lookup (AList.lookup_insert _),
    entered]
  exact ⟨_, _, t', rfl, ⟨rfl, placed.create fresh begin end_, maps, fit, ⟨r, isNew, rfl⟩, ⟨r, isNew, rfl⟩⟩, rfl⟩

/-- The first chunk of the map is cached. -/
theorem Maps.settle_inhabited (maps : self.Maps mem t) (present : t ≠ .nil) (size : self.blockSize = blockSize)
    (placed : mem.Placed blockSize) (fit : t.HeightsFit) (region node : Ptr) :
    ∃ self', self.settleNoting wrapInt8 mem region node = .ok ((mem, self'), []) ∧ self'.Intact blockSize mem t := by
  obtain ⟨first, member, settled⟩ := maps.settle_node present region node
  have inhabited : self.chunks.empty = false := by
    rw [RangeMap.empty, maps.stores.root, Option.isNone_eq_false_iff, Option.isSome_iff_ne_none]
    simpa using present
  rw [settleNoting_inhabited wrapInt8 mem region node inhabited, settled]
  exact ⟨_, rfl, size, placed, ⟨maps.stores, maps.ordered, maps.chunk⟩, fit, ⟨first, member, rfl⟩, ⟨first, member, rfl⟩⟩

/-- `shrink` completes, each insertion that it makes is accepted, and each chunk that it releases
is there. -/
theorem Intact.shrink (intact : self.Intact blockSize mem t) (positive : 0 < blockSize) (small : blockSize ≤ 255)
    {room : Nat} {nodes : List Addr} {region node : Addr}
    (answers : self.Answers blockSize mem room nodes region node) :
    ∃ mem' self' t' noted,
      self.shrinkNoting wrapInt8 mem (some region) (some node) room (nodes.map some) = .ok ((mem', self'), noted) ∧
      (∀ inserted ∈ noted, inserted = true) ∧ self'.Intact blockSize mem' t' ∧ Releases mem mem' := by
  have maps := intact.maps
  let live : Addr → List Addr := fun r => if mem.isEmpty r then [] else [r]
  have counts : Counts mem t live := by
    intro r _
    cases empty : mem.isEmpty r <;> simp [live, empty]
  obtain ⟨seen, missed, flat, run, _⟩ := RangeMap.visited_follows maps.stores
  rw [← map_fst_entries, List.map_eq_append_iff] at flat
  obtain ⟨es, others, split, rfl, rfl⟩ := flat
  simp only [RangeMap.visited, RangeMap.begin_follows maps.stores, ok_bind] at run
  obtain ⟨mem₁, sweeps, sub, _, freed, kept⟩ := maps.swept counts split run
  have swept := answers.sweeps (RangeMap.begin_follows maps.stores) (sweeps room)
  obtain ⟨cleared, clear, none, _, _⟩ := clear_follows maps.stores
  obtain ⟨freshRegion, enough⟩ := answers.fresh _ _ _ (RangeMap.begin_follows maps.stores) swept
  have unused := answers.unused cleared clear
  obtain ⟨chunks, t₁, noted, reinserted, accepted, stores, fit, ordered, present, mapped⟩ := maps.restored
    intact.placed positive split kept none (fun n member => unused n (List.mem_cons_of_mem _ member))
    answers.distinct enough
  have releases : ∀ mem₂ : Memory, mem₂.freed = mem₁.freed → Releases mem mem₂ := by
    intro mem₂ same
    have inMap : (es.map fun e => e.2.2).Sublist t.mapped := by
      rw [AvlTree.mapped, split, List.map_append]
      exact List.sublist_append_left _ _
    have vacated : (vacant live (es.map fun e => e.2.2)).Sublist t.mapped := List.filter_sublist.trans inMap
    refine ⟨_, same.trans freed, List.nodup_reverse.mpr (maps.mapped_nodup.sublist vacated), fun r member => ?_⟩
    exact maps.mapped_chunk (vacated.subset (List.mem_reverse.mp member))
  have maps₁ : Maps mem₁ { self with chunks } t₁ := ⟨stores, ordered, present⟩
  simp only [shrinkNoting, RangeMap.begin_follows maps.stores, swept, clear, reinserted, ok_bind]
  by_cases left : t₁ = .nil
  · subst left
    -- nothing was entered, so the map is as it was cleared
    have nothing : occupied live (es.map fun e => e.2.2) = [] := mapped.symm
    obtain ⟨rfl, rfl⟩ : cleared = chunks ∧ [] = noted := by simpa [nothing, reinsertNoting] using reinserted
    obtain ⟨mem', self', t', settled, intact', freed'⟩ := maps₁.settle_empty intact.size (intact.placed.sub sub)
      small freshRegion (unused node List.mem_cons_self)
    simp only [settled, ok_bind]
    exact ⟨mem', self', t', _, rfl, by simp, intact', releases mem' freed'⟩
  · obtain ⟨self', settled, intact'⟩ := maps₁.settle_inhabited left intact.size (intact.placed.sub sub) fit
      (some region) (some node)
    simp only [settled, ok_bind]
    exact ⟨mem₁, self', t₁, _, rfl, by simpa using accepted, intact', releases mem₁ rfl⟩

theorem Intact.init (placed : mem.Placed blockSize) (small : blockSize ≤ 255) (fresh : mem.Fresh blockSize r)
    (n : Addr) :
    ∃ mem' self t, Arena.initNoting wrapInt8 mem (some r) (some n) blockSize = .ok ((mem', self), [true]) ∧
      self.Intact blockSize mem' t := by
  obtain ⟨begin, end_⟩ := newChunk_shape small mem r
  have bare : Maps mem ⟨blockSize, RangeMap.init, some r, some r, true⟩ .nil := ⟨RangeMap.stores_init, .nil, by simp⟩
  obtain ⟨chunks, t', entered, maps, fit, isNew⟩ :=
    bare.enter_empty (n := n) placed fresh rfl (newChunk blockSize mem r).2 begin end_
  simp only [initNoting, createNewChunk_eq, ok_bind, deref_of_lookup (AList.lookup_insert _), entered]
  exact ⟨_, _, t', rfl, rfl, placed.create fresh begin end_, maps, fit, ⟨r, isNew, rfl⟩, ⟨r, isNew, rfl⟩⟩

end Arena

/-! ## Runs -/

/-- An arena in memory. -/
structure Place where
  mem : Memory
  arena : Arena

namespace Place

open Arena

/-- A call, with what `sys::xmalloc` returns for a region and for the nodes of the map when the
call asks for them, and how many chunks the vector of `shrink` gets memory for. -/
inductive Request where
  | malloc (region node : Addr)
  | free (p : Addr)
  | shrink (room : Nat) (nodes : List Addr) (region node : Addr)
  deriving DecidableEq, Repr

variable {blockSize : Nat} {s s' : Place}

def step (s : Place) : Request → Except Fault Place
  | .malloc region node => do
    let (_, mem, arena) ← s.arena.malloc s.mem (some region) (some node)
    .ok { mem, arena }
  | .free p => do
    let (_, mem, arena) ← s.arena.free s.mem p
    .ok { mem, arena }
  | .shrink room nodes region node => do
    let (mem, arena) ← s.arena.shrink s.mem room (nodes.map some) (some region) (some node)
    .ok { mem, arena }

/-- The same step under any narrowing, with the outcomes of its insertions. -/
def stepNoting (narrow : Narrowing) (s : Place) : Request → Except Fault (Place × List Bool)
  | .malloc region node => do
    let ((_, mem, arena), noted) ← s.arena.mallocNoting narrow s.mem (some region) (some node)
    .ok ({ mem, arena }, noted)
  | .free p => do
    let (_, mem, arena) ← s.arena.free s.mem p
    .ok ({ mem, arena }, [])
  | .shrink room nodes region node => do
    let ((mem, arena), noted) ← s.arena.shrinkNoting narrow s.mem (some region) (some node) room (nodes.map some)
    .ok ({ mem, arena }, noted)

theorem step_forgets (s : Place) (request : Request) :
    s.step request = (s.stepNoting wrapInt8 request).map Prod.fst := by
  cases request with
  | malloc region node =>
    simp only [step, stepNoting, malloc_forgets, map_bind]
    cases s.arena.mallocNoting wrapInt8 s.mem (some region) (some node) <;> rfl
  | free p =>
    simp only [step, stepNoting, map_bind]
    rfl
  | shrink room nodes region node =>
    simp only [step, stepNoting, shrink_forgets, map_bind]
    cases s.arena.shrinkNoting wrapInt8 s.mem (some region) (some node) room (nodes.map some) <;> rfl

/-- What callers and the system allocator are held to: a region meets no region that is in use
when it is asked for, and a freed address is in the block area of a chunk of the map. -/
def Admissible (blockSize : Nat) (s : Place) : Request → Prop
  | .malloc region node => s.mem.Fresh blockSize region ∧ s.arena.chunks.nodes.lookup node = none
  | .free p => ∃ t r c, s.arena.chunks.Stores t ∧ r ∈ t.mapped ∧ s.mem.chunks.lookup r = some c ∧ c.begin ≤ p ∧
    p < c.end_
  | .shrink room nodes region node => s.arena.Answers blockSize s.mem room nodes region node

/-- No height that the call stores is too large for `int8_t`. -/
def HeightsStay (s : Place) (request : Request) : Prop := s.stepNoting exactInt8 request ≠ .error .narrow

/-- A new arena that is alone in its memory or beside other chunks. -/
def Opens (blockSize : Nat) (s : Place) : Prop :=
  ∃ (mem : Memory) (r n : Addr), mem.Placed blockSize ∧ mem.Fresh blockSize r ∧
    Arena.init mem blockSize (some r) (some n) = .ok (s.mem, s.arena)

def Run (blockSize : Nat) : Place → Prop :=
  Runs (Opens blockSize) (fun s request => s.Admissible blockSize request ∧ s.HeightsStay request) step

/-- Every entry of the map is the exact range of a chunk that is there, the entries are disjoint,
and the cached pointers name chunks of the map. -/
structure Tidy (s : Place) (t : AvlTree Addr Addr) : Prop where
  stores : s.arena.chunks.Stores t
  chunk : ∀ e ∈ t.entries, ∃ c, s.mem.chunks.lookup e.2.2 = some c ∧ e.2.1 = ⟨c.begin, c.end_⟩
  disjoint : t.entries.Pairwise fun e f => ∀ key, ¬ (e.2.1.Contains key ∧ f.2.1.Contains key)
  alloc : ∃ r ∈ t.mapped, s.arena.allocCurrent = some r
  free : ∃ r ∈ t.mapped, s.arena.freeCurrent = some r

theorem tidy_of_intact {t : AvlTree Addr Addr} (intact : s.arena.Intact blockSize s.mem t) : s.Tidy t := by
  refine ⟨intact.maps.stores, intact.maps.chunk, ?_, intact.alloc, intact.free⟩
  have distinct := intact.maps.mapped_nodup
  rw [AvlTree.mapped, List.Nodup, List.pairwise_map] at distinct
  refine distinct.imp_of_mem fun {e f} member member' different key inBoth => different ?_
  obtain ⟨c, found, range⟩ := intact.maps.chunk e member
  obtain ⟨d, found', range'⟩ := intact.maps.chunk f member'
  obtain ⟨inside, inside'⟩ := inBoth
  rw [range] at inside
  rw [range'] at inside'
  exact intact.placed.same_chunk found found' inside.1 inside.2 inside'.1 inside'.2

/-- A step completes, its insertions are accepted, and it releases only what is there. -/
theorem step_intact {t : AvlTree Addr Addr} (intact : s.arena.Intact blockSize s.mem t) (positive : 0 < blockSize)
    (small : blockSize ≤ 255) {request : Request} (admissible : s.Admissible blockSize request)
    (stay : s.HeightsStay request) :
    ∃ s' noted t', s.stepNoting wrapInt8 request = .ok (s', noted) ∧ (∀ inserted ∈ noted, inserted = true) ∧
      s'.arena.Intact blockSize s'.mem t' ∧ Releases s.mem s'.mem := by
  cases request with
  | malloc region node =>
    have fits : s.arena.mallocNoting exactInt8 s.mem (some region) (some node) ≠ .error .narrow :=
      fun wide => stay (by simp [stepNoting, wide])
    obtain ⟨reply, mem', self', t', noted, run, accepted, intact', freed⟩ :=
      intact.malloc small admissible.1 admissible.2 fits
    exact ⟨⟨mem', self'⟩, noted, t', by simp [stepNoting, run], accepted, intact', .none freed⟩
  | free p =>
    obtain ⟨released, mem', self', run, intact', freed⟩ := intact.release p
    exact ⟨⟨mem', self'⟩, [], t, by simp [stepNoting, run], by simp, intact', .none freed⟩
  | shrink room nodes region node =>
    obtain ⟨mem', self', t', noted, run, accepted, intact', releases⟩ := intact.shrink positive small admissible
    exact ⟨⟨mem', self'⟩, noted, t', by simp [stepNoting, run], accepted, intact', releases⟩

def Kept (blockSize : Nat) (s : Place) : Prop := ∃ t, s.arena.Intact blockSize s.mem t

theorem run_kept (positive : 0 < blockSize) (small : blockSize ≤ 255) (run : Run blockSize s) : s.Kept blockSize := by
  refine Runs.invariant (fun s opens => ?_) (fun s request s' inv allowed stepped => ?_) run
  · obtain ⟨mem, r, n, placed, fresh, made⟩ := opens
    obtain ⟨mem', self, t, noting, intact⟩ := Intact.init placed small fresh n
    rw [init_forgets, noting] at made
    obtain ⟨rfl, rfl⟩ : mem' = s.mem ∧ self = s.arena := by simpa [Except.map] using made
    exact ⟨t, intact⟩
  · obtain ⟨t, intact⟩ := inv
    obtain ⟨s₁, noted, t', noting, _, intact', _⟩ := step_intact intact positive small allowed.1 allowed.2
    rw [step_forgets, noting] at stepped
    obtain rfl : s₁ = s' := by simpa [Except.map] using stepped
    exact ⟨t', intact'⟩

/-- The constructor's insertion is accepted. In every state of every run the map is tidy; and every
call that is made there completes, has all its insertions accepted, and releases only chunks that
are there, each once. -/
theorem run_tidy (positive : 0 < blockSize) (small : blockSize ≤ 255) :
    (∀ mem r n, mem.Placed blockSize → mem.Fresh blockSize r →
      ∃ mem' self, Arena.initNoting wrapInt8 mem (some r) (some n) blockSize = .ok ((mem', self), [true])) ∧
    ∀ s, Run blockSize s → (∃ t, s.Tidy t) ∧
      ∀ request, s.Admissible blockSize request → s.HeightsStay request →
        ∃ s' noted, s.step request = .ok s' ∧ s.stepNoting wrapInt8 request = .ok (s', noted) ∧
          (∀ inserted ∈ noted, inserted = true) ∧ Releases s.mem s'.mem := by
  refine ⟨fun mem r n placed fresh => ?_, fun s run => ?_⟩
  · obtain ⟨mem', self, _, noting, _⟩ := Intact.init placed small fresh n
    exact ⟨mem', self, noting⟩
  · obtain ⟨t, intact⟩ := run_kept positive small run
    refine ⟨⟨t, tidy_of_intact intact⟩, fun request admissible stay => ?_⟩
    obtain ⟨s', noted, _, noting, accepted, _, releases⟩ := step_intact intact positive small admissible stay
    exact ⟨s', noted, by rw [step_forgets, noting]; rfl, noting, accepted, releases⟩

/-! ## Runs that can be computed -/

instance (mem : Memory) (arena : Arena) (room : Nat) (nodes : List Addr) (region node : Addr) :
    Decidable (arena.Answers blockSize mem room nodes region node) :=
  decidable_of_iff
    ((∀ it ∈ arena.chunks.begin.toOption,
        (arena.sweep mem (rounds arena.chunks.nodes) room it).map (fun _ => ()) ≠ .error .badAlloc ∧
        ∀ swept ∈ (arena.sweep mem (rounds arena.chunks.nodes) room it).toOption,
          swept.1.Fresh blockSize region ∧ swept.2.length ≤ nodes.length) ∧
      (∀ chunks ∈ arena.chunks.clear.toOption, ∀ n ∈ node :: nodes, chunks.nodes.lookup n = none) ∧ nodes.Nodup) <| by
    simp only [mem_toOption]
    constructor
    · rintro ⟨loop, unused, distinct⟩
      exact ⟨fun it begins short => (loop it begins).1 (by rw [short]; rfl),
        fun it mem' nonEmpty begins swept => (loop it begins).2 _ swept, unused, distinct⟩
    · rintro ⟨grows, fresh, unused, distinct⟩
      refine ⟨fun it begins => ⟨fun short => grows it begins ?_, fun swept => fresh it _ _ begins⟩, unused, distinct⟩
      cases swept : arena.sweep mem (rounds arena.chunks.nodes) room it with
      | ok _ => simp [swept, Except.map] at short
      | error e => simpa [swept, Except.map] using short

/-- The same as `Admissible`, with the chunk of a freed address looked up in the map. -/
def Checked (blockSize : Nat) (s : Place) : Request → Prop
  | .malloc region node => s.mem.Fresh blockSize region ∧ s.arena.chunks.nodes.lookup node = none
  | .free p => ∃ it ∈ (s.arena.chunks.find p).toOption, ∃ a ∈ it, ∃ n ∈ s.arena.chunks.nodes.lookup a,
      ∃ c ∈ s.mem.chunks.lookup n.load.mapped, c.begin ≤ p ∧ p < c.end_
  | .shrink room nodes region node => s.arena.Answers blockSize s.mem room nodes region node

instance (request : Request) : Decidable (s.Checked blockSize request) :=
  match request with
  | .malloc _ _ => inferInstanceAs (Decidable (_ ∧ _))
  | .free p => inferInstanceAs (Decidable (∃ it ∈ (s.arena.chunks.find p).toOption, _))
  | .shrink _ _ _ _ => inferInstanceAs (Decidable (Answers ..))

instance (request : Request) : Decidable (s.HeightsStay request) :=
  decidable_of_iff ((s.stepNoting exactInt8 request).map (fun _ => ()) ≠ .error .narrow) <| by
    unfold HeightsStay
    cases s.stepNoting exactInt8 request <;> simp [Except.map]

theorem Checked.admissible {t : AvlTree Addr Addr} {request : Request} (checked : s.Checked blockSize request)
    (intact : s.arena.Intact blockSize s.mem t) : s.Admissible blockSize request := by
  cases request with
  | malloc region node => exact checked
  | shrink room nodes region node => exact checked
  | free p =>
    obtain ⟨it, found, a, rfl, n, stored, c, chunk, inside⟩ := checked
    have maps := intact.maps
    have found := mem_toOption.mp found
    refine ⟨t, n.load.mapped, c, maps.stores, ?_, chunk, inside⟩
    rw [RangeMap.find, RangeMap.findNode, maps.stores.root] at found
    rcases findFrom_follows p maps.stores.rep maps.ordered (size_lt_rounds maps.stores.rep maps.stores.nodup).le with
      ⟨e, member, run, _⟩ | ⟨run, _⟩
    · obtain rfl : e.1 = a := by simpa [run] using found
      obtain ⟨cell, stored', mapped⟩ := maps.node (a := e.1)
        (by rw [← map_fst_entries]; exact List.mem_map_of_mem member)
      obtain rfl := Option.some.inj (stored'.symm.trans stored)
      exact mapped
    · simp [run] at found

theorem run_checked (positive : 0 < blockSize) (small : blockSize ≤ 255)
    (run : Runs (Opens blockSize) (fun s request => s.Checked blockSize request ∧ s.HeightsStay request) step s) :
    Run blockSize s := by
  induction run with
  | start opens => exact .start opens
  | step _ allowed stepped ih =>
    obtain ⟨t, intact⟩ := run_kept positive small ih
    exact ih.step ⟨allowed.1.admissible intact, allowed.2⟩ stepped

/-- The map grows with the 256th block; a block of the first chunk is freed while the second one is
cached, and `shrink` gives the second one back. The next call makes another chunk. -/
theorem run_tidy_grown : ∃ s s', Run 16 s ∧ s.mem.freed = [32768] ∧ s.arena.allocCurrent = some 16384 ∧
    (∃ t, s.Tidy t) ∧ s.step (.malloc 49152 5) = .ok s' ∧ Releases s.mem s'.mem := by
  have computed : ((Arena.init .unallocated 16 (some 16384) (some 1)).toOption.bind fun opened =>
      replay (fun s request => s.Checked 16 request ∧ s.HeightsStay request) step ⟨opened.1, opened.2⟩
        (List.replicate 256 (.malloc 32768 2) ++ [.free 16408, .shrink 1 [3] 65536 4])).map (fun s =>
      (s.mem.freed, s.arena.allocCurrent, decide (s.Checked 16 (.malloc 49152 5) ∧ s.HeightsStay (.malloc 49152 5)))) =
      some ([32768], some 16384, true) := by decide +kernel
  obtain ⟨s, replayed, same⟩ := Option.map_eq_some_iff.mp computed
  obtain ⟨opened, made, replayed⟩ := Option.bind_eq_some_iff.mp replayed
  simp only [Prod.mk.injEq, decide_eq_true_eq] at same
  obtain ⟨freed, cached, fresh, stays⟩ := same
  have opens : Opens 16 ⟨opened.1, opened.2⟩ :=
    ⟨.unallocated, 16384, 1, Memory.placed_unallocated, Memory.fresh_unallocated (by decide), ok_of_toOption made⟩
  have run : Run 16 s := run_checked (by decide) (by decide) (replay_runs _ (.start opens) replayed)
  obtain ⟨tidy, calls⟩ := (run_tidy (by decide) (by decide)).2 s run
  obtain ⟨s', _, stepped, _, _, releases⟩ := calls (.malloc 49152 5) fresh stays
  exact ⟨s, s', run, freed, cached, tidy, stepped, releases⟩

end Place

end SmallObject
