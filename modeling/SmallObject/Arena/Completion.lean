import SmallObject.Arena.Intact
import SmallObject.Arena.Possession

/-! Calls of an arena that shares its memory complete.

There has to be memory for a chunk when one is made, and a call of `malloc` may not make a height
too large for `int8_t`. `shrink` enters the chunks in their order, which makes no such height; it
has to have memory for its vector and for all of its nodes, as it cannot throw.
-/

set_option autoImplicit false

namespace SmallObject

open Linked AvlTree

namespace Arena

/-- No height in the map is too large for its type. -/
def Fit (self : Arena) : Prop := ∀ t, self.chunks.Stores t → t.HeightsFit

variable {ar r n : Addr} {d : Deeds} {mem mem' : Memory} {self self' : Arena} {t : AvlTree Addr Addr}
  {region node : Ptr}

theorem fit_of_stores (stores : self.chunks.Stores t) (fit : t.HeightsFit) : self.Fit := by
  intro t' stores'
  obtain rfl := stores.unique stores'
  exact fit

theorem Fit.of_chunks (fit : self.Fit) (same : self'.chunks = self.chunks) : self'.Fit := fun t stores =>
  fit t (same ▸ stores)

/-! ## `malloc` -/

/-- A chunk of the map is tried. -/
theorem Maps.tries (maps : self.Maps mem t) (member : r ∈ t.mapped) :
    self.tryToAlloc mem (some r) = .ok (none, mem, self) ∨
      ∃ p mem' self', self.tryToAlloc mem (some r) = .ok (some p, mem', self') ∧ self'.chunks = self.chunks := by
  obtain ⟨c, found⟩ := maps.mapped_chunk member
  by_cases free : mem.HasFree r
  · obtain ⟨p, mem', self', taken⟩ := tryToAlloc_free self free
    rcases tryToAlloc_cases taken with ⟨same, _⟩ | ⟨_, _, _, _, _, _, _, _, rfl⟩
    · cases same
    · exact .inr ⟨p, mem', _, taken, rfl⟩
  · exact .inl (tryToAlloc_full self found free)

/-- The loop ends, with a block of one of the chunks or with none. -/
theorem Maps.searches (maps : self.Maps mem t) :
    self.search mem (rounds self.chunks.nodes) t.addrs.head? = .ok (none, mem, self) ∨
      ∃ p mem' self', self.search mem (rounds self.chunks.nodes) t.addrs.head? = .ok (some p, mem', self') ∧
        self'.chunks = self.chunks := by
  obtain ⟨es, inTree, _, ⟨run, _⟩ | ⟨e, member, _, run⟩⟩ := maps.search_reaches
  · exact .inl run
  · rw [run]
    exact maps.tries (List.mem_map_of_mem (f := fun e => e.2.2) (inTree member))

/-- The chunk is entered, or the call throws. -/
theorem Maps.grow_completes (maps : self.Maps mem t) (fit : self.Fit)
    (unused : ∀ n, node = some n → self.chunks.nodes.lookup n = none)
    (fits : self.growNoting exactInt8 mem (some r) node ≠ .error .narrow) :
    ∃ reply mem' self', self.grow mem (some r) node = .ok (reply, mem', self') ∧ self'.Fit := by
  generalize taken : (newChunk self.blockSize mem r).1.allocate (newChunk self.blockSize mem r).2
    self.blockSize = outcome
  obtain ⟨result, c⟩ := outcome
  simp only [growNoting, Arena.grow, createNewChunk_eq, ok_bind, deref_of_lookup (AList.lookup_insert _), taken,
    AList.insert_insert] at fits ⊢
  cases node with
  | none =>
    rcases insert_without_memory wrapInt8 c.begin c.end_ r maps.stores with failed | ⟨rejected, _⟩
    · simp only [failed]
      exact ⟨_, _, _, rfl, fit⟩
    · simp only [rejected]
      exact ⟨_, _, _, rfl, fit.of_chunks rfl⟩
  | some n =>
    have within : self.chunks.insert exactInt8 (some n) c.begin c.end_ r ≠ .error .narrow := fun wide =>
      fits (by simp [wide])
    obtain ⟨t', inserted, chunks, _, fit', entered, stores, _⟩ :=
      insert_fits maps.stores (fit t maps.stores) (unused n rfl) within
    simp only [entered]
    exact ⟨_, _, _, rfl, fit_of_stores stores fit'⟩

theorem Possesses.malloc_completes (possesses : self.Possesses d mem ar t) (fit : self.Fit)
    (unused : ∀ n, node = some n → self.chunks.nodes.lookup n = none)
    (fits : self.mallocNoting exactInt8 mem (some r) node ≠ .error .narrow) :
    ∃ reply mem' self', self.malloc mem (some r) node = .ok (reply, mem', self') ∧ self'.Fit := by
  obtain ⟨current, member, cached⟩ := possesses.alloc
  have maps := possesses.maps
  simp only [mallocNoting, Arena.malloc, cached] at fits ⊢
  rcases maps.tries member with full | ⟨p, mem', self', taken, same⟩
  · simp only [full, ok_bind, RangeMap.begin_follows maps.stores] at fits ⊢
    rcases maps.searches with missed | ⟨p, mem', self', found, same⟩
    · simp only [missed, ok_bind] at fits ⊢
      exact maps.grow_completes fit unused fits
    · simp only [found, ok_bind]
      exact ⟨_, mem', self', rfl, fit.of_chunks same⟩
  · simp only [taken, ok_bind]
    exact ⟨_, mem', self', rfl, fit.of_chunks same⟩

/-! ## `shrink` -/

/-- There are no more chunks than addresses. -/
theorem Maps.few_divided (maps : self.Maps mem t) (divided : mem.Divided d) : t.mapped.length ≤ 2 ^ 64 := by
  have below : t.mapped ⊆ List.range sizeRange := by
    intro r member
    obtain ⟨c, found⟩ := maps.mapped_chunk member
    have inside := (divided.chunk r c found).inside
    rw [List.mem_range]
    unfold regionSize sizeofChunk at inside
    lia
  have := (List.subperm_of_subset maps.mapped_nodup below).length_le
  simpa [sizeRange] using this

/-- An empty map takes a chunk. -/
theorem enter_bare {map : RangeMap Addr Addr} (bare : map.Stores .nil) (unused : map.nodes.lookup n = none)
    (low high r : Addr) :
    ∃ chunks inserted t', map.insert wrapInt8 (some n) low high r = .ok (chunks, inserted) ∧
      chunks.Stores t' ∧ t'.HeightsFit := by
  have within : map.insert exactInt8 (some n) low high r ≠ .error .narrow := by
    simp [RangeMap.insert, RangeMap.insertNode, bare.root, RangeMap.createNode]
  obtain ⟨t', inserted, chunks, _, fit, entered, stores, _⟩ := insert_fits bare heightsFit_nil unused within
  exact ⟨chunks, inserted, t', entered, stores, fit⟩

/-- With memory for its chunk, the constructor can only fail for want of a node. -/
theorem init_returns_or_throws (mem : Memory) (size : Nat) (r : Addr) (node : Ptr) :
    Arena.init mem size (some r) node = .error .badAlloc ∨
      ∃ mem' self', Arena.init mem size (some r) node = .ok (mem', self') ∧ self'.Fit := by
  simp only [Arena.init, createNewChunk_eq, ok_bind, deref_of_lookup (AList.lookup_insert _)]
  cases node with
  | none => exact .inl rfl
  | some n =>
    obtain ⟨chunks, inserted, t', entered, stores, fit⟩ := enter_bare RangeMap.stores_init (AList.lookup_empty n)
      (newChunk size mem r).1.begin (newChunk size mem r).1.end_ r
    simp only [entered, ok_bind]
    exact .inr ⟨_, _, rfl, fit_of_stores stores fit⟩

/-- What the system answers `shrink` is enough for the chunks that it keeps, in its vector and in the
map, and for a new one. -/
def Enough (mem : Memory) (self : Arena) (room : Nat) (nodes : List Ptr) (region node : Ptr) : Prop :=
  (self.reached.filter fun r => !mem.isEmpty r).length ≤ room ∧ (∀ n ∈ nodes, n ≠ none) ∧
    (self.reached.filter fun r => !mem.isEmpty r).length ≤ nodes.length ∧ region ≠ none ∧ node ≠ none

instance (mem : Memory) (self : Arena) (room : Nat) (nodes : List Ptr) (region node : Ptr) :
    Decidable (self.Enough mem room nodes region node) := by
  unfold Enough
  infer_instance

/-- A list without null is one of addresses. -/
theorem addresses_of_given {nodes : List Ptr} (given : ∀ n ∈ nodes, n ≠ none) :
    ∃ ns : List Addr, nodes = ns.map some := by
  induction nodes with
  | nil => exact ⟨[], rfl⟩
  | cons node nodes ih =>
    obtain ⟨n, rfl⟩ := Option.ne_none_iff_exists'.mp (given node List.mem_cons_self)
    obtain ⟨ns, rfl⟩ := ih fun n member => given n (List.mem_cons_of_mem _ member)
    exact ⟨n :: ns, rfl⟩

/-- The second loop of `shrink` enters the chunks that the first one has kept. -/
theorem Maps.reenters {mem₁ : Memory} {cleared : RangeMap Addr Addr} {ns : List Addr} (maps : self.Maps mem t)
    (few : t.mapped.length ≤ 2 ^ 64) (effect : Swept mem mem₁ self.reached) (bare : cleared.Stores .nil)
    (unused : ∀ n ∈ ns, cleared.nodes.lookup n = none) (distinct : ns.Nodup)
    (enough : (self.reached.filter fun s => !mem.isEmpty s).length ≤ ns.length) :
    ∃ chunks t₁, reinsert mem₁ cleared (self.reached.filter fun s => !mem.isEmpty s) (ns.map some) = .ok chunks ∧
      Maps mem₁ { self with chunks } t₁ ∧ t₁.HeightsFit ∧
        t₁.mapped = self.reached.filter fun s => !mem.isEmpty s := by
  obtain ⟨es, others, split, _, reached, _⟩ := maps.reached
  let live : Addr → List Addr := fun s => if mem.isEmpty s then [] else [s]
  have occupied_eq : occupied live (es.map fun e => e.2.2) = self.reached.filter fun s => !mem.isEmpty s := by
    rw [reached]
    refine List.filter_congr fun s _ => ?_
    cases empty : mem.isEmpty s <;> simp [live, empty]
  have kept : ∀ s ∈ occupied live (es.map fun e => e.2.2), mem₁.chunks.lookup s = mem.chunks.lookup s := by
    intro s member
    refine effect.kept s fun _ => ?_
    have full := (List.mem_filter.mp (occupied_eq ▸ member)).2
    simpa using full
  obtain ⟨chunks, t₁, noted, noting, _, stores, fit, ordered, present, mapped⟩ :=
    maps.restored_few few split kept bare unused distinct (by simpa [occupied_eq] using enough)
  refine ⟨chunks, t₁, ?_, ⟨stores, ordered, present⟩, fit, mapped.trans occupied_eq⟩
  rw [reinsert_eq, ← occupied_eq, noting]
  rfl

theorem Possesses.shrink_completes {room : Nat} {nodes : List Ptr} (possesses : self.Possesses d mem ar t)
    (divided : mem.Divided d) (regains : self.Regains mem nodes region node)
    (enough : self.Enough mem room nodes region node) :
    ∃ mem' self', self.shrink mem room nodes region node = .ok (mem', self') ∧ self'.Fit := by
  have maps := possesses.maps
  obtain ⟨grows, given, enough, needsRegion, needsNode⟩ := enough
  obtain ⟨r, rfl⟩ := Option.ne_none_iff_exists'.mp needsRegion
  obtain ⟨n, rfl⟩ := Option.ne_none_iff_exists'.mp needsNode
  obtain ⟨ns, rfl⟩ := addresses_of_given given
  obtain ⟨mem₁, effect, sweeps⟩ := maps.sweep
  have swept := (sweeps room).trans (if_pos grows)
  obtain ⟨cleared, clears, bare, _, _⟩ := clear_follows maps.stores
  have afterNodes : self.afterClear = cleared.nodes := by simp only [afterClear, clears]
  have all : (some n :: ns.map some).reduceOption = n :: ns := by
    rw [← List.map_cons, List.reduceOption, List.filterMap_map]
    exact List.filterMap_some
  have unused := regains.unused
  have distinct := regains.distinct
  rw [all, afterNodes] at unused
  rw [all] at distinct
  obtain ⟨chunks, t₁, entered, maps₁, fit, mapped⟩ := maps.reenters (maps.few_divided divided) effect bare
    (fun a member => unused a (List.mem_cons_of_mem _ member)) (List.nodup_cons.mp distinct).2 (by simpa using enough)
  simp only [shrink_eq, RangeMap.begin_follows maps.stores, swept, clears, entered, ok_bind]
  by_cases left : t₁ = .nil
  -- no chunk is kept, and nothing was entered
  · subst left
    have none : self.reached.filter (fun s => !mem.isEmpty s) = [] := mapped.symm
    obtain rfl : cleared = chunks := by simpa [none, reinsert] using entered
    have vacant : cleared.empty = true := by
      rw [RangeMap.empty, bare.root]
      rfl
    obtain ⟨chunks, inserted, t', entered, stores, fit⟩ := enter_bare bare (unused n List.mem_cons_self)
      (newChunk self.blockSize mem₁ r).1.begin (newChunk self.blockSize mem₁ r).1.end_ r
    simp only [settle, vacant, if_true, createNewChunk_eq, ok_bind, deref_of_lookup (AList.lookup_insert _), entered]
    exact ⟨_, _, rfl, fit_of_stores stores fit⟩
  · obtain ⟨first, _, settled⟩ := maps₁.settle_node left (some r) (some n)
    exact ⟨mem₁, _, settled, fit_of_stores maps₁.stores fit⟩

end Arena

end SmallObject
