import SmallObject.Arena.Free
import SmallObject.RangeMap.Ascending
import SmallObject.RangeMap.Destroy

/-! `arena::shrink`: the chunks that the iteration reaches are released or entered anew.

The three loops complete on every arena. A chunk that the iteration over the map does
not reach is neither released nor entered again; so the outcome is right exactly when
the iteration reaches them all.
-/

set_option autoImplicit false

namespace SmallObject

open Linked AvlTree

/-- The chunk exists, and its counter says that all its blocks are free. -/
def Memory.isEmpty (mem : Memory) (r : Addr) : Bool := (mem.chunks.lookup r).any Chunk.empty

/-- The memory after a chunk is given back. -/
def Memory.without (mem : Memory) (r : Addr) : Memory :=
  { mem with chunks := mem.chunks.erase r, freed := r :: mem.freed }

theorem Memory.lookup_without {mem : Memory} {r s : Addr} (other : s ≠ r) :
    (mem.without r).chunks.lookup s = mem.chunks.lookup s := AList.lookup_erase_ne other

theorem Memory.isEmpty_without {mem : Memory} {r s : Addr} (other : s ≠ r) :
    (mem.without r).isEmpty s = mem.isEmpty s := by
  rw [isEmpty, isEmpty, lookup_without other]

theorem Arena.releaseChunk_eq {mem : Memory} {r : Addr} {c : Chunk} (found : mem.chunks.lookup r = some c) :
    releaseChunk mem r = .ok (mem.without r) := by
  simp [releaseChunk, deref_of_lookup found, Memory.without]

namespace Chunk

theorem Owns.empty_iff {blockSize : Nat} {c : Chunk} {bytes : Bytes} {issued : List Addr} {free : List Nat}
    (owns : Owns blockSize c bytes issued free) : c.empty = true ↔ issued = [] := by
  have length := owns.length
  have counted := owns.counted
  have full : c.empty = true ↔ c.freeBlocks.toNat = 255 := by
    simp only [empty, maxBlocks, beq_iff_eq, eq_comm (a := (255 : UInt8)), ← UInt8.toNat_inj]
    rfl
  rw [full, counted, ← List.length_eq_zero_iff]
  omega

end Chunk

namespace Arena

variable {blockSize : Nat} {mem mem' : Memory} {self self' : Arena} {t : AvlTree Addr Addr}
  {issued : Addr → List Addr}

theorem Maps.mapped_nodup (maps : self.Maps mem t) : t.mapped.Nodup := by
  unfold AvlTree.mapped List.Nodup
  rw [List.pairwise_map]
  refine maps.ordered.imp_of_mem fun {e f} member member' before same => ?_
  obtain ⟨c, found, range⟩ := maps.chunk e member
  obtain ⟨d, found', range'⟩ := maps.chunk f member'
  rw [same, found', Option.some.injEq] at found
  rw [range, range', found] at before
  exact Range.Before.irrefl _ before

/-- There are no more chunks than addresses. -/
theorem Maps.few (maps : self.Maps mem t) (placed : mem.Placed blockSize) (positive : 0 < blockSize) :
    t.mapped.length ≤ 2 ^ 64 := by
  have below : t.mapped ⊆ List.range sizeRange := by
    intro r member
    obtain ⟨c, found⟩ := maps.mapped_chunk member
    obtain ⟨_, _, inside⟩ := placed.shape r c found
    rw [List.mem_range]
    unfold regionSize sizeofChunk at inside
    lia
  have := (List.subperm_of_subset maps.mapped_nodup below).length_le
  simpa [sizeRange] using this

/-- The counters say which chunks have a live block. -/
def Counts (mem : Memory) (t : AvlTree Addr Addr) (live : Addr → List Addr) : Prop :=
  ∀ r ∈ t.mapped, mem.isEmpty r = (live r).isEmpty

theorem Holds.counts (holds : self.Holds blockSize mem t issued) : Counts mem t issued := by
  intro r member
  obtain ⟨c, found⟩ := holds.maps.mapped_chunk member
  obtain ⟨free, owns⟩ := holds.owns r member c found
  rw [Bool.eq_iff_iff, List.isEmpty_iff]
  simp [Memory.isEmpty, found, owns.empty_iff]

/-! ## The first loop -/

/-- What the first loop leaves that has gone over these chunks: the empty ones are released,
and nothing else has changed. -/
structure Swept (mem mem' : Memory) (reached : List Addr) : Prop where
  bytes : mem'.bytes = mem.bytes
  freed : mem'.freed = (reached.filter mem.isEmpty).reverse ++ mem.freed
  gone : ∀ r ∈ reached, mem.isEmpty r = true → mem'.chunks.lookup r = none
  kept : ∀ r, (r ∈ reached → mem.isEmpty r = false) → mem'.chunks.lookup r = mem.chunks.lookup r

theorem Swept.nil (mem : Memory) : Swept mem mem [] := ⟨rfl, rfl, by simp, fun _ _ => rfl⟩

/-- The first chunk is kept. -/
theorem Swept.keep {r : Addr} {rest : List Addr} (full : mem.isEmpty r = false)
    (swept : Swept mem mem' rest) : Swept mem mem' (r :: rest) where
  bytes := swept.bytes
  freed := by simp [swept.freed, full]
  gone s member empty := by
    rcases List.mem_cons.mp member with rfl | inRest
    · simp [full] at empty
    · exact swept.gone s inRest empty
  kept s notEmpty := swept.kept s fun inRest => notEmpty (List.mem_cons_of_mem _ inRest)

/-- The first chunk is released, and the loop goes on without it. -/
theorem Swept.release {r : Addr} {rest : List Addr} (empty : mem.isEmpty r = true) (fresh : r ∉ rest)
    (swept : Swept (mem.without r) mem' rest) : Swept mem mem' (r :: rest) where
  bytes := swept.bytes
  freed := by
    have same : rest.filter (mem.without r).isEmpty = rest.filter mem.isEmpty :=
      List.filter_congr fun s inRest => Memory.isEmpty_without (ne_of_mem_of_not_mem inRest fresh)
    rw [swept.freed, same, List.filter_cons_of_pos empty, List.reverse_cons, List.append_assoc]
    rfl
  gone s member empty' := by
    rcases List.mem_cons.mp member with rfl | inRest
    · rw [swept.kept s fun inRest => absurd inRest fresh]
      exact AList.lookup_erase _ _
    · have other := ne_of_mem_of_not_mem inRest fresh
      exact swept.gone s inRest ((Memory.isEmpty_without other).trans empty')
  kept s notEmpty := by
    have other : s ≠ r := by
      rintro rfl
      simp [empty] at notEmpty
    rw [swept.kept s fun inRest =>
      (Memory.isEmpty_without other).trans (notEmpty (List.mem_cons_of_mem _ inRest))]
    exact AList.lookup_erase_ne other

/-- The loop completes where the iteration does, if the vector has memory for the chunks that are
kept. -/
theorem sweep_follows (mem : Memory) {fuel : Nat} {it : Ptr} {es : List (Entry Addr Addr)}
    (visit : self.chunks.visitFrom fuel it = .ok (es.map Prod.fst))
    (stored : ∀ e ∈ es, ∃ cell, self.chunks.nodes.lookup e.1 = some cell ∧ cell.load.mapped = e.2.2)
    (present : ∀ e ∈ es, ∃ c, mem.chunks.lookup e.2.2 = some c) (distinct : (es.map fun e => e.2.2).Nodup) :
    ∃ mem', Swept mem mem' (es.map fun e => e.2.2) ∧ ∀ room, self.sweep mem fuel room it =
      if ((es.map fun e => e.2.2).filter fun r => !mem.isEmpty r).length ≤ room then
        .ok (mem', (es.map fun e => e.2.2).filter fun r => !mem.isEmpty r)
      else .error .badAlloc := by
  induction es generalizing fuel it mem with
  | nil =>
    obtain rfl := RangeMap.visitFrom_eq_nil visit
    exact ⟨mem, .nil mem, fun room => by simp [sweep]⟩
  | cons e es ih =>
    obtain ⟨left, next, rfl, rfl, step, visited⟩ := RangeMap.visitFrom_eq_cons visit
    obtain ⟨cell, found, load⟩ := stored e List.mem_cons_self
    obtain ⟨c, chunk⟩ := present e List.mem_cons_self
    obtain ⟨fresh, distinct⟩ := List.nodup_cons.mp distinct
    have storedRest := fun f member => stored f (List.mem_cons_of_mem e member)
    have presentRest := fun f member => present f (List.mem_cons_of_mem e member)
    have isEmpty : mem.isEmpty e.2.2 = c.empty := by simp [Memory.isEmpty, chunk]
    simp only [sweep, deref_of_lookup found, load, deref_of_lookup chunk, ok_bind]
    -- a released chunk is no longer there in the rounds that follow, which ask for others
    cases empty : c.empty with
    | true =>
      have other : ∀ f ∈ es, f.2.2 ≠ e.2.2 := fun f member same =>
        fresh (List.mem_map.mpr ⟨f, member, same⟩)
      obtain ⟨mem', swept, run⟩ := ih (mem.without e.2.2) visited storedRest
        (fun f member => by rw [Memory.lookup_without (other f member)]; exact presentRest f member) distinct
      have same : (es.map fun e => e.2.2).filter (fun r => !(mem.without e.2.2).isEmpty r) =
          (es.map fun e => e.2.2).filter fun r => !mem.isEmpty r :=
        List.filter_congr fun r member => by rw [Memory.isEmpty_without (ne_of_mem_of_not_mem member fresh)]
      refine ⟨mem', .release (isEmpty.trans empty) fresh swept, fun room => ?_⟩
      rw [if_pos rfl, releaseChunk_eq chunk, ok_bind, step, ok_bind, run, same, List.map_cons,
        List.filter_cons_of_neg (by simp [isEmpty, empty])]
    -- one that is kept takes a place in the vector
    | false =>
      obtain ⟨mem', swept, run⟩ := ih mem visited storedRest presentRest distinct
      refine ⟨mem', .keep (isEmpty.trans empty) swept, fun room => ?_⟩
      rw [List.map_cons, List.filter_cons_of_pos (by simp [isEmpty, empty]), List.length_cons]
      cases room with
      | zero => simp [emplaceBack]
      | succ room =>
        simp only [Bool.false_eq_true, if_false, emplaceBack, step, run, ok_bind, Nat.add_le_add_iff_right]
        split <;> rfl

/-! ## The second loop -/

/-- The elements at other nodes. -/
def relabel (nodes : List Addr) (es : List (Entry Addr Addr)) : List (Entry Addr Addr) :=
  (nodes.take es.length).zip (es.map Prod.snd)

section Relabel

variable {nodes : List Addr} {es : List (Entry Addr Addr)} (enough : es.length ≤ nodes.length)

include enough

theorem map_fst_relabel : (relabel nodes es).map Prod.fst = nodes.take es.length :=
  List.map_fst_zip (by simp [enough])

theorem map_snd_relabel : (relabel nodes es).map Prod.snd = es.map Prod.snd :=
  List.map_snd_zip (by simp [enough])

theorem mapped_relabel : (relabel nodes es).map (fun e => e.2.2) = es.map fun e => e.2.2 := by
  simpa [Function.comp_def] using congrArg (List.map Prod.snd) (map_snd_relabel enough)

theorem length_relabel : (relabel nodes es).length = es.length := by
  simpa using congrArg List.length (map_snd_relabel enough)

theorem mem_relabel {e : Entry Addr Addr} (member : e ∈ relabel nodes es) : ∃ f ∈ es, f.2 = e.2 := by
  have inOld : e.2 ∈ es.map Prod.snd := map_snd_relabel enough ▸ List.mem_map_of_mem member
  simpa using inOld

theorem ordered_relabel (ordered : Ordered es) : Ordered (relabel nodes es) := by
  have ranges : ((relabel nodes es).map Prod.snd).Pairwise fun x y => x.1.Before y.1 :=
    map_snd_relabel enough ▸ List.pairwise_map.mpr ordered
  exact (List.pairwise_map (f := Prod.snd) (R := fun x y : Range Addr × Addr => x.1.Before y.1)).mp ranges

/-- All addresses are used up in order, and some may be left. -/
theorem nodes_relabel :
    (relabel nodes es).map (fun e => some e.1) ++ (nodes.drop es.length).map some = nodes.map some := by
  have taken : (relabel nodes es).map (fun e => some e.1) = (nodes.take es.length).map some := by
    rw [← map_fst_relabel enough, List.map_map]
    rfl
  rw [taken, ← List.map_append, List.take_append_drop]

end Relabel

/-- The second loop under any narrowing, with the outcome of every insertion noted. -/
def reinsertNoting (narrow : Narrowing) (mem : Memory) (chunks : RangeMap Addr Addr) :
    List Addr → List Ptr → Except Fault (RangeMap Addr Addr × List Bool)
  | [], _ => .ok (chunks, [])
  | cnk :: rest, nodes => do
    let c ← deref mem.chunks (some cnk)
    let (chunks, inserted) ← chunks.insert narrow (nodes.headD none) c.begin c.end_ cnk
    let (chunks, noted) ← reinsertNoting narrow mem chunks rest nodes.tail
    .ok (chunks, inserted :: noted)

theorem reinsert_eq (mem : Memory) (chunks : RangeMap Addr Addr) (rs : List Addr) (nodes : List Ptr) :
    reinsert mem chunks rs nodes = (reinsertNoting wrapInt8 mem chunks rs nodes).map Prod.fst := by
  induction rs generalizing chunks nodes with
  | nil => rfl
  | cons r rs ih =>
    simp only [reinsert, reinsertNoting]
    cases deref mem.chunks (some r) with
    | error e => rfl
    | ok c =>
      simp only [ok_bind]
      cases chunks.insert wrapInt8 (nodes.headD none) c.begin c.end_ r with
      | error e => rfl
      | ok entered =>
        simp only [ok_bind, ih]
        cases reinsertNoting wrapInt8 mem entered.1 rs nodes.tail <;> rfl

/-- The chunks are entered behind those that are there, in their order, and none is rejected;
each insertion has the next address for its node. -/
theorem reinsert_follows {chunks : RangeMap Addr Addr} {t : AvlTree Addr Addr} {es : List (Entry Addr Addr)}
    (stores : chunks.Stores t) (ascending : t.Ascending) (fit : t.HeightsFit) (ordered : Ordered (t.entries ++ es))
    (few : t.size + es.length ≤ 2 ^ 64)
    (present : ∀ e ∈ es, ∃ c, mem.chunks.lookup e.2.2 = some c ∧ e.2.1 = ⟨c.begin, c.end_⟩)
    (unused : ∀ e ∈ es, chunks.nodes.lookup e.1 = none) (distinct : (es.map Prod.fst).Nodup) (more : List Ptr) :
    ∃ chunks' t', reinsertNoting wrapInt8 mem chunks (es.map fun e => e.2.2) (es.map (fun e => some e.1) ++ more) =
        .ok (chunks', List.replicate es.length true) ∧ chunks'.Stores t' ∧ t'.HeightsFit ∧
        t'.entries = t.entries ++ es := by
  induction es generalizing chunks t with
  | nil => exact ⟨chunks, t, rfl, stores, fit, by simp⟩
  | cons e es ih =>
    obtain ⟨n, range, r⟩ := e
    obtain ⟨c, found, rfl⟩ := present _ List.mem_cons_self
    have unusedHere := unused _ List.mem_cons_self
    obtain ⟨freshNode, distinct⟩ := List.nodup_cons.mp distinct
    obtain ⟨before, _, last⟩ := List.pairwise_append.mp ordered
    have keeps : ∀ z, -128 ≤ z → z ≤ 127 → exactInt8 z = .ok z := fun z low high => by simp [exactInt8, low, high]
    rw [List.length_cons] at few
    obtain ⟨t₁, exact, ascending₁, entries₁⟩ := insert_ascending ⟨c.begin, c.end_⟩ r n keeps
      ascending (by omega) before fun f member => last f member _ List.mem_cons_self
    -- ascending insertions are made without a rejection, and within the heights
    have fit₁ : t₁.HeightsFit := by
      rcases AvlTree.insert_fit n ⟨c.begin, c.end_⟩ r fit with wide | ⟨t₂, inserted, run, fits⟩
      · simp [exact] at wide
      · obtain ⟨rfl, _⟩ : t₁ = t₂ ∧ true = inserted := by simpa [exact] using run
        exact fits
    have inserted := AvlTree.insert_agrees (fun x y => wrapInt8_of_exactInt8) exact
    have follows := insertNode_follows wrapInt8 ⟨c.begin, c.end_⟩ r stores unusedHere
    simp only [inserted] at follows
    obtain ⟨chunks₁, run, stores₁, agree, _⟩ := follows
    have size₁ : t₁.size = t.size + 1 := by
      have := congrArg List.length entries₁
      simpa [AvlTree.entries, LinkTree.size] using this
    have unusedRest : ∀ f ∈ es, chunks₁.nodes.lookup f.1 = none := by
      intro f member
      have free := unused f (List.mem_cons_of_mem _ member)
      refine (agree f.1 fun used => ?_).trans free
      rcases List.mem_cons.mp used with same | inTree
      · exact freshNode (List.mem_map.mpr ⟨f, member, same⟩)
      · obtain ⟨cell, stored⟩ := stores.rep.allocated f.1 inTree
        simp [free] at stored
    obtain ⟨chunks', t', rest, stores', fit', entries'⟩ := ih stores₁ ascending₁ fit₁
      (by simpa [entries₁] using ordered) (by omega) (fun f member => present f (List.mem_cons_of_mem _ member))
      unusedRest distinct
    refine ⟨chunks', t', ?_, stores', fit', by simp [entries', entries₁]⟩
    simp only [List.map_cons, List.cons_append, reinsertNoting, deref_of_lookup found, List.headD_cons, RangeMap.insert,
      run, List.tail_cons, rest, ok_bind, List.length_cons, List.replicate_succ]

/-! ## The last part -/

/-- What `shrink` does with the map that the second loop leaves. -/
def settle (mem : Memory) (self : Arena) (region node : Ptr) : Except Fault (Memory × Arena) :=
  if self.chunks.empty then do
    let (mem, first) ← createNewChunk mem self.blockSize region
    let c ← deref mem.chunks (some first)
    let (chunks, _) ← self.chunks.insert wrapInt8 node c.begin c.end_ first
    .ok (mem, { self with chunks, allocCurrent := some first, freeCurrent := some first })
  else do
    let it ← self.chunks.begin
    let first ← chunkAt self.chunks it
    .ok (mem, { self with allocCurrent := some first, freeCurrent := some first })

theorem shrink_eq (mem : Memory) (self : Arena) (room : Nat) (nodes : List Ptr) (region node : Ptr) :
    self.shrink mem room nodes region node = (do
      let it ← self.chunks.begin
      let (mem, nonEmpty) ← self.sweep mem (rounds self.chunks.nodes) room it
      let chunks ← self.chunks.clear
      let chunks ← reinsert mem chunks nonEmpty nodes
      settle mem { self with chunks } region node) := rfl

/-- No chunk is left: a fresh one is entered. -/
theorem Holds.settle_nil (bare : self.Holds blockSize mem .nil issued) (positive : 0 < blockSize)
    (small : blockSize ≤ 255) {region node : Addr} (fresh : mem.Fresh blockSize region)
    (unused : self.chunks.nodes.lookup node = none) :
    ∃ chunks t', self.settle mem (some region) (some node) =
        .ok ({ mem with
            bytes := (newChunk blockSize mem region).2
            chunks := mem.chunks.insert region (newChunk blockSize mem region).1 },
          { self with chunks, allocCurrent := some region, freeCurrent := some region }) ∧
      t'.mapped = [region] ∧ Sound blockSize
        { mem with
          bytes := (newChunk blockSize mem region).2
          chunks := mem.chunks.insert region (newChunk blockSize mem region).1 }
        { self with chunks, allocCurrent := some region, freeCurrent := some region } t'
        (Function.update issued region []) := by
  obtain rfl := bare.size
  have stores := bare.maps.stores
  have follows := insertNode_follows wrapInt8
    ⟨(newChunk self.blockSize mem region).1.begin, (newChunk self.blockSize mem region).1.end_⟩ region stores unused
  simp only [AvlTree.insert] at follows
  obtain ⟨chunks', inserted, _⟩ := follows
  obtain ⟨t', only, sound⟩ := bare.enter_first positive small fresh unused inserted
  refine ⟨chunks', t', ?_, only, sound⟩
  simp [settle, RangeMap.empty, stores.root, createNewChunk_eq, deref_of_lookup (AList.lookup_insert _),
    RangeMap.insert, inserted]

/-- The first chunk of the map is cached. -/
theorem Maps.settle_node (maps : self.Maps mem t) (present : t ≠ .nil) (region node : Ptr) :
    ∃ r ∈ t.mapped, self.settle mem region node =
      .ok (mem, { self with allocCurrent := some r, freeCurrent := some r }) := by
  have stores := maps.stores
  cases t with
  | nil => exact absurd rfl present
  | node b l x r =>
    obtain ⟨a, rest, all⟩ : ∃ a rest, (LinkTree.node b l x r).addrs = a :: rest :=
      List.exists_cons_of_ne_nil (by simp)
    obtain ⟨cell, found, first⟩ := maps.node (a := a) (by simp [all])
    have inhabited : self.chunks.empty = false := by
      rw [RangeMap.empty, stores.root]
      rfl
    refine ⟨cell.load.mapped, first, ?_⟩
    simp [settle, inhabited, RangeMap.begin_follows stores, all, chunkAt, deref_of_lookup found]

/-! ## The whole call -/

/-- What `sys::xmalloc` is assumed to return: memory for the vector of the chunks that are kept, a
region that is fresh once the first loop is done, and for the nodes addresses that no node has once
the map is cleared. -/
structure Answers (blockSize : Nat) (mem : Memory) (arena : Arena) (room : Nat) (nodes : List Addr)
    (region node : Addr) : Prop where
  grows : ∀ it, arena.chunks.begin = .ok it →
    arena.sweep mem (rounds arena.chunks.nodes) room it ≠ .error .badAlloc
  fresh : ∀ it mem' nonEmpty, arena.chunks.begin = .ok it →
    arena.sweep mem (rounds arena.chunks.nodes) room it = .ok (mem', nonEmpty) →
    mem'.Fresh blockSize region ∧ nonEmpty.length ≤ nodes.length
  unused : ∀ chunks, arena.chunks.clear = .ok chunks → ∀ n ∈ node :: nodes, chunks.nodes.lookup n = none
  distinct : nodes.Nodup

/-- The chunks that have a live block. -/
def occupied (live : Addr → List Addr) (rs : List Addr) : List Addr := rs.filter fun r => !(live r).isEmpty

/-- The chunks that have none. -/
def vacant (live : Addr → List Addr) (rs : List Addr) : List Addr := rs.filter fun r => (live r).isEmpty

/-- What a call leaves that has gone over these chunks: those with a live block are in the map,
untouched, the others were released once each, and a fresh one is there if none is left. -/
structure Shrunk (blockSize : Nat) (mem mem' : Memory) (live : Addr → List Addr) (reached : List Addr)
    (arena : Arena) (t : AvlTree Addr Addr) : Prop where
  maps : arena.Maps mem' t
  kept : occupied live reached ≠ [] → t.mapped = occupied live reached
  fresh : occupied live reached = [] → ∃ r c, t.mapped = [r] ∧ mem'.chunks.lookup r = some c ∧
    c.Owns blockSize mem'.bytes [] (List.range 255)
  untouched : ∀ r ∈ occupied live reached, mem'.chunks.lookup r = mem.chunks.lookup r ∧
    ∀ a, r ≤ a → a < r + regionSize blockSize → mem'.bytes a = mem.bytes a
  found : ∀ r ∈ t.mapped, ∀ c, mem'.chunks.lookup r = some c → ∀ p, c.begin ≤ p → p ≤ c.end_ →
    ∃ a cell, arena.chunks.find p = .ok (some a) ∧ arena.chunks.nodes.lookup a = some cell ∧
      cell.load.mapped = r
  released : mem'.freed.Perm (vacant live reached ++ mem.freed)
  current : ∃ r ∈ t.mapped, arena.allocCurrent = some r ∧ arena.freeCurrent = some r

/-- What `shrink` is for: it goes over all chunks of the map. -/
def ShrinkMeets (blockSize : Nat) (mem : Memory) (self : Arena) (t : AvlTree Addr Addr)
    (live : Addr → List Addr) (room : Nat) (nodes : List Addr) (region node : Addr) : Prop :=
  ∃ mem' self' t', self.shrink mem room (nodes.map some) (some region) (some node) = .ok (mem', self') ∧
    Shrunk blockSize mem mem' live t.mapped self' t'

/-- The first loop on an arena, over a first part of the chunks of its map. -/
theorem Maps.swept (maps : self.Maps mem t) (counts : Counts mem t issued) {es others : List (Entry Addr Addr)}
    (split : t.entries = es ++ others) {fuel : Nat} {it : Ptr}
    (visit : self.chunks.visitFrom fuel it = .ok (es.map Prod.fst)) :
    ∃ mem', (∀ room, self.sweep mem fuel room it =
        if (occupied issued (es.map fun e => e.2.2)).length ≤ room then
          .ok (mem', occupied issued (es.map fun e => e.2.2))
        else .error .badAlloc) ∧
      (∀ r c, mem'.chunks.lookup r = some c → mem.chunks.lookup r = some c) ∧ mem'.bytes = mem.bytes ∧
      mem'.freed = (vacant issued (es.map fun e => e.2.2)).reverse ++ mem.freed ∧
      ∀ r ∈ occupied issued (es.map fun e => e.2.2), mem'.chunks.lookup r = mem.chunks.lookup r := by
  have inTree : ∀ e ∈ es, e ∈ t.entries := fun e member => split ▸ List.mem_append_left _ member
  have isEmpty : ∀ r ∈ es.map (fun e => e.2.2), mem.isEmpty r = (issued r).isEmpty := by
    intro r member
    obtain ⟨e, inside, rfl⟩ := List.mem_map.mp member
    exact counts e.2.2 (List.mem_map_of_mem (inTree e inside))
  have distinct : (es.map fun e => e.2.2).Nodup := by
    have all := maps.mapped_nodup
    rw [AvlTree.mapped, split, List.map_append] at all
    exact all.of_append_left
  obtain ⟨mem', swept, run⟩ := sweep_follows mem visit
    (fun e member => by
      obtain ⟨source, inside, rfl⟩ := List.mem_map.mp (inTree e member)
      obtain ⟨cell, found, load⟩ := maps.stores.rep.stored source inside
      exact ⟨cell, found, by rw [load]⟩)
    (fun e member => (maps.chunk e (inTree e member)).imp fun _ => And.left) distinct
  have keptFilter : (es.map fun e => e.2.2).filter (fun r => !mem.isEmpty r) =
      occupied issued (es.map fun e => e.2.2) :=
    List.filter_congr fun r member => by rw [isEmpty r member]
  have goneFilter : (es.map fun e => e.2.2).filter mem.isEmpty = vacant issued (es.map fun e => e.2.2) :=
    List.filter_congr isEmpty
  refine ⟨mem', fun room => by rw [run, keptFilter], fun r c found => ?_, swept.bytes, by rw [swept.freed, goneFilter],
    fun r member => ?_⟩
  -- only empty chunks are released
  · by_cases dropped : r ∈ es.map (fun e => e.2.2) ∧ mem.isEmpty r = true
    · rw [swept.gone r dropped.1 dropped.2] at found
      simp at found
    · rw [← found, swept.kept r fun member => by simpa [member] using dropped]
  · obtain ⟨member, live⟩ := List.mem_filter.mp member
    exact swept.kept r fun _ => by rw [isEmpty r member]; simpa using live

/-- The second loop on a cleared map: it holds the kept chunks afterwards. -/
theorem Maps.restored_few (maps : self.Maps mem t) (few : t.mapped.length ≤ 2 ^ 64)
    {es others : List (Entry Addr Addr)} (split : t.entries = es ++ others)
    (kept : ∀ r ∈ occupied issued (es.map fun e => e.2.2), mem'.chunks.lookup r = mem.chunks.lookup r)
    {chunks : RangeMap Addr Addr} (cleared : chunks.Stores .nil) {nodes : List Addr}
    (unused : ∀ n ∈ nodes, chunks.nodes.lookup n = none) (distinct : nodes.Nodup)
    (enough : (occupied issued (es.map fun e => e.2.2)).length ≤ nodes.length) :
    ∃ chunks' t' noted,
      reinsertNoting wrapInt8 mem' chunks (occupied issued (es.map fun e => e.2.2)) (nodes.map some) =
        .ok (chunks', noted) ∧
      (∀ inserted ∈ noted, inserted = true) ∧ chunks'.Stores t' ∧ t'.HeightsFit ∧ Ordered t'.entries ∧
      (∀ e ∈ t'.entries, ∃ c, mem'.chunks.lookup e.2.2 = some c ∧ e.2.1 = ⟨c.begin, c.end_⟩) ∧
      t'.mapped = occupied issued (es.map fun e => e.2.2) := by
  let old := es.filter fun e => !(issued e.2.2).isEmpty
  have oldMapped : old.map (fun e => e.2.2) = occupied issued (es.map fun e => e.2.2) := by
    simp only [old, occupied, List.filter_map]
    rfl
  have oldInTree : ∀ e ∈ old, e ∈ t.entries := fun e member =>
    split ▸ List.mem_append_left _ (List.mem_of_mem_filter member)
  rw [← oldMapped, List.length_map] at enough
  have sorted : Ordered old := by
    have all := maps.ordered
    rw [split] at all
    exact (List.pairwise_append.mp all).1.filter _
  have fewOld : old.length ≤ 2 ^ 64 := by
    have := List.length_filter_le (fun e : Entry Addr Addr => !(issued e.2.2).isEmpty) es
    simp only [AvlTree.mapped, split, List.length_map, List.length_append, old] at *
    omega
  -- each kept chunk is entered under the next address
  have present : ∀ e ∈ relabel nodes old, ∃ c, mem'.chunks.lookup e.2.2 = some c ∧ e.2.1 = ⟨c.begin, c.end_⟩ := by
    intro e member
    obtain ⟨f, inOld, same⟩ := mem_relabel enough member
    obtain ⟨c, found, range⟩ := maps.chunk f (oldInTree f inOld)
    rw [← same]
    exact ⟨c, by rwa [kept _ (oldMapped ▸ List.mem_map_of_mem inOld)], range⟩
  have unusedNew : ∀ e ∈ relabel nodes old, chunks.nodes.lookup e.1 = none := fun e member =>
    unused _ (List.mem_of_mem_take (map_fst_relabel enough ▸ List.mem_map_of_mem member))
  have distinctNew : ((relabel nodes old).map Prod.fst).Nodup := by
    rw [map_fst_relabel enough]
    exact distinct.sublist (List.take_sublist _ _)
  obtain ⟨chunks', t', run, stores', fit', entries'⟩ := reinsert_follows cleared trivial heightsFit_nil
    (show Ordered (([] : List (Entry Addr Addr)) ++ relabel nodes old) from ordered_relabel enough sorted)
    (by simpa [length_relabel enough] using fewOld) present unusedNew distinctNew
    ((nodes.drop old.length).map some)
  rw [mapped_relabel enough, oldMapped, nodes_relabel enough] at run
  have entriesNew : t'.entries = relabel nodes old := by simpa using entries'
  refine ⟨chunks', t', _, run, fun inserted member => List.eq_of_mem_replicate member, stores', fit', ?_,
    by rwa [entriesNew], ?_⟩
  · rw [entriesNew]
    exact ordered_relabel enough sorted
  · rw [AvlTree.mapped, entriesNew, mapped_relabel enough, oldMapped]

theorem Maps.restored (maps : self.Maps mem t) (placed : mem.Placed blockSize) (positive : 0 < blockSize)
    {es others : List (Entry Addr Addr)} (split : t.entries = es ++ others)
    (kept : ∀ r ∈ occupied issued (es.map fun e => e.2.2), mem'.chunks.lookup r = mem.chunks.lookup r)
    {chunks : RangeMap Addr Addr} (cleared : chunks.Stores .nil) {nodes : List Addr}
    (unused : ∀ n ∈ nodes, chunks.nodes.lookup n = none) (distinct : nodes.Nodup)
    (enough : (occupied issued (es.map fun e => e.2.2)).length ≤ nodes.length) :
    ∃ chunks' t' noted,
      reinsertNoting wrapInt8 mem' chunks (occupied issued (es.map fun e => e.2.2)) (nodes.map some) =
        .ok (chunks', noted) ∧
      (∀ inserted ∈ noted, inserted = true) ∧ chunks'.Stores t' ∧ t'.HeightsFit ∧ Ordered t'.entries ∧
      (∀ e ∈ t'.entries, ∃ c, mem'.chunks.lookup e.2.2 = some c ∧ e.2.1 = ⟨c.begin, c.end_⟩) ∧
      t'.mapped = occupied issued (es.map fun e => e.2.2) :=
  maps.restored_few (maps.few placed positive) split kept cleared unused distinct enough

/-- The first loop does not fail for want of memory. -/
theorem Answers.sweeps {room : Nat} {nodes : List Addr} {region node : Addr} {it : Ptr} {kept : List Addr}
    (answers : self.Answers blockSize mem room nodes region node) (begins : self.chunks.begin = .ok it)
    (sweeps : self.sweep mem (rounds self.chunks.nodes) room it =
      if kept.length ≤ room then .ok (mem', kept) else .error .badAlloc) :
    self.sweep mem (rounds self.chunks.nodes) room it = .ok (mem', kept) := by
  refine sweeps.trans (if_pos ?_)
  by_contra short
  exact answers.grows it begins (sweeps.trans (if_neg short))

/-- Memory that no chunk and no node uses from the start on will do, and a vector for all chunks. -/
theorem Holds.answers (holds : self.Holds blockSize mem t issued) {room : Nat} {nodes : List Addr}
    {region node : Addr} (fresh : mem.Fresh blockSize region)
    (unused : ∀ n ∈ node :: nodes, self.chunks.nodes.lookup n = none) (distinct : nodes.Nodup)
    (grows : t.mapped.length ≤ room) (enough : t.mapped.length ≤ nodes.length) :
    self.Answers blockSize mem room nodes region node := by
  have stores := holds.maps.stores
  obtain ⟨seen, missed, flat, run, _, _⟩ := RangeMap.visited_follows stores
  rw [← map_fst_entries, List.map_eq_append_iff] at flat
  obtain ⟨es, others, split, rfl, rfl⟩ := flat
  simp only [RangeMap.visited, RangeMap.begin_follows stores, ok_bind] at run
  obtain ⟨mem₁, sweeps, sub, _⟩ := holds.maps.swept holds.counts split run
  have shorter : (occupied issued (es.map fun e => e.2.2)).length ≤ t.mapped.length := by
    have := List.length_filter_le (fun r => !(issued r).isEmpty) (es.map fun e => e.2.2)
    simp only [AvlTree.mapped, split, List.length_map, List.length_append, occupied] at *
    omega
  have swept : ∀ it, self.chunks.begin = .ok it → self.sweep mem (rounds self.chunks.nodes) room it =
      .ok (mem₁, occupied issued (es.map fun e => e.2.2)) := by
    intro it begins
    obtain rfl : t.addrs.head? = it := by simpa [RangeMap.begin_follows stores] using begins
    exact (sweeps room).trans (if_pos (shorter.trans grows))
  refine ⟨fun it begins => by simp [swept it begins], fun it mem' nonEmpty begins done => ?_,
    fun chunks cleared n member => ?_, distinct⟩
  · obtain ⟨rfl, rfl⟩ : mem₁ = mem' ∧ occupied issued (es.map fun e => e.2.2) = nonEmpty := by
      simpa [swept it begins] using done
    exact ⟨⟨fresh.1, fun r c found => fresh.2 r c (sub r c found)⟩, shorter.trans enough⟩
  -- clearing the map leaves no node behind
  · obtain ⟨chunks', clear, _, _, agree⟩ := clear_follows stores
    obtain rfl : chunks' = chunks := by simpa [clear] using cleared
    have free := unused n member
    refine (agree n fun inTree => ?_).trans free
    obtain ⟨cell, found⟩ := stores.rep.allocated n inTree
    simp [free] at found

/-- The iteration reaches a first part of the chunks, all of them when the tree is walkable;
that part is dealt with as it should be. -/
theorem Holds.shrink_follows (holds : self.Holds blockSize mem t issued) (positive : 0 < blockSize)
    (small : blockSize ≤ 255) {room : Nat} {nodes : List Addr} {region node : Addr}
    (answers : self.Answers blockSize mem room nodes region node) :
    ∃ reached missed, t.mapped = reached ++ missed ∧ (missed = [] ↔ t.Walkable) ∧
      ∃ mem' self' t', self.shrink mem room (nodes.map some) (some region) (some node) = .ok (mem', self') ∧
        Shrunk blockSize mem mem' issued reached self' t' := by
  have maps := holds.maps
  obtain ⟨seen, missed, flat, run, _, complete⟩ := RangeMap.visited_follows maps.stores
  rw [← map_fst_entries, List.map_eq_append_iff] at flat
  obtain ⟨es, others, split, rfl, rfl⟩ := flat
  refine ⟨es.map fun e => e.2.2, others.map fun e => e.2.2, by simp [AvlTree.mapped, split], ?_, ?_⟩
  · rw [← complete]
    simp
  simp only [RangeMap.visited, RangeMap.begin_follows maps.stores, ok_bind] at run
  obtain ⟨mem₁, sweeps, sub, bytes, freed, kept⟩ := maps.swept holds.counts split run
  have swept := answers.sweeps (RangeMap.begin_follows maps.stores) (sweeps room)
  have placed := holds.placed.sub sub
  obtain ⟨cleared, clear, none, _, _⟩ := clear_follows maps.stores
  obtain ⟨freshRegion, enough⟩ := answers.fresh _ _ _ (RangeMap.begin_follows maps.stores) swept
  have unused := answers.unused cleared clear
  obtain ⟨chunks, t₁, _, noting, _, stores, _, ordered, present, mapped⟩ := maps.restored holds.placed positive split
    kept none (fun n member => unused n (List.mem_cons_of_mem _ member)) answers.distinct enough
  have reinserted : reinsert mem₁ cleared (occupied issued (es.map fun e => e.2.2)) (nodes.map some) = .ok chunks := by
    rw [reinsert_eq, noting]
    rfl
  have released : mem₁.freed.Perm (vacant issued (es.map fun e => e.2.2) ++ mem.freed) :=
    freed ▸ (List.reverse_perm _).append_right _
  simp only [shrink_eq, RangeMap.begin_follows maps.stores, swept, clear, reinserted, ok_bind]
  -- either no chunk is kept and a new one is made, or the kept ones are the map
  by_cases left : occupied issued (es.map fun e => e.2.2) = []
  · obtain rfl : cleared = chunks := by simpa [left, reinsert] using reinserted
    obtain rfl : t₁ = .nil := stores.unique none
    have bare : Holds blockSize mem₁ { self with chunks := cleared } .nil issued :=
      ⟨holds.size, placed, ⟨stores, .nil, by simp⟩, by simp [AvlTree.mapped]⟩
    obtain ⟨chunks', t', settled, only, sound⟩ :=
      bare.settle_nil positive small freshRegion (unused node List.mem_cons_self)
    refine ⟨_, _, t', settled, sound.maps, fun some => absurd left some, fun _ => ?_, by simp [left],
      fun r member c found p low high => sound.maps.find sound.placed member found low high, released, ?_⟩
    · exact ⟨region, _, only, AList.lookup_insert _, newChunk_owns positive small mem₁ region⟩
    · exact ⟨region, by simp [only], rfl, rfl⟩
  · have inhabited : t₁ ≠ .nil := by
      rintro rfl
      exact left mapped.symm
    have arenaMaps : Maps mem₁ { self with chunks } t₁ := ⟨stores, ordered, present⟩
    obtain ⟨first, member, settled⟩ := arenaMaps.settle_node inhabited (some region) (some node)
    refine ⟨_, _, t₁, settled, ⟨stores, ordered, present⟩, fun _ => mapped, fun none => absurd none left,
      fun r member => ⟨kept r member, fun _ _ _ => by rw [bytes]⟩,
      fun r member c found p low high => arenaMaps.find placed member found low high, released, ?_⟩
    exact ⟨first, member, rfl, rfl⟩

/-- If all chunks were dealt with, none was missed. -/
theorem Shrunk.none_missed (holds : self.Holds blockSize mem t issued) {reached missed : List Addr}
    (split : t.mapped = reached ++ missed) {t₁ t₂ : AvlTree Addr Addr}
    (part : Shrunk blockSize mem mem' issued reached self' t₁)
    (all : Shrunk blockSize mem mem' issued t.mapped self' t₂) : missed = [] := by
  obtain rfl : t₁ = t₂ := part.maps.stores.unique all.maps.stores
  have distinct : (reached ++ missed).Nodup := split ▸ holds.maps.mapped_nodup
  have nothingReleased : vacant issued missed = [] := by
    have same := (part.released.symm.trans all.released).length_eq
    rw [split, vacant, vacant, List.filter_append] at same
    simp only [List.length_append] at same
    exact List.eq_nil_of_length_eq_zero (by unfold vacant; omega)
  rw [List.eq_nil_iff_forall_not_mem]
  intro r member
  by_cases live : issued r = []
  -- an empty chunk that was missed would have been released
  · have : r ∈ vacant issued missed := List.mem_filter.mpr ⟨member, by simp [live]⟩
    simp [nothingReleased] at this
  -- a chunk in use is in the new map, so it was reached, and nothing that was reached was missed
  · have inMap : r ∈ t.mapped := split ▸ List.mem_append_right _ member
    have occupied : r ∈ occupied issued t.mapped := List.mem_filter.mpr ⟨inMap, by simpa using live⟩
    have kept := all.kept (List.ne_nil_of_mem occupied)
    by_cases left : Arena.occupied issued reached = []
    · obtain ⟨s, c, only, found, owns⟩ := part.fresh left
      obtain rfl : r = s := by simpa [← kept, only] using occupied
      rw [(all.untouched r occupied).1] at found
      obtain ⟨free, owns'⟩ := holds.owns r inMap c found
      exact live (owns'.empty_iff.mp (owns.empty_iff.mpr rfl))
    · rw [← kept, part.kept left] at occupied
      exact (List.nodup_append.mp distinct).2.2 r (List.mem_of_mem_filter occupied) r member rfl

/-- The outcome is right exactly on the arenas whose map has a walkable tree. -/
theorem shrink_meets_iff_walkable (holds : self.Holds blockSize mem t issued) (positive : 0 < blockSize)
    (small : blockSize ≤ 255) {room : Nat} {nodes : List Addr} {region node : Addr}
    (answers : self.Answers blockSize mem room nodes region node) :
    ShrinkMeets blockSize mem self t issued room nodes region node ↔ t.Walkable := by
  obtain ⟨reached, missed, split, complete, mem', self', t', run, part⟩ :=
    holds.shrink_follows positive small answers
  rw [← complete]
  constructor
  · rintro ⟨mem₁, self₁, t₁, run₁, all⟩
    obtain ⟨rfl, rfl⟩ : mem' = mem₁ ∧ self' = self₁ := by simpa [run] using run₁
    exact part.none_missed holds split all
  · rintro rfl
    rw [List.append_nil] at split
    exact ⟨mem', self', t', run, split ▸ part⟩

end Arena

/-! ## Arenas with full and with empty chunks -/

/-- A chunk in a region, all of whose blocks are live. -/
def Chunk.full (blockSize : Nat) (r : Addr) : Chunk :=
  { begin := r + sizeofChunk, end_ := r + regionSize blockSize, freeBlocks := 0, position := 255 }

theorem Chunk.full_owns (blockSize : Nat) (r : Addr) (bytes : Bytes) :
    (full blockSize r).Owns blockSize bytes (blocks (r + sizeofChunk) blockSize) [] :=
  ⟨by simp [full], trivial, rfl⟩

/-- A chunk in a region, all of whose blocks are free. -/
def Chunk.vacant (blockSize : Nat) (r : Addr) : Chunk :=
  { begin := r + sizeofChunk, end_ := r + regionSize blockSize, freeBlocks := 255, position := 0 }

theorem Chunk.vacant_owns {blockSize : Nat} {r : Addr} {bytes : Bytes}
    (linked : ∀ i < 254, bytes (r + sizeofChunk + i * blockSize) = UInt8.ofNat (i + 1)) :
    (vacant blockSize r).Owns blockSize bytes [] (List.range 255) := by
  refine ⟨.refl _, ?_, by simp [vacant]⟩
  rw [List.range_eq_range']
  refine Threaded.Threads.range 0 fun i _ inside => ?_
  have below : i < 254 := by omega
  have link := linked i below
  simp only [blockAt, vacant, link, UInt8.toNat_ofNat']
  omega

namespace Memory

/-- Memory that holds full chunks in these regions. -/
def filled (blockSize : Nat) (rs : List Addr) : Memory :=
  { bytes := fun _ => 0, chunks := rs.foldr (fun r h => h.insert r (Chunk.full blockSize r)) ∅, freed := [] }

variable {blockSize : Nat} {rs : List Addr}

theorem lookup_filled (r : Addr) :
    (filled blockSize rs).chunks.lookup r = if r ∈ rs then some (Chunk.full blockSize r) else none := by
  induction rs with
  | nil => simp [filled]
  | cons s rs ih =>
    by_cases same : r = s
    · subst same
      simp [filled]
    · simpa [filled, AList.lookup_insert_ne same, same] using ih

theorem placed_filled (inside : ∀ r ∈ rs, r + regionSize blockSize ≤ sizeRange)
    (apart : ∀ r ∈ rs, ∀ s ∈ rs, r ≠ s → r + regionSize blockSize ≤ s ∨ s + regionSize blockSize ≤ r) :
    (filled blockSize rs).Placed blockSize := by
  have member : ∀ r c, (filled blockSize rs).chunks.lookup r = some c → r ∈ rs ∧ c = Chunk.full blockSize r := by
    intro r c found
    rw [lookup_filled] at found
    split at found
    next member => exact ⟨member, by simpa using found.symm⟩
    next => simp at found
  refine ⟨fun r c found => ?_, fun r c s d found found' => ?_⟩
  · obtain ⟨member, rfl⟩ := member r c found
    exact ⟨rfl, rfl, inside r member⟩
  · exact apart r (member r c found).1 s (member s d found').1

end Memory

namespace Arena

/-- An arena over such memory is as good as any. What is in the blocks does not matter. -/
theorem holds_written {blockSize : Nat} {rs : List Addr} {self : Arena} {t : AvlTree Addr Addr} (bytes : Bytes)
    (size : self.blockSize = blockSize) (placed : (Memory.filled blockSize rs).Placed blockSize)
    (stores : self.chunks.Stores t) (ordered : Ordered t.entries)
    (ranges : ∀ e ∈ t.entries, e.2.2 ∈ rs ∧ e.2.1 = ⟨e.2.2 + sizeofChunk, e.2.2 + regionSize blockSize⟩) :
    self.Holds blockSize { Memory.filled blockSize rs with bytes } t
      (fun r => Chunk.blocks (r + sizeofChunk) blockSize) := by
  refine ⟨size, placed.bytes, ⟨stores, ordered, fun e member => ?_⟩, fun r member c found => ⟨[], ?_⟩⟩
  · obtain ⟨inside, range⟩ := ranges e member
    exact ⟨Chunk.full blockSize e.2.2, by simp [Memory.lookup_filled, inside], range⟩
  · obtain ⟨e, inTree, rfl⟩ := List.mem_map.mp member
    rw [Memory.lookup_filled, if_pos (ranges e inTree).1, Option.some.injEq] at found
    exact found ▸ Chunk.full_owns blockSize _ _

theorem holds_filled {blockSize : Nat} {rs : List Addr} {self : Arena} {t : AvlTree Addr Addr}
    (size : self.blockSize = blockSize) (placed : (Memory.filled blockSize rs).Placed blockSize)
    (stores : self.chunks.Stores t) (ordered : Ordered t.entries)
    (ranges : ∀ e ∈ t.entries, e.2.2 ∈ rs ∧ e.2.1 = ⟨e.2.2 + sizeofChunk, e.2.2 + regionSize blockSize⟩) :
    self.Holds blockSize (.filled blockSize rs) t (fun r => Chunk.blocks (r + sizeofChunk) blockSize) :=
  holds_written _ size placed stores ordered ranges

/-- A full chunk becomes an empty one, if the first bytes of its blocks name the next ones. -/
theorem Holds.vacate {self : Arena} {blockSize : Nat} {mem : Memory} {t : AvlTree Addr Addr}
    {issued : Addr → List Addr} {r : Addr} (holds : self.Holds blockSize mem t issued)
    (found : mem.chunks.lookup r = some (.full blockSize r))
    (linked : ∀ i < 254, mem.bytes (r + sizeofChunk + i * blockSize) = UInt8.ofNat (i + 1)) :
    self.Holds blockSize { mem with chunks := mem.chunks.insert r (.vacant blockSize r) } t
      (Function.update issued r []) :=
  holds.replace found (show (Chunk.vacant blockSize r).begin = _ from rfl) rfl (Chunk.vacant_owns linked)

/-- Bytes that link the blocks of 16 bytes in every region alike. -/
def linking : Bytes := fun a => UInt8.ofNat ((a - sizeofChunk) / 16 + 1)

theorem linking_links (k : Nat) {i : Nat} (inside : i < 254) :
    linking (8192 * k + sizeofChunk + i * 16) = UInt8.ofNat (i + 1) := by
  simp only [linking, sizeofChunk, ← UInt8.toNat_inj, UInt8.toNat_ofNat']
  omega

/-- Four chunks, of which the first and the third one in the order of the map are full. -/
def halfFull : Memory :=
  let full := Memory.filled 16 [8192, 16384, 24576, 32768]
  { full with
    bytes := linking, chunks := (full.chunks.insert 16384 (.vacant 16 16384)).insert 32768 (.vacant 16 32768) }

/-- The tree of these chunks when the iterations come to all of them. -/
def revealing : AvlTree Addr Addr :=
  .node 10 (.node 11 .nil ⟨0, ⟨8216, 12296⟩, 8192⟩ .nil) ⟨2, ⟨16408, 20488⟩, 16384⟩
    (.node 12 .nil ⟨1, ⟨24600, 28680⟩, 24576⟩ (.node 13 .nil ⟨0, ⟨32792, 36872⟩, 32768⟩ .nil))

theorem revealing_holds {chunks : RangeMap Addr Addr} (stores : chunks.Stores revealing) :
    Holds 16 halfFull ⟨16, chunks, some 8192, some 8192, true⟩ revealing
      (Function.update (Function.update (fun r => Chunk.blocks (r + sizeofChunk) 16) 16384 []) 32768 []) := by
  have ordered : Ordered revealing.entries := by
    simp [Ordered, revealing]
    decide
  have full : Holds 16 { Memory.filled 16 [8192, 16384, 24576, 32768] with bytes := linking }
      ⟨16, chunks, some 8192, some 8192, true⟩ revealing (fun r => Chunk.blocks (r + sizeofChunk) 16) :=
    holds_written linking rfl (Memory.placed_filled (by decide) (by decide)) stores ordered (by decide)
  exact (full.vacate (r := 16384) rfl fun i => linking_links 2).vacate (r := 32768) rfl fun i => linking_links 4

/-- Four chunks in a walkable tree, two of them empty; those are released, and the two that are in
use stay. -/
theorem shrink_meets_iff_walkable_mixed :
    ∃ (mem : Memory) (self : Arena) (t : AvlTree Addr Addr) (live : Addr → List Addr),
      RangeMap.insertAll .init [(10, ⟨16408, 20488⟩, 16384), (11, ⟨8216, 12296⟩, 8192),
        (12, ⟨24600, 28680⟩, 24576), (13, ⟨32792, 36872⟩, 32768)] = .ok self.chunks ∧
      self.Holds 16 mem t live ∧ occupied live t.mapped = [8192, 24576] ∧ vacant live t.mapped = [16384, 32768] ∧
      ShrinkMeets 16 mem self t live 4 [20, 21, 22, 23] 40960 24 := by
  have made : ∃ chunks : RangeMap Addr Addr, RangeMap.insertAll .init [(10, ⟨16408, 20488⟩, 16384),
      (11, ⟨8216, 12296⟩, 8192), (12, ⟨24600, 28680⟩, 24576), (13, ⟨32792, 36872⟩, 32768)] = .ok chunks ∧
      chunks.Stores revealing ∧ ∀ n ∈ [24, 20, 21, 22, 23], chunks.nodes.lookup n = none :=
    ⟨_, rfl, ⟨rfl, by simp [Represents, revealing]; decide, by decide⟩, by decide⟩
  obtain ⟨chunks, made, stores, unused⟩ := made
  have holds := revealing_holds stores
  have answers : Answers 16 halfFull ⟨16, chunks, some 8192, some 8192, true⟩ 4 [20, 21, 22, 23] 40960 24 :=
    holds.answers (by decide) unused (by decide) (by decide) (by decide)
  have walkable : revealing.Walkable := ⟨rfl, ⟨rfl, trivial, trivial⟩, rfl, trivial, rfl, trivial, trivial⟩
  exact ⟨halfFull, _, revealing, _, made, holds, by decide, by decide,
    (shrink_meets_iff_walkable holds (by decide) (by decide) answers).mpr walkable⟩

/-- Four full chunks, entered in the order that makes the tree miss one: its blocks are live,
and it is neither in the map afterwards nor released. -/
theorem shrink_drops_chunk :
    ∃ (self : Arena) (t : AvlTree Addr Addr),
      RangeMap.insertAll .init [(10, ⟨8216, 12296⟩, 8192), (13, ⟨32792, 36872⟩, 32768),
        (11, ⟨16408, 20488⟩, 16384), (12, ⟨24600, 28680⟩, 24576)] = .ok self.chunks ∧ self.chunks.Built ∧
      self.Holds 16 (.filled 16 [8192, 16384, 24576, 32768]) t (fun r => Chunk.blocks (r + sizeofChunk) 16) ∧
      self.Answers 16 (.filled 16 [8192, 16384, 24576, 32768]) 4 [20, 21, 22, 23] 40960 24 ∧
      ¬ ShrinkMeets 16 (.filled 16 [8192, 16384, 24576, 32768]) self t
        (fun r => Chunk.blocks (r + sizeofChunk) 16) 4 [20, 21, 22, 23] 40960 24 := by
  let tree : AvlTree Addr Addr := .node 13 (.node 10 .nil ⟨2, ⟨8216, 12296⟩, 8192⟩
    (.node 11 .nil ⟨1, ⟨16408, 20488⟩, 16384⟩ (.node 12 .nil ⟨0, ⟨24600, 28680⟩, 24576⟩ .nil)))
    ⟨3, ⟨32792, 36872⟩, 32768⟩ .nil
  refine ⟨⟨16, _, some 8192, some 8192, true⟩, tree, rfl, ?built, ?holds,
    Holds.answers ?holds (by decide) ?unused (by decide) (by decide) (by decide), ?misses⟩
  case built =>
    exact .insert 12 24600 28680 24576 (.insert 11 16408 20488 16384 (.insert 13 32792 36872 32768
      (.insert 10 8216 12296 8192 .init rfl rfl) rfl rfl) rfl rfl) rfl rfl
  case holds =>
    exact holds_filled rfl (Memory.placed_filled (by decide) (by decide))
      ⟨rfl, by simp [Represents, tree]; decide, by decide⟩ (by simp [Ordered]; decide) (by decide)
  case unused => decide
  -- the lookup of a pointer in the lost chunk fails
  case misses =>
    rintro ⟨mem', self', t', run, all⟩
    have lost : (Except.ok (mem', self') : Except Fault _).map (fun result => result.2.chunks.find 32792) =
        .ok (.ok none) := by
      rw [← run]
      rfl
    have kept : 32768 ∈ t'.mapped := by
      rw [all.kept (by decide)]
      decide
    have chunk : mem'.chunks.lookup 32768 = some (Chunk.full 16 32768) := by
      rw [(all.untouched 32768 (by decide)).1]
      rfl
    obtain ⟨a, cell, found, _⟩ := all.found 32768 kept _ chunk 32792 (by decide) (by decide)
    simp [Except.map, found] at lost

end Arena

end SmallObject
