import Mathlib.Data.List.ReduceOption
import SmallObject.Arena.Territory
import SmallObject.Arena.Supply

/-! Arenas that share a memory, each with chunks of its own.

A call of `malloc`, `free` or `shrink` of one arena keeps every chunk in its region, leaves the
chunks of the other arenas as they are, and gives back no chunk that has handed out a block.
-/

set_option autoImplicit false

namespace SmallObject

open Linked AvlTree

/-- What a call of one arena does not change. -/
structure Leaves (ar : Addr) (d d' : Deeds) (mem mem' : Memory) : Prop where
  others : ∀ r c, mem.chunks.lookup r = some c → (d r).owner ≠ ar → d' r = d r ∧ mem'.chunks.lookup r = some c
  used : ∀ r c, mem.chunks.lookup r = some c → (d r).issued ≠ [] →
    (d' r).size = (d r).size ∧ (d r).issued ⊆ (d' r).issued ∧ ∃ c', mem'.chunks.lookup r = some c'
  bytes : ∀ r c, mem.chunks.lookup r = some c → (d r).issued ≠ [] → ∀ a, r ≤ a → a < r + regionSize (d r).size →
    mem'.bytes a = mem.bytes a

/-- The block is one of a chunk, and none of the chunks had handed it out before. -/
structure HandsOut (d d' : Deeds) (mem mem' : Memory) (size : Nat) (p : Addr) : Prop where
  issued : ∃ r c, mem'.chunks.lookup r = some c ∧ (d' r).size = size ∧ p ∈ (d' r).issued
  before : ∀ r c, mem.chunks.lookup r = some c → p ∉ (d r).issued

def Memory.Has (mem : Memory) (r : Addr) : Prop := ∃ c, mem.chunks.lookup r = some c

/-- What becomes of the chunks that exist when an arena makes a call. Those that are not in its map
stay outside; what is there afterwards is in its map, if it was not lost. -/
structure Accounts (mem mem' : Memory) (rs rs' : List Addr) (lost : Addr → Prop) : Prop where
  apart : ∀ r, mem.Has r → r ∉ rs → mem'.Has r ∧ r ∉ rs'
  rest : ∀ r, mem'.Has r → r ∈ rs' ∨ lost r ∨ mem.Has r ∧ r ∉ rs
  lost : ∀ r, lost r → mem'.Has r ∧ r ∉ rs' ∧ (mem.Has r → r ∈ rs)

namespace Accounts

variable {mem mem' : Memory} {rs rs' : List Addr} {r : Addr} {lost lost' : Addr → Prop}

theorem stay (has : ∀ s, mem'.Has s ↔ mem.Has s) (none : ∀ s, ¬ lost s) : Accounts mem mem' rs rs lost := by
  refine ⟨fun s here away => ⟨(has s).mpr here, away⟩, fun s here => ?_, fun s gone => absurd gone (none s)⟩
  by_cases member : s ∈ rs
  · exact .inl member
  · exact .inr (.inr ⟨(has s).mp here, member⟩)

/-- A new chunk is entered. -/
theorem enter (absent : ¬ mem.Has r) (has : ∀ s, mem'.Has s ↔ s = r ∨ mem.Has s)
    (entered : ∀ s, s ∈ rs' ↔ s = r ∨ s ∈ rs) (none : ∀ s, ¬ lost s) : Accounts mem mem' rs rs' lost := by
  refine ⟨fun s here away => ⟨(has s).mpr (.inr here), ?_⟩, fun s here => ?_, fun s gone => absurd gone (none s)⟩
  · rw [entered, not_or]
    exact ⟨fun same => absent (same ▸ here), away⟩
  · rcases (has s).mp here with rfl | old
    · exact .inl ((entered s).mpr (.inl rfl))
    · by_cases member : s ∈ rs
      · exact .inl ((entered s).mpr (.inr member))
      · exact .inr (.inr ⟨old, member⟩)

/-- A new chunk is not entered. -/
theorem leak (absent : ¬ mem.Has r) (has : ∀ s, mem'.Has s ↔ s = r ∨ mem.Has s) (mapped : ∀ s ∈ rs, mem.Has s)
    (only : ∀ s, lost s ↔ s = r) : Accounts mem mem' rs rs lost := by
  refine ⟨fun s here away => ⟨(has s).mpr (.inr here), away⟩, fun s here => ?_, fun s gone => ?_⟩
  · rcases (has s).mp here with rfl | old
    · exact .inr (.inl ((only s).mpr rfl))
    · by_cases member : s ∈ rs
      · exact .inl member
      · exact .inr (.inr ⟨old, member⟩)
  · obtain rfl := (only s).mp gone
    exact ⟨(has s).mpr (.inl rfl), fun member => absent (mapped s member), fun here => absurd here absent⟩

/-- Another part of the call loses nothing more. -/
theorem trans {mem'' : Memory} {rs'' : List Addr} {none : Addr → Prop} (first : Accounts mem mem' rs rs' lost)
    (second : Accounts mem' mem'' rs' rs'' none) (nothing : ∀ s, ¬ none s) : Accounts mem mem'' rs rs'' lost := by
  refine ⟨fun s here away => ?_, fun s here => ?_, fun s gone => ?_⟩
  · obtain ⟨here', away'⟩ := first.apart s here away
    exact second.apart s here' away'
  · rcases second.rest s here with member | gone | ⟨here', away'⟩
    · exact .inl member
    · exact absurd gone (nothing s)
    · exact .inr ((first.rest s here').resolve_left away')
  · obtain ⟨here', away', old⟩ := first.lost s gone
    exact ⟨(second.apart s here' away').1, (second.apart s here' away').2, old⟩

end Accounts

theorem Memory.has_insert (mem : Memory) (r : Addr) (c : Chunk) (bytes : Bytes) (s : Addr) :
    Memory.Has { mem with bytes, chunks := mem.chunks.insert r c } s ↔ s = r ∨ mem.Has s := by
  by_cases same : s = r
  · subst same
    simp [Memory.Has]
  · simp [Memory.Has, AList.lookup_insert_ne same, same]

theorem Memory.Clear.absent {mem : Memory} {d : Deeds} {blockSize : Nat} {r : Addr} (clear : mem.Clear blockSize r)
    (divided : mem.Divided d) : ¬ mem.Has r := by
  rintro ⟨c, found⟩
  simp [clear.unused divided] at found

namespace Leaves

variable {ar r p : Addr} {d d' d'' : Deeds} {mem mem' mem'' : Memory} {c c' : Chunk} {deed : Deed}
  {blockSize : Nat}

theorem refl (ar : Addr) (d : Deeds) (mem : Memory) : Leaves ar d d mem mem :=
  ⟨fun _ _ found _ => ⟨rfl, found⟩, fun _ c found _ => ⟨rfl, List.Subset.refl _, c, found⟩, fun _ _ _ _ _ _ _ => rfl⟩

theorem trans (first : Leaves ar d d' mem mem') (second : Leaves ar d' d'' mem' mem'') :
    Leaves ar d d'' mem mem'' := by
  have inUse' : ∀ r, (d r).issued ≠ [] → (d r).issued ⊆ (d' r).issued → (d' r).issued ≠ [] :=
    fun r inUse more none => inUse (List.subset_nil.mp (none ▸ more))
  refine ⟨fun r c found other => ?_, fun r c found inUse => ?_, fun r c found inUse a low high => ?_⟩
  · obtain ⟨same, found'⟩ := first.others r c found other
    obtain ⟨same', found''⟩ := second.others r c found' (same ▸ other)
    exact ⟨same'.trans same, found''⟩
  · obtain ⟨size, more, c', found'⟩ := first.used r c found inUse
    obtain ⟨size', more', kept⟩ := second.used r c' found' (inUse' r inUse more)
    exact ⟨size'.trans size, List.Subset.trans more more', kept⟩
  · obtain ⟨size, more, c', found'⟩ := first.used r c found inUse
    rw [second.bytes r c' found' (inUse' r inUse more) a low (size ▸ high), first.bytes r c found inUse a low high]

/-- A chunk of the arena hands out a block. -/
theorem issue (own : (d r).owner = ar) :
    Leaves ar d (Function.update d r { d r with issued := p :: (d r).issued }) mem
      { mem with chunks := mem.chunks.insert r c' } := by
  refine ⟨fun s e found other => ?_, fun s e found _ => ?_, fun _ _ _ _ _ _ _ => rfl⟩
  · have elsewhere : s ≠ r := fun here => other (here ▸ own)
    exact ⟨Function.update_of_ne elsewhere .., by rwa [AList.lookup_insert_ne elsewhere]⟩
  · by_cases here : s = r
    · subst here
      exact ⟨by simp, by simp, c', AList.lookup_insert _⟩
    · exact ⟨by simp [here], by simp [here], e, by rwa [AList.lookup_insert_ne here]⟩

/-- A chunk is made in a clear region. -/
theorem create (divided : mem.Divided d) (positive : 0 < blockSize) (small : blockSize ≤ 255)
    (clear : mem.Clear blockSize r) : Leaves ar d (Function.update d r deed) mem { mem with
      bytes := (Arena.newChunk blockSize mem r).2
      chunks := mem.chunks.insert r c } := by
  have elsewhere : ∀ s e, mem.chunks.lookup s = some e → s ≠ r := by
    rintro s e found rfl
    simp [clear.unused divided] at found
  refine ⟨fun s e found _ => ?_, fun s e found _ => ?_, fun s e found _ a low high => ?_⟩
  · have := elsewhere s e found
    exact ⟨Function.update_of_ne this .., by rwa [AList.lookup_insert_ne this]⟩
  · have := elsewhere s e found
    exact ⟨by simp [this], by simp [this], e, by rwa [AList.lookup_insert_ne this]⟩
  · refine Arena.newChunk_bytes positive small ?_
    have := clear.2 s e found
    have end_ := (divided.chunk s e found).end_
    lia

/-- Chunks of the arena are gone that have no block in use. -/
theorem release (gone : ∀ r c, mem.chunks.lookup r = some c →
      mem'.chunks.lookup r = some c ∨ (d r).owner = ar ∧ (d r).issued = []) (bytes : mem'.bytes = mem.bytes) :
    Leaves ar d d mem mem' := by
  refine ⟨fun r c found other => ⟨rfl, ?_⟩, fun r c found inUse => ⟨rfl, List.Subset.refl _, c, ?_⟩,
    fun _ _ _ _ _ _ _ => by rw [bytes]⟩
  · exact (gone r c found).resolve_right fun own => other own.1
  · exact (gone r c found).resolve_right fun own => inUse own.2

end Leaves

/-- An insertion takes no node but its own. -/
theorem RangeMap.insert_unused {K V : Type} [LinearOrder K] {narrow : Narrowing} {m m' : RangeMap K V}
    {t : AvlTree K V} {n a : Addr} {min max : K} {val : V} {inserted : Bool} (stores : m.Stores t)
    (fresh : m.nodes.lookup n = none) (run : m.insert narrow (some n) min max val = .ok (m', inserted))
    (other : a ≠ n) (free : m.nodes.lookup a = none) : m'.nodes.lookup a = none := by
  have follows := insertNode_follows narrow ⟨min, max⟩ val stores fresh
  have outside : a ∉ n :: t.addrs := by
    rintro (_ | ⟨_, inTree⟩)
    · exact other rfl
    · obtain ⟨cell, stored⟩ := stores.rep.allocated a inTree
      simp [free] at stored
  split at follows
  · simp [RangeMap.insert, follows] at run
  · obtain ⟨m₁, done, _, agree, _⟩ := follows
    obtain ⟨rfl, _⟩ : m₁ = m' ∧ _ := by simpa [RangeMap.insert, done] using run
    exact (agree a outside).trans free

namespace Arena

/-- The chunks of the map are the arena's own, of its block size, and the two cached pointers
name some of them. -/
structure Possesses (d : Deeds) (mem : Memory) (ar : Addr) (arena : Arena) (t : AvlTree Addr Addr) : Prop where
  maps : arena.Maps mem t
  own : ∀ r ∈ t.mapped, (d r).owner = ar ∧ (d r).size = arena.blockSize
  alloc : ∃ r ∈ t.mapped, arena.allocCurrent = some r
  free : ∃ r ∈ t.mapped, arena.freeCurrent = some r

/-- How a call of an arena leaves the memory and the arena. -/
structure Proceeds (ar : Addr) (d d' : Deeds) (mem mem' : Memory) (arena' : Arena) : Prop where
  divided : mem'.Divided d'
  possesses : ∃ t, arena'.Possesses d' mem' ar t
  leaves : Leaves ar d d' mem mem'

variable {ar ar' r p : Addr} {d d' : Deeds} {mem mem' : Memory} {self self' other : Arena}
  {t t' : AvlTree Addr Addr} {c : Chunk} {region node result : Ptr} {reply : Reply} {blockSize : Nat}

/-- The chunks of the map are as they were. -/
theorem Possesses.kept (possesses : self.Possesses d mem ar t)
    (kept : ∀ r ∈ t.mapped, ∀ c, mem.chunks.lookup r = some c → d' r = d r ∧ mem'.chunks.lookup r = some c) :
    self.Possesses d' mem' ar t := by
  have maps := possesses.maps
  refine ⟨⟨maps.stores, maps.ordered, fun e member => ?_⟩, fun r member => ?_, possesses.alloc, possesses.free⟩
  · obtain ⟨c, found, range⟩ := maps.chunk e member
    exact ⟨c, (kept e.2.2 (List.mem_map_of_mem member) c found).2, range⟩
  · obtain ⟨c, found⟩ := maps.mapped_chunk member
    rw [(kept r member c found).1]
    exact possesses.own r member

/-- A call of another arena changes nothing. -/
theorem Possesses.beside (possesses : self.Possesses d mem ar' t) (leaves : Leaves ar d d' mem mem')
    (different : ar' ≠ ar) : self.Possesses d' mem' ar' t :=
  possesses.kept fun r member c found => leaves.others r c found ((possesses.own r member).1 ▸ different)

/-- A chunk that is made and not entered changes nothing either. -/
theorem Possesses.leak (possesses : self.Possesses d mem ar t) (unused : mem.chunks.lookup r = none) {deed : Deed}
    {bytes : Bytes} :
    Possesses (Function.update d r deed) { mem with bytes, chunks := mem.chunks.insert r c } ar self t := by
  refine possesses.kept fun s _ e found => ?_
  have elsewhere : s ≠ r := by
    rintro rfl
    simp [unused] at found
  exact ⟨Function.update_of_ne elsewhere .., by rwa [AList.lookup_insert_ne elsewhere]⟩

/-- The flag is no matter. -/
theorem Possesses.flag (possesses : self.Possesses d mem ar t) (reserved : Bool) :
    Possesses d mem ar { self with reserved } t :=
  ⟨⟨possesses.maps.stores, possesses.maps.ordered, possesses.maps.chunk⟩, possesses.own, possesses.alloc,
    possesses.free⟩

theorem Possesses.bytes (possesses : self.Possesses d mem ar t) {bytes : Bytes} :
    self.Possesses d { mem with bytes } ar t :=
  ⟨⟨possesses.maps.stores, possesses.maps.ordered, possesses.maps.chunk⟩, possesses.own, possesses.alloc,
    possesses.free⟩

theorem Possesses.bounds (possesses : self.Possesses d mem ar t) (divided : mem.Divided d) :
    0 < self.blockSize ∧ self.blockSize ≤ 255 := by
  obtain ⟨r, member, _⟩ := possesses.alloc
  obtain ⟨c, found⟩ := possesses.maps.mapped_chunk member
  have describes := divided.chunk r c found
  rw [← (possesses.own r member).2]
  exact ⟨describes.positive, describes.small⟩

/-! ## Blocks of chunks that exist -/

/-- A chunk of the map is tried. -/
theorem Possesses.tries (possesses : self.Possesses d mem ar t) (divided : mem.Divided d) (member : r ∈ t.mapped)
    (run : self.tryToAlloc mem (some r) = .ok (result, mem', self')) :
    (result = none ∧ mem' = mem ∧ self' = self) ∨ ∃ p d', result = some p ∧
      Proceeds ar d d' mem mem' self' ∧ HandsOut d d' mem mem' self.blockSize p ∧
      self'.chunks = self.chunks ∧ ∀ s, mem'.Has s ↔ mem.Has s := by
  obtain ⟨c, found⟩ := possesses.maps.mapped_chunk member
  obtain ⟨own, size⟩ := possesses.own r member
  simp only [tryToAlloc, deref_of_lookup found, ok_bind, nonNull_some] at run
  split at run
  · simp only [Except.ok.injEq, Prod.mk.injEq] at run
    obtain ⟨rfl, rfl, rfl⟩ := run
    exact .inl ⟨rfl, rfl, rfl⟩
  next p c' taken =>
    simp only [Except.ok.injEq, Prod.mk.injEq] at run
    obtain ⟨rfl, rfl, rfl⟩ := run
    obtain ⟨begin, end_⟩ := Chunk.allocate_range taken
    obtain ⟨divided', before⟩ := divided.issue found (size ▸ taken)
    have same : self.Maps { mem with chunks := mem.chunks.insert r c' } t := possesses.maps.update found begin end_
    refine .inr ⟨p, _, rfl, ⟨divided', ⟨t, ⟨same.stores, same.ordered, same.chunk⟩, fun s inMap => ?_,
      ⟨r, member, rfl⟩, possesses.free⟩, .issue own⟩, ⟨⟨r, c', AList.lookup_insert _, ?_, ?_⟩, before⟩, rfl,
      fun s => ?_⟩
    · by_cases here : s = r
      · subst here
        simpa using possesses.own s member
      · rw [Function.update_of_ne here]
        exact possesses.own s inMap
    · rw [Function.update_self, ← size]
    · rw [Function.update_self]
      exact List.mem_cons_self
    · rw [mem.has_insert r c' mem.bytes s, or_iff_right_of_imp]
      rintro rfl
      exact ⟨c, found⟩

/-! ## New chunks -/

/-- The range of a chunk in a clear region compares with the ranges of the map. -/
theorem Maps.compares_clear (maps : self.Maps mem t) (divided : mem.Divided d) (clear : mem.Clear blockSize r)
    (begin : c.begin = r + sizeofChunk) (end_ : c.end_ = r + regionSize blockSize) :
    ∀ e ∈ t.entries, Comparable ⟨c.begin, c.end_⟩ e.2.1 := by
  intro e member
  obtain ⟨c', found, range⟩ := maps.chunk e member
  have describes := divided.chunk e.2.2 c' found
  have begin' := describes.begin
  have end_' := describes.end_
  have := clear.2 e.2.2 c' found
  unfold Comparable Range.Before
  rw [range]
  unfold regionSize sizeofChunk at *
  lia

/-- An insertion into the map enters the chunk or nothing, and takes no node but its own. -/
theorem Maps.insert (maps : self.Maps mem t) (found : mem.chunks.lookup r = some c)
    (unused : ∀ n, node = some n → self.chunks.nodes.lookup n = none) {chunks : RangeMap Addr Addr} {inserted : Bool}
    (run : self.chunks.insert wrapInt8 node c.begin c.end_ r = .ok (chunks, inserted)) :
    ∃ t', Maps mem { self with chunks } t' ∧ (∀ s ∈ t'.mapped, s = r ∨ s ∈ t.mapped) ∧ t.mapped ⊆ t'.mapped ∧
      (r ∈ t'.mapped ∨ ∃ e ∈ t.entries, ¬ Comparable ⟨c.begin, c.end_⟩ e.2.1) ∧
      ∀ n, node ≠ some n → self.chunks.nodes.lookup n = none → chunks.nodes.lookup n = none := by
  cases node with
  | none =>
    rcases insert_without_memory wrapInt8 c.begin c.end_ r maps.stores with failed | ⟨rejected, apart⟩
    · simp [failed] at run
    · obtain ⟨rfl, _⟩ : self.chunks = chunks ∧ false = inserted := by simpa [rejected] using run
      exact ⟨t, maps, fun s => .inr, List.Subset.refl _, .inr apart, fun n _ => id⟩
  | some n =>
    have unused := unused n rfl
    obtain ⟨t', stores, ordered, outcome⟩ := insert_stores maps.stores maps.ordered unused run
    refine ⟨t', ⟨stores, ordered, fun e member => ?_⟩, fun s member => ?_, ?_, ?_, fun m other free => ?_⟩
    · rcases outcome with ⟨_, pre, post, split, gained⟩ | ⟨_, _, rfl, _⟩
      · rcases (by simpa [gained, split] using member : e ∈ pre ∨ e = _ ∨ e ∈ post) with old | rfl | old
        · exact maps.chunk e (by simp [split, old])
        · exact ⟨c, found, rfl⟩
        · exact maps.chunk e (by simp [split, old])
      · exact maps.chunk e member
    · rcases outcome with ⟨_, pre, post, split, gained⟩ | ⟨_, _, rfl, _⟩
      · simp only [AvlTree.mapped, gained, split, List.map_append, List.map_cons, List.mem_append, List.mem_cons]
          at member ⊢
        tauto
      · exact .inr member
    · rcases outcome with ⟨_, pre, post, split, gained⟩ | ⟨_, _, rfl, _⟩
      · simp only [AvlTree.mapped, gained, split, List.map_append, List.map_cons]
        exact List.append_subset.mpr ⟨List.subset_append_left .., List.subset_append_of_subset_right _
          (List.subset_cons_self ..)⟩
      · exact List.Subset.refl _
    · rcases outcome with ⟨_, pre, post, split, gained⟩ | ⟨_, _, _, apart⟩
      · exact .inl (by simp [AvlTree.mapped, gained])
      · exact .inr apart
    · exact RangeMap.insert_unused maps.stores unused run (fun same => other (congrArg some same.symm)) free

/-- A new chunk is entered in the map of the arena that made it. -/
theorem Maps.enter_clear (maps : self.Maps mem t) (divided : mem.Divided d) (clear : mem.Clear blockSize r)
    (own : ∀ s ∈ t.mapped, (d s).owner = ar ∧ (d s).size = self.blockSize) {deed : Deed} (owner : deed.owner = ar)
    (size : deed.size = self.blockSize) (unused : ∀ n, node = some n → self.chunks.nodes.lookup n = none)
    (begin : c.begin = r + sizeofChunk) (end_ : c.end_ = r + regionSize blockSize) {bytes : Bytes}
    {chunks : RangeMap Addr Addr} {inserted : Bool}
    (run : self.chunks.insert wrapInt8 node c.begin c.end_ r = .ok (chunks, inserted)) :
    ∃ t', Possesses (Function.update d r deed) { mem with bytes, chunks := mem.chunks.insert r c } ar
        { self with chunks, allocCurrent := some r, freeCurrent := some r } t' ∧
      ∀ s, s ∈ t'.mapped ↔ s = r ∨ s ∈ t.mapped := by
  have elsewhere : ∀ s ∈ t.mapped, s ≠ r := by
    rintro s member rfl
    obtain ⟨c', found⟩ := maps.mapped_chunk member
    simp [clear.unused divided] at found
  have beside : Maps { mem with bytes, chunks := mem.chunks.insert r c } self t := by
    refine ⟨maps.stores, maps.ordered, fun e member => ?_⟩
    obtain ⟨c', found, range⟩ := maps.chunk e member
    exact ⟨c', by rwa [AList.lookup_insert_ne (elsewhere _ (List.mem_map_of_mem member))], range⟩
  obtain ⟨t', maps', old, kept, entered, _⟩ := beside.insert (AList.lookup_insert _) unused run
  have isNew : r ∈ t'.mapped := entered.resolve_right fun ⟨e, member, apart⟩ =>
    apart (maps.compares_clear divided clear begin end_ e member)
  refine ⟨t', ⟨⟨maps'.stores, maps'.ordered, maps'.chunk⟩, fun s member => ?_, ⟨r, isNew, rfl⟩, ⟨r, isNew, rfl⟩⟩,
    fun s => ⟨old s, ?_⟩⟩
  · rcases old s member with rfl | inMap
    · simp [owner, size]
    · rw [Function.update_of_ne (elsewhere s inMap)]
      exact own s inMap
  · rintro (rfl | inMap)
    · exact isNew
    · exact kept inMap

theorem Possesses.grow (possesses : self.Possesses d mem ar t) (divided : mem.Divided d)
    (clear : ∀ r, region = some r → mem.Clear self.blockSize r)
    (unused : ∀ n, node = some n → self.chunks.nodes.lookup n = none)
    (run : self.grow mem region node = .ok (reply, mem', self')) :
    ∃ d', Proceeds ar d d' mem mem' self' ∧
      (∀ p, reply = .returned (some p) → HandsOut d d' mem mem' self.blockSize p) ∧
      ∀ t', self'.chunks.Stores t' →
        Accounts mem mem' t.mapped t'.mapped fun r => reply = .threw ∧ region = some r := by
  obtain ⟨positive, small⟩ := possesses.bounds divided
  cases region with
  | none => simp [Arena.grow, createNewChunk] at run
  | some r =>
    have clear := clear r rfl
    have absent := clear.unused divided
    have made := divided.create positive small clear ar
    obtain ⟨begin, end_⟩ := newChunk_shape small mem r
    obtain ⟨c, taken, begin', end_', _⟩ := (newChunk_owns positive small mem r).allocate_cons
    rw [begin] at begin'
    rw [end_] at end_'
    simp only [Arena.grow, createNewChunk_eq, ok_bind, deref_of_lookup (AList.lookup_insert _), taken,
      AList.insert_insert] at run
    -- the first block is handed out before the chunk is entered
    obtain ⟨divided', before⟩ := made.issue (AList.lookup_insert _) (by simpa using taken)
    simp only [AList.insert_insert, Function.update_self, Function.update_idem] at divided'
    have leaves (deed : Deed) : Leaves ar d (Function.update d r deed) mem { mem with
        bytes := (newChunk self.blockSize mem r).2
        chunks := mem.chunks.insert r c } := .create divided positive small clear
    split at run
    · simp only [Except.ok.injEq, Prod.mk.injEq] at run
      obtain ⟨rfl, rfl, rfl⟩ := run
      refine ⟨_, ⟨divided', ⟨t, possesses.leak absent⟩, leaves _⟩, by simp, fun t' stores => ?_⟩
      obtain rfl := stores.unique possesses.maps.stores
      exact .leak (clear.absent divided) (mem.has_insert r c _) (fun s => possesses.maps.mapped_chunk)
        (by simp [eq_comm])
    · simp at run
    next chunks inserted entered =>
      simp only [Except.ok.injEq, Prod.mk.injEq] at run
      obtain ⟨rfl, rfl, rfl⟩ := run
      obtain ⟨t₁, possesses₁, mapped⟩ := possesses.maps.enter_clear divided clear possesses.own
        (rfl : (Deed.mk ar self.blockSize [(newChunk self.blockSize mem r).1.blockAt self.blockSize 0]).owner = ar) rfl
        unused begin' end_' entered
      refine ⟨_, ⟨divided', ⟨t₁, possesses₁⟩, leaves _⟩, fun p same => ?_, fun t' stores => ?_⟩
      swap
      · obtain rfl := stores.unique possesses₁.maps.stores
        exact .enter (clear.absent divided) (mem.has_insert r c _) mapped (by simp)
      obtain rfl := Option.some.inj (Reply.returned.inj same)
      refine ⟨⟨r, c, AList.lookup_insert _, by simp, by simp⟩, fun s e found used => ?_⟩
      have elsewhere : s ≠ r := by
        rintro rfl
        simp [absent] at found
      exact before s e (by rwa [AList.lookup_insert_ne elsewhere]) (by rwa [Function.update_of_ne elsewhere])

/-! ## Whole calls -/

/-- `malloc` hands out a block that no chunk had handed out. -/
theorem Possesses.malloc (possesses : self.Possesses d mem ar t) (divided : mem.Divided d)
    (clear : ∀ r, region = some r → mem.Clear self.blockSize r)
    (unused : ∀ n, node = some n → self.chunks.nodes.lookup n = none)
    (run : self.malloc mem region node = .ok (reply, mem', self')) :
    ∃ d', Proceeds ar d d' mem mem' self' ∧
      (∀ p, reply = .returned (some p) → HandsOut d d' mem mem' self.blockSize p) ∧
      ∀ t', self'.chunks.Stores t' →
        Accounts mem mem' t.mapped t'.mapped fun r => reply = .threw ∧ region = some r := by
  have reuses : ∀ {p d'}, reply = .returned (some p) → Proceeds ar d d' mem mem' self' →
      HandsOut d d' mem mem' self.blockSize p → self'.chunks = self.chunks → (∀ s, mem'.Has s ↔ mem.Has s) →
      ∃ d', Proceeds ar d d' mem mem' self' ∧
        (∀ p, reply = .returned (some p) → HandsOut d d' mem mem' self.blockSize p) ∧
        ∀ t', self'.chunks.Stores t' →
          Accounts mem mem' t.mapped t'.mapped fun r => reply = .threw ∧ region = some r := by
    intro p d' answer proceeds handsOut same has
    refine ⟨d', proceeds, fun q returned => ?_, fun t' stores => ?_⟩
    · obtain rfl := Option.some.inj (Reply.returned.inj (answer.symm.trans returned))
      exact handsOut
    · obtain rfl := (same ▸ stores).unique possesses.maps.stores
      exact .stay has (by simp [answer])
  obtain ⟨current, member, cached⟩ := possesses.alloc
  simp only [Arena.malloc, cached] at run
  obtain ⟨⟨result, mem₁, self₁⟩, tried, rest⟩ := bind_eq_ok run
  rcases possesses.tries divided member tried with ⟨rfl, rfl, rfl⟩ | ⟨p, d', rfl, proceeds, handsOut, same, has⟩
  · simp only [RangeMap.begin_follows possesses.maps.stores, ok_bind] at rest
    obtain ⟨⟨result, mem₂, self₂⟩, searched, last⟩ := bind_eq_ok rest
    obtain ⟨es, inTree, _, ⟨nowhere, _⟩ | ⟨e, inside, _, same⟩⟩ := possesses.maps.search_reaches
    · obtain ⟨rfl, rfl, rfl⟩ : none = result ∧ mem₁ = mem₂ ∧ self₁ = self₂ := by simpa [nowhere] using searched
      exact possesses.grow divided clear unused last
    -- the loop ends with an attempt on one of the chunks
    · rw [same] at searched
      rcases possesses.tries divided (List.mem_map_of_mem (inTree inside)) searched with
        ⟨rfl, rfl, rfl⟩ | ⟨p, d', rfl, proceeds, handsOut, same, has⟩
      · exact possesses.grow divided clear unused last
      · simp only [Except.ok.injEq, Prod.mk.injEq] at last
        obtain ⟨rfl, rfl, rfl⟩ := last
        exact reuses rfl proceeds handsOut same has
  · simp only [Except.ok.injEq, Prod.mk.injEq] at rest
    obtain ⟨rfl, rfl, rfl⟩ := rest
    exact reuses rfl proceeds handsOut same has

/-- `free` of a pointer in the range of the cached chunk changes nothing. -/
theorem Possesses.free_cached (possesses : self.Possesses d mem ar t) (cached : self.freeCurrent = some r)
    (found : mem.chunks.lookup r = some c) (low : c.begin ≤ p) (high : p ≤ c.end_) :
    self.free mem p = .ok (true, mem, self) := by
  have maps := possesses.maps
  have member : r ∈ t.mapped := by
    obtain ⟨s, inMap, same⟩ := possesses.free
    obtain rfl : s = r := Option.some.inj (same.symm.trans cached)
    exact inMap
  have enough : t.size ≤ rounds self.chunks.nodes := (size_lt_rounds maps.stores.rep maps.stores.nodup).le
  -- what the map finds has the pointer in its range too, and refuses it again
  rcases findFrom_follows p maps.stores.rep maps.ordered enough with ⟨e, inside, looked, holds⟩ | ⟨_, nowhere⟩
  · obtain ⟨c', found', range⟩ := maps.chunk e inside
    obtain ⟨source, inTree, rfl⟩ := List.mem_map.mp inside
    obtain ⟨cell, stored, load⟩ := maps.stores.rep.stored source inTree
    rw [range] at holds
    have finds : self.chunks.find p = .ok (some source.1) := by
      rw [RangeMap.find, RangeMap.findNode, maps.stores.root]
      exact looked
    have mapped : cell.load.mapped = source.2.mapped := by rw [load]
    simp [Arena.free, cached, tryToFree_inside found low high, lookupChunkAndFree, finds, deref_of_lookup stored,
      mapped, tryToFree_inside found' holds.1 holds.2]
  · obtain ⟨e, inside, rfl⟩ := List.mem_map.mp member
    obtain ⟨c', found', range⟩ := maps.chunk e inside
    obtain rfl : c = c' := Option.some.inj (found.symm.trans found')
    exact absurd (by rw [range]; exact ⟨low, high⟩) (nowhere e inside)

/-- The constructor makes a chunk for the arena. -/
theorem init_proceeds (ar : Addr) (divided : mem.Divided d) (positive : 0 < blockSize) (small : blockSize ≤ 255)
    (clear : ∀ r, region = some r → mem.Clear blockSize r)
    (run : Arena.init mem blockSize region node = .ok (mem', self)) :
    ∃ d', Proceeds ar d d' mem mem' self ∧
      ∀ t', self.chunks.Stores t' → Accounts mem mem' [] t'.mapped fun _ => False := by
  cases region with
  | none => simp [Arena.init, createNewChunk] at run
  | some r =>
    have clear := clear r rfl
    obtain ⟨begin, end_⟩ := newChunk_shape small mem r
    simp only [Arena.init, createNewChunk_eq, ok_bind, deref_of_lookup (AList.lookup_insert _)] at run
    obtain ⟨⟨chunks, inserted⟩, entered, rest⟩ := bind_eq_ok run
    simp only [Except.ok.injEq, Prod.mk.injEq] at rest
    obtain ⟨rfl, rfl⟩ := rest
    have bare : Maps mem ⟨blockSize, RangeMap.init, some r, some r, true⟩ .nil :=
      ⟨RangeMap.stores_init, .nil, by simp⟩
    obtain ⟨t, possesses, mapped⟩ := bare.enter_clear divided clear (by simp [AvlTree.mapped])
      (rfl : (Deed.mk ar blockSize []).owner = ar) rfl (fun _ _ => rfl) begin end_ entered
    refine ⟨_, ⟨divided.create positive small clear ar, ⟨t, possesses⟩, .create divided positive small clear⟩,
      fun t' stores => ?_⟩
    obtain rfl := stores.unique possesses.maps.stores
    exact .enter (clear.absent divided) (mem.has_insert r _ _) mapped (by simp)

/-- When the constructor throws, a chunk is left over. -/
theorem createNewChunk_divided (ar : Addr) (divided : mem.Divided d) (positive : 0 < blockSize)
    (small : blockSize ≤ 255) (clear : ∀ r, region = some r → mem.Clear blockSize r)
    (run : createNewChunk mem blockSize region = .ok (mem', r)) :
    ∃ d', mem'.Divided d' ∧ Leaves ar d d' mem mem' ∧ region = some r ∧ ¬ mem.Has r ∧
      ∀ s, mem'.Has s ↔ s = r ∨ mem.Has s := by
  cases region with
  | none => simp [createNewChunk] at run
  | some r₀ =>
    rw [createNewChunk_eq] at run
    simp only [Except.ok.injEq, Prod.mk.injEq] at run
    obtain ⟨rfl, rfl⟩ := run
    exact ⟨_, divided.create positive small (clear r₀ rfl) ar, .create divided positive small (clear r₀ rfl), rfl,
      (clear r₀ rfl).absent divided, mem.has_insert r₀ _ _⟩

/-! ## `shrink` -/

/-- The chunks that an iteration over the map comes to. -/
def reached (self : Arena) : List Addr :=
  match self.chunks.visited with
  | .ok seen => seen.filterMap fun a => (self.chunks.nodes.lookup a).map fun n => n.load.mapped
  | .error _ => []

/-- What an iteration comes to is a first part of the map, and all of it if the tree is walkable. -/
theorem Maps.reached (maps : self.Maps mem t) :
    ∃ es others, t.entries = es ++ others ∧ self.chunks.visited = .ok (es.map Prod.fst) ∧
      self.reached = es.map (fun e => e.2.2) ∧ (others = [] ↔ t.Walkable) := by
  obtain ⟨seen, missed, flat, run, _, complete⟩ := RangeMap.visited_follows maps.stores
  rw [← map_fst_entries, List.map_eq_append_iff] at flat
  obtain ⟨es, others, split, rfl, rfl⟩ := flat
  refine ⟨es, others, split, run, ?_, by simpa using complete⟩
  have stored : ∀ e ∈ es, (self.chunks.nodes.lookup e.1).map (fun n => n.load.mapped) = some e.2.2 := by
    intro e member
    obtain ⟨source, inside, rfl⟩ := List.mem_map.mp (split ▸ List.mem_append_left others member)
    obtain ⟨cell, found, load⟩ := maps.stores.rep.stored source inside
    simp [found, load]
  simp only [Arena.reached, run, List.filterMap_map]
  exact List.filterMap_eq_map_iff_forall_eq_some.mpr stored

theorem Maps.reached_subset (maps : self.Maps mem t) : self.reached ⊆ t.mapped := by
  obtain ⟨es, others, split, _, reached, _⟩ := maps.reached
  rw [reached, AvlTree.mapped, split, List.map_append]
  exact List.subset_append_left ..

theorem Maps.reached_all (maps : self.Maps mem t) : t.mapped ⊆ self.reached ↔ t.Walkable := by
  obtain ⟨es, others, split, _, reached, complete⟩ := maps.reached
  have distinct := maps.mapped_nodup
  rw [reached, ← complete]
  rw [AvlTree.mapped, split, List.map_append] at distinct ⊢
  refine ⟨fun all => ?_, fun none => by simp [none]⟩
  rw [List.eq_nil_iff_forall_not_mem]
  intro e member
  have later : e.2.2 ∈ others.map fun e => e.2.2 := List.mem_map_of_mem member
  exact (List.nodup_append.mp distinct).2.2 _ (all (List.mem_append_right _ later)) _ later rfl

/-- The iteration goes to nodes that exist, for chunks that exist, each once. -/
theorem Maps.iterates (maps : self.Maps mem t) :
    ∃ es : List (Entry Addr Addr), self.chunks.visitFrom (rounds self.chunks.nodes) t.addrs.head? =
        .ok (es.map Prod.fst) ∧ self.reached = es.map (fun e => e.2.2) ∧
      (∀ e ∈ es, ∃ cell, self.chunks.nodes.lookup e.1 = some cell ∧ cell.load.mapped = e.2.2) ∧
      (∀ e ∈ es, ∃ c, mem.chunks.lookup e.2.2 = some c) ∧ (es.map fun e => e.2.2).Nodup := by
  obtain ⟨es, others, split, run, reached, _⟩ := maps.reached
  simp only [RangeMap.visited, RangeMap.begin_follows maps.stores, ok_bind] at run
  have inTree : ∀ e ∈ es, e ∈ t.entries := fun e member => split ▸ List.mem_append_left _ member
  refine ⟨es, run, reached, fun e member => ?_,
    fun e member => (maps.chunk e (inTree e member)).imp fun _ => And.left, ?_⟩
  · obtain ⟨source, inside, rfl⟩ := List.mem_map.mp (inTree e member)
    obtain ⟨cell, found, load⟩ := maps.stores.rep.stored source inside
    exact ⟨cell, found, by rw [load]⟩
  · have all := maps.mapped_nodup
    rw [AvlTree.mapped, split, List.map_append] at all
    exact all.of_append_left

theorem Maps.reached_nodup (maps : self.Maps mem t) : self.reached.Nodup := by
  obtain ⟨_, _, reached, _, _, distinct⟩ := maps.iterates
  exact reached ▸ distinct

/-- The vector of `shrink` has no more elements than its loop has rounds. -/
theorem Maps.kept_few (maps : self.Maps mem t) :
    (self.reached.filter fun r => !mem.isEmpty r).length ≤ rounds self.chunks.nodes := by
  obtain ⟨es, others, split, _, reached, _⟩ := maps.reached
  have fewer : (self.reached.filter fun r => !mem.isEmpty r).length ≤ t.entries.length := by
    refine (List.length_filter_le _ _).trans ?_
    rw [reached, split, List.length_map, List.length_append]
    exact Nat.le_add_right ..
  have size : t.entries.length = t.size := by simp [AvlTree.entries, LinkTree.size]
  exact fewer.trans (size ▸ (size_lt_rounds maps.stores.rep maps.stores.nodup).le)

theorem Swept.sub {rs : List Addr} (swept : Swept mem mem' rs) (found : mem'.chunks.lookup r = some c) :
    mem.chunks.lookup r = some c := by
  by_cases released : r ∈ rs ∧ mem.isEmpty r = true
  · simp [swept.gone r released.1 released.2] at found
  · rwa [swept.kept r fun member => by simpa [member] using released] at found

/-- The first loop gives back the empty chunks that it comes to, and keeps the others in order. -/
theorem Maps.sweep (maps : self.Maps mem t) :
    ∃ mem₁, Swept mem mem₁ self.reached ∧ ∀ room, self.sweep mem (rounds self.chunks.nodes) room t.addrs.head? =
      if (self.reached.filter fun r => !mem.isEmpty r).length ≤ room then
        .ok (mem₁, self.reached.filter fun r => !mem.isEmpty r)
      else .error .badAlloc := by
  obtain ⟨es, visit, reached, stored, present, distinct⟩ := maps.iterates
  rw [reached]
  exact sweep_follows mem visit stored present distinct

/-- The memory in which `shrink` asks for a new chunk: what it releases is given back by then. It does
so only when there was memory for the vector, which has no more elements than the loop has rounds. -/
def afterSweep (mem : Memory) (self : Arena) : Memory :=
  match self.chunks.begin >>= self.sweep mem (rounds self.chunks.nodes) (rounds self.chunks.nodes) with
  | .ok (mem, _) => mem
  | .error _ => mem

/-- The nodes that exist when `shrink` asks for nodes. -/
def afterClear (self : Arena) : Nodes Addr Addr :=
  match self.chunks.clear with
  | .ok chunks => chunks.nodes
  | .error _ => self.chunks.nodes

/-- What the system answers the requests of `shrink` is not in use when it does. -/
structure Regains (mem : Memory) (arena : Arena) (nodes : List Ptr) (region node : Ptr) : Prop where
  clear : ∀ r, region = some r → (arena.afterSweep mem).Clear arena.blockSize r
  unused : ∀ n ∈ (node :: nodes).reduceOption, arena.afterClear.lookup n = none
  distinct : (node :: nodes).reduceOption.Nodup

instance (mem : Memory) (arena : Arena) (nodes : List Ptr) (region node : Ptr) :
    Decidable (arena.Regains mem nodes region node) :=
  decidable_of_iff ((∀ r ∈ region, (arena.afterSweep mem).Clear arena.blockSize r) ∧
      (∀ n ∈ (node :: nodes).reduceOption, arena.afterClear.lookup n = none) ∧ (node :: nodes).reduceOption.Nodup)
    ⟨fun ⟨clear, unused, distinct⟩ => ⟨clear, unused, distinct⟩,
      fun regains => ⟨regains.clear, regains.unused, regains.distinct⟩⟩

/-- The ranges of different chunks compare. -/
theorem Maps.compares_other (maps : self.Maps mem t) (divided : mem.Divided d) (found : mem.chunks.lookup r = some c)
    (fresh : r ∉ t.mapped) : ∀ e ∈ t.entries, Comparable ⟨c.begin, c.end_⟩ e.2.1 := by
  intro e member
  obtain ⟨c', found', range⟩ := maps.chunk e member
  have describes := divided.chunk r c found
  have describes' := divided.chunk e.2.2 c' found'
  have begin := describes.begin
  have begin' := describes'.begin
  have end_ := describes.end_
  have end_' := describes'.end_
  have different : r ≠ e.2.2 := fun same => fresh (same ▸ List.mem_map_of_mem member)
  have := divided.apart r c e.2.2 c' found found' different
  unfold Comparable Range.Before
  rw [range]
  unfold regionSize sizeofChunk at *
  lia

/-- The second loop enters the chunks of its list and nothing else. -/
theorem reinsert_maps {chunks : RangeMap Addr Addr} {rs : List Addr} {nodes : List Ptr}
    (maps : self.Maps mem t) (divided : mem.Divided d) (fresh : (rs ++ t.mapped).Nodup)
    (unused : ∀ n, some n ∈ nodes → self.chunks.nodes.lookup n = none)
    (distinct : nodes.reduceOption.Nodup) (run : reinsert mem self.chunks rs nodes = .ok chunks) :
    ∃ t', Maps mem { self with chunks } t' ∧ (∀ s, s ∈ t'.mapped ↔ s ∈ rs ∨ s ∈ t.mapped) ∧
      ∀ n, some n ∉ nodes → self.chunks.nodes.lookup n = none → chunks.nodes.lookup n = none := by
  induction rs generalizing self t nodes with
  | nil =>
    obtain rfl : self.chunks = chunks := by simpa [reinsert] using run
    exact ⟨t, maps, by simp, fun n _ => id⟩
  | cons r rs ih =>
    obtain ⟨c, found, run⟩ := bind_eq_ok run
    obtain ⟨⟨chunks₁, inserted⟩, entered, run⟩ := bind_eq_ok run
    have head : ∀ n, nodes.headD none = some n → some n ∈ nodes := by
      intro n same
      cases nodes with
      | nil => simp at same
      | cons a rest => exact same ▸ List.mem_cons_self
    obtain ⟨outside, others⟩ := List.nodup_cons.mp fresh
    obtain ⟨t₁, maps₁, old, kept, new, spared⟩ :=
      maps.insert (lookup_of_deref found) (fun n same => unused n (head n same)) entered
    have compares := maps.compares_other divided (lookup_of_deref found)
      fun inMap => outside (List.mem_append_right _ inMap)
    have isNew : r ∈ t₁.mapped := by
      refine new.resolve_right ?_
      rintro ⟨e, member, apart⟩
      exact apart (compares e member)
    have mapped : ∀ s, s ∈ t₁.mapped ↔ s = r ∨ s ∈ t.mapped := fun s =>
      ⟨old s, fun here => here.elim (fun same => same ▸ isNew) fun inMap => kept inMap⟩
    have tail : ∀ n, some n ∈ nodes.tail → some n ∈ nodes ∧ nodes.headD none ≠ some n := by
      intro n member
      cases nodes with
      | nil => simp at member
      | cons a rest =>
        refine ⟨List.mem_cons_of_mem _ member, ?_⟩
        rintro rfl
        exact (List.nodup_cons.mp distinct).1 (List.reduceOption_mem_iff.mpr member)
    have distinct' : nodes.tail.reduceOption.Nodup := by
      cases nodes with
      | nil => exact distinct
      | cons a rest => cases a with
        | none => exact distinct
        | some n => exact (List.nodup_cons.mp distinct).2
    have fresh' : (rs ++ t₁.mapped).Nodup := by
      obtain ⟨listed, inMap, apart⟩ := List.nodup_append.mp others
      refine List.nodup_append.mpr ⟨listed, maps₁.mapped_nodup, fun s member u inMap' => ?_⟩
      rcases old u inMap' with rfl | before
      · rintro rfl
        exact outside (List.mem_append_left _ member)
      · exact apart s member u before
    obtain ⟨t', maps', mapped', spared'⟩ := @ih { self with chunks := chunks₁ } t₁ nodes.tail maps₁ fresh'
      (fun n member => spared n (tail n member).2 (unused n (tail n member).1)) distinct' run
    refine ⟨t', maps', fun s => ?_, fun n other free => ?_⟩
    · rw [mapped', mapped, List.mem_cons]
      tauto
    · exact spared' n (fun member => other (tail n member).1) (spared n (fun same => other (head n same)) free)

/-- Chunks of the arena that have handed out no block are given back. -/
theorem Possesses.swept (possesses : self.Possesses d mem ar t) (divided : mem.Divided d)
    (swept : Swept mem mem' self.reached) : mem'.Divided d ∧ Leaves ar d d mem mem' := by
  have gone : ∀ r c, mem.chunks.lookup r = some c →
      mem'.chunks.lookup r = some c ∨ (d r).owner = ar ∧ (d r).issued = [] := by
    intro r c found
    by_cases released : r ∈ self.reached ∧ mem.isEmpty r = true
    · have empty : c.empty = true := by simpa [Memory.isEmpty, found] using released.2
      exact .inr ⟨(possesses.own r (possesses.maps.reached_subset released.1)).1,
        (divided.chunk r c found).empty.mp empty⟩
    · exact .inl ((swept.kept r fun member => by simpa [member] using released).trans found)
  exact ⟨divided.sub swept.bytes fun _ _ => swept.sub, .release gone swept.bytes⟩

/-- The chunks that the iteration does not come to are lost when the map is cleared. -/
theorem Maps.swept_accounts (maps : self.Maps mem t) (swept : Swept mem mem' self.reached) {rs : List Addr}
    (kept : ∀ s, s ∈ rs ↔ s ∈ self.reached.filter fun r => !mem.isEmpty r) :
    Accounts mem mem' t.mapped rs fun r => r ∈ t.mapped ∧ r ∉ self.reached := by
  have stays : ∀ s, s ∉ self.reached → mem.Has s → mem'.Has s := fun s away ⟨c, found⟩ =>
    ⟨c, (swept.kept s fun member => absurd member away).trans found⟩
  refine ⟨fun s here away => ?_, fun s ⟨c, found⟩ => ?_, fun s ⟨member, away⟩ => ?_⟩
  · have unreached : s ∉ self.reached := fun member => away (maps.reached_subset member)
    exact ⟨stays s unreached here, fun member => unreached (List.mem_of_mem_filter ((kept s).mp member))⟩
  · by_cases member : s ∈ t.mapped
    · by_cases reached : s ∈ self.reached
      · refine .inl ((kept s).mpr (List.mem_filter.mpr ⟨reached, ?_⟩))
        cases empty : mem.isEmpty s with
        | false => rfl
        | true => simp [swept.gone s reached empty] at found
      · exact .inr (.inl ⟨member, reached⟩)
    · exact .inr (.inr ⟨⟨c, swept.sub found⟩, member⟩)
  · exact ⟨stays s away (maps.mapped_chunk member),
      fun listed => away (List.mem_of_mem_filter ((kept s).mp listed)), fun _ => member⟩

/-- `shrink` gives back chunks without a block in use, and may make one. -/
theorem Possesses.shrink {room : Nat} {nodes : List Ptr} (possesses : self.Possesses d mem ar t)
    (divided : mem.Divided d) (regains : self.Regains mem nodes region node)
    (run : self.shrink mem room nodes region node = .ok (mem', self')) :
    ∃ d', Proceeds ar d d' mem mem' self' ∧
      ∀ t', self'.chunks.Stores t' → Accounts mem mem' t.mapped t'.mapped fun r => r ∈ t.mapped ∧ r ∉ self.reached := by
  have maps := possesses.maps
  obtain ⟨positive, small⟩ := possesses.bounds divided
  obtain ⟨mem₁, effect, sweeps⟩ := maps.sweep
  obtain ⟨divided₁, leaves⟩ := possesses.swept divided effect
  obtain ⟨cleared, clears, bare, _, _⟩ := clear_follows maps.stores
  have after : self.afterSweep mem = mem₁ := by
    simp only [afterSweep, RangeMap.begin_follows maps.stores, ok_bind, sweeps, if_pos maps.kept_few]
  have afterNodes : self.afterClear = cleared.nodes := by simp only [afterClear, clears]
  rw [shrink_eq, RangeMap.begin_follows maps.stores, ok_bind, sweeps] at run
  -- a call that completes had memory for the vector
  split at run
  case isFalse => cases run
  simp only [ok_bind, clears] at run
  obtain ⟨chunks, entered, settled⟩ := bind_eq_ok run
  have empty : Maps mem₁ { self with chunks := cleared } .nil := ⟨bare, .nil, by simp⟩
  have distinct : nodes.reduceOption.Nodup := by
    have := regains.distinct
    cases node with
    | none => exact this
    | some n => exact (List.nodup_cons.mp this).2
  have unused : ∀ n, some n ∈ node :: nodes → self.afterClear.lookup n = none :=
    fun n member => regains.unused n (List.reduceOption_mem_iff.mpr member)
  have fresh : ((self.reached.filter fun r => !mem.isEmpty r) ++ AvlTree.mapped (K := Addr) .nil).Nodup := by
    simpa [AvlTree.mapped] using maps.reached_nodup.filter _
  obtain ⟨t₁, maps₁, inList, spared⟩ := reinsert_maps empty divided₁ fresh
    (fun n member => afterNodes ▸ unused n (List.mem_cons_of_mem _ member)) distinct entered
  have kept : ∀ s, s ∈ t₁.mapped ↔ s ∈ self.reached.filter fun r => !mem.isEmpty r :=
    fun s => (inList s).trans (or_iff_left (by simp [AvlTree.mapped]))
  have accounts := maps.swept_accounts effect kept
  have own : ∀ s ∈ t₁.mapped, (d s).owner = ar ∧ (d s).size = self.blockSize := fun s member =>
    possesses.own s (maps.reached_subset (List.mem_of_mem_filter ((kept s).mp member)))
  by_cases left : t₁ = .nil
  -- no chunk is kept
  · subst left
    have none : chunks.empty = true := by
      rw [RangeMap.empty, maps₁.stores.root]
      rfl
    cases region with
    | none => simp [settle, none, createNewChunk] at settled
    | some r =>
      have clear : mem₁.Clear self.blockSize r := after ▸ regains.clear r rfl
      obtain ⟨begin, end_⟩ := newChunk_shape small mem₁ r
      simp only [settle, none, if_true, createNewChunk_eq, ok_bind, deref_of_lookup (AList.lookup_insert _)] at settled
      obtain ⟨⟨chunks', inserted⟩, entered', rest⟩ := bind_eq_ok settled
      simp only [Except.ok.injEq, Prod.mk.injEq] at rest
      obtain ⟨rfl, rfl⟩ := rest
      obtain ⟨t₂, possesses₂, mapped⟩ := maps₁.enter_clear divided₁ clear own
        (rfl : (Deed.mk ar self.blockSize []).owner = ar) rfl (fun n same => by
          subst same
          refine spared n (fun again => ?_) (afterNodes ▸ unused n List.mem_cons_self)
          exact (List.nodup_cons.mp regains.distinct).1 (List.reduceOption_mem_iff.mpr again)) begin end_ entered'
      refine ⟨_, ⟨divided₁.create positive small clear ar, ⟨t₂, possesses₂⟩,
        leaves.trans (.create divided₁ positive small clear)⟩, fun t' stores => ?_⟩
      obtain rfl := stores.unique possesses₂.maps.stores
      exact accounts.trans (.enter (clear.absent divided₁) (mem₁.has_insert r _ _) mapped fun _ => id) fun _ => id
  · obtain ⟨first, member, same⟩ := maps₁.settle_node left region node
    obtain ⟨rfl, rfl⟩ : mem₁ = mem' ∧ _ = self' := by simpa [same] using settled
    refine ⟨d, ⟨divided₁, ⟨t₁, ⟨maps₁.stores, maps₁.ordered, maps₁.chunk⟩, own, ⟨first, member, rfl⟩,
      ⟨first, member, rfl⟩⟩, leaves⟩, fun t' stores => ?_⟩
    obtain rfl := stores.unique maps₁.stores
    exact accounts

end Arena

end SmallObject
