import SmallObject.Pool.Peak
import SmallObject.Pool.Separation

/-! The destructors: of an arena, of a pool, and of the allocator that ends its pools in turn.

A pool deletes the arenas of its list, whichever thread has reserved them. It gives back the chunks
that an iteration over their maps comes to, so an arena leaves nothing behind exactly when the tree
of its map is walkable.
-/

set_option autoImplicit false

namespace SmallObject

open Linked Custody Execution AvlTree

namespace Arena

/-- The loop of the destructor. -/
def releaseFrom (mem : Memory) (self : Arena) : Nat → Ptr → Except Fault Memory
  | _, none => .ok mem
  | 0, some _ => .error .endless
  | fuel + 1, some it => do
    let n ← deref self.chunks.nodes (some it)
    let mem ← releaseChunk mem n.load.mapped
    let next ← self.chunks.increment (some it)
    releaseFrom mem self fuel next

/-- The destructor, and after it the one of the map. -/
def destroy (mem : Memory) (self : Arena) : Except Fault Memory := do
  let it ← self.chunks.begin
  let mem ← releaseFrom mem self (rounds self.chunks.nodes) it
  let _ ← self.chunks.clear
  .ok mem

end Arena

namespace Pool

variable {T : Type}

/-- The loop of the destructor; the iterator has left an arena before it is deleted. -/
def deleteArenas (process : Process) : List Addr → Except Fault Process
  | [] => .ok process
  | ar :: rest => do
    let arena ← deref process.objects (some ar)
    let mem ← arena.destroy process.mem
    deleteArenas { mem, objects := process.objects.erase ar } rest

/-- The destructor; `arena_.reset()` is what a thread that ends does. -/
def destroy [DecidableEq T] (process : Process) (self : Pool T) (t : T) (room : Nat) (nodes : List Ptr)
    (region node : Ptr) : Except Fault Process := do
  let (process, self) ← self.exit process t room nodes region node
  deleteArenas process self.arenas

end Pool

/-! ## One arena -/

/-- These chunks are given back, and nothing else has changed. -/
structure Emptied (mem mem' : Memory) (rs : List Addr) : Prop where
  bytes : mem'.bytes = mem.bytes
  freed : mem'.freed = rs.reverse ++ mem.freed
  chunks : ∀ r, mem'.chunks.lookup r = if r ∈ rs then none else mem.chunks.lookup r

namespace Emptied

variable {mem mem' mem'' : Memory} {rs rs' : List Addr}

theorem nil (mem : Memory) : Emptied mem mem [] := ⟨rfl, rfl, by simp⟩

theorem without (mem : Memory) (r : Addr) : Emptied mem (mem.without r) [r] := by
  refine ⟨rfl, rfl, fun s => ?_⟩
  by_cases same : s = r
  · subst same
    simp [Memory.without]
  · simp [Memory.lookup_without same, same]

theorem append (first : Emptied mem mem' rs) (second : Emptied mem' mem'' rs') : Emptied mem mem'' (rs ++ rs') := by
  refine ⟨second.bytes.trans first.bytes, by simp [second.freed, first.freed], fun r => ?_⟩
  rw [second.chunks r, first.chunks r]
  by_cases later : r ∈ rs'
  · simp [later]
  · simp [later]

end Emptied

namespace Arena

variable {self : Arena} {mem : Memory} {t : AvlTree Addr Addr} {d : Deeds} {ar : Addr}

/-- The loop completes where the iteration does. -/
theorem releaseFrom_follows (mem : Memory) {fuel : Nat} {it : Ptr} {es : List (Entry Addr Addr)}
    (visit : self.chunks.visitFrom fuel it = .ok (es.map Prod.fst))
    (stored : ∀ e ∈ es, ∃ cell, self.chunks.nodes.lookup e.1 = some cell ∧ cell.load.mapped = e.2.2)
    (present : ∀ e ∈ es, ∃ c, mem.chunks.lookup e.2.2 = some c) (distinct : (es.map fun e => e.2.2).Nodup) :
    ∃ mem', self.releaseFrom mem fuel it = .ok mem' ∧ Emptied mem mem' (es.map fun e => e.2.2) := by
  induction es generalizing fuel it mem with
  | nil =>
    obtain rfl := RangeMap.visitFrom_eq_nil visit
    exact ⟨mem, by simp [releaseFrom], .nil mem⟩
  | cons e es ih =>
    obtain ⟨left, next, rfl, rfl, step, visited⟩ := RangeMap.visitFrom_eq_cons visit
    obtain ⟨cell, found, load⟩ := stored e List.mem_cons_self
    obtain ⟨c, chunk⟩ := present e List.mem_cons_self
    obtain ⟨fresh, distinct⟩ := List.nodup_cons.mp distinct
    -- the chunks of the rounds that follow are others
    obtain ⟨mem', run, emptied⟩ := ih (mem.without e.2.2) visited
      (fun f member => stored f (List.mem_cons_of_mem e member))
      (fun f member => by
        have other : f.2.2 ≠ e.2.2 := fun same => fresh (List.mem_map.mpr ⟨f, member, same⟩)
        rw [Memory.lookup_without other]
        exact present f (List.mem_cons_of_mem e member))
      distinct
    refine ⟨mem', ?_, (Emptied.without mem e.2.2).append emptied⟩
    simp [releaseFrom, deref_of_lookup found, load, releaseChunk_eq chunk, step, run]

theorem Maps.destroy (maps : self.Maps mem t) :
    ∃ mem', self.destroy mem = .ok mem' ∧ Emptied mem mem' self.reached := by
  obtain ⟨es, visit, reached, stored, present, distinct⟩ := maps.iterates
  obtain ⟨mem', released, emptied⟩ := releaseFrom_follows mem visit stored present distinct
  obtain ⟨cleared, clears, _⟩ := clear_follows maps.stores
  refine ⟨mem', ?_, reached ▸ emptied⟩
  simp [Arena.destroy, RangeMap.begin_follows maps.stores, released, clears]

end Arena

/-! ## One pool -/

/-- The chunks that the iterations over the maps of these arenas come to. -/
def Process.reached (process : Process) (ars : List Addr) : List Addr :=
  ars.flatMap fun ar => ((process.objects.lookup ar).map Arena.reached).getD []

/-- These arenas are gone with the chunks that they reach, and nothing else is. -/
structure Ended (listed : List Addr) (process process' : Process) : Prop where
  arenas : ∀ ar, process'.objects.lookup ar = if ar ∈ listed then none else process.objects.lookup ar
  chunks : Emptied process.mem process'.mem (process.reached listed)

/-- The arenas that are left have what they had. -/
theorem Process.Possesses.erase {d : Deeds} {process : Process} {mem : Memory} {ar : Addr} {arena : Arena}
    (all : process.Possesses d) (found : process.objects.lookup ar = some arena)
    (emptied : Emptied process.mem mem arena.reached) :
    Process.Possesses d { mem, objects := process.objects.erase ar } := by
  intro other arena' found'
  have different : other ≠ ar := by
    rintro rfl
    simp [AList.lookup_erase] at found'
  rw [AList.lookup_erase_ne different] at found'
  obtain ⟨t, possesses⟩ := all ar arena found
  obtain ⟨t', possesses'⟩ := all other arena' found'
  refine ⟨t', possesses'.kept fun r member c stored => ⟨rfl, ?_⟩⟩
  have elsewhere : r ∉ arena.reached := by
    intro inside
    have own := (possesses.own r (possesses.maps.reached_subset inside)).1
    exact different ((possesses'.own r member).1.symm.trans own)
  rw [emptied.chunks, if_neg elsewhere, stored]

theorem Pool.deleteArenas_follows {d : Deeds} {listed : List Addr} {process : Process} (all : process.Possesses d)
    (distinct : listed.Nodup) (present : ∀ ar ∈ listed, ∃ arena, process.objects.lookup ar = some arena) :
    ∃ process', deleteArenas process listed = .ok process' ∧ Ended listed process process' ∧
      process'.Possesses d := by
  induction listed generalizing process with
  | nil => exact ⟨process, rfl, ⟨by simp, .nil _⟩, all⟩
  | cons ar rest ih =>
    obtain ⟨arena, found⟩ := present ar List.mem_cons_self
    obtain ⟨fresh, distinct⟩ := List.nodup_cons.mp distinct
    obtain ⟨t, possesses⟩ := all ar arena found
    obtain ⟨mem, destroyed, emptied⟩ := possesses.maps.destroy
    have others : ∀ b ∈ rest, (process.objects.erase ar).lookup b = process.objects.lookup b := fun b member =>
      AList.lookup_erase_ne (ne_of_mem_of_not_mem member fresh)
    obtain ⟨process', run, ended, left⟩ := ih (all.erase found emptied) distinct fun b member => by
      rw [others b member]
      exact present b (List.mem_cons_of_mem ar member)
    refine ⟨process', ?_, ⟨fun b => ?_, ?_⟩, left⟩
    · simp [deleteArenas, deref_of_lookup found, destroyed, run]
    · rw [ended.arenas b]
      by_cases same : b = ar
      · subst same
        simp [AList.lookup_erase]
      · simp [same, AList.lookup_erase_ne same]
    · have later : Process.reached { mem, objects := process.objects.erase ar } rest = process.reached rest :=
        List.flatMap_congr fun b member => by rw [others b member]
      have all : process.reached (ar :: rest) = arena.reached ++ process.reached rest := by
        simp [Process.reached, found]
      rw [all, ← later]
      exact emptied.append ended.chunks

/-! ## All pools -/

/-- The destructor of the allocator, between two of its pools. -/
structure Closing (I T : Type) where
  threads : Threads I T
  closed : List I

/-- The pool that is next, and what the system answers when the arena of the thread shrinks. -/
structure Next (I : Type) where
  pool : I
  room : Nat
  nodes : List Ptr
  region : Ptr
  node : Ptr

theorem Threads.Uses.housed {I T : Type} [DecidableEq I] [DecidableEq T] {s : Threads I T} (run : s.Uses) :
    s.Housed := by
  apply Runs.invariant _ _ run
  · exact fun s => .fresh
  · intro s use s' housed orderly stepped
    cases use with
    | act action => exact housed.step orderly.admissible stepped
    | write a v =>
      obtain rfl := Except.ok.inj stepped
      obtain ⟨⟨home, homes⟩, exclusive, seeking⟩ := housed
      exact ⟨⟨home, homes.made, homes.listed, homes.distinct, fun t => ⟨(homes.settled t).held, (homes.settled t).won,
        (homes.settled t).built, (homes.settled t).stored, (homes.settled t).given, (homes.settled t).suffix⟩⟩,
        exclusive, seeking⟩

namespace Closing

variable {I T : Type}

/-- The destructor can begin at any time; it is not run twice on a pool. -/
def Start [DecidableEq I] [DecidableEq T] (s : Closing I T) : Prop := s.threads.Uses ∧ s.closed = []

def Suited (t : T) (s : Closing I T) (next : Next I) : Prop :=
  next.pool ∉ s.closed ∧ ∀ ar ∈ (s.threads.pools next.pool).arena t, ∀ arena ∈ s.threads.process.objects.lookup ar,
    arena.Regains s.threads.process.mem next.nodes next.region next.node

instance [DecidableEq I] (t : T) (s : Closing I T) (next : Next I) : Decidable (s.Suited t next) := by
  unfold Suited
  infer_instance

variable [DecidableEq T]

/-- `arena_.reset()` in the destructor of the next pool. -/
def exit (t : T) (s : Closing I T) (next : Next I) : Except Fault (Process × Pool T) :=
  (s.threads.pools next.pool).exit s.threads.process t next.room next.nodes next.region next.node

/-- `p->~pool()`. -/
def step (t : T) (s : Closing I T) (next : Next I) : Except Fault (Closing I T) := do
  let process ← (s.threads.pools next.pool).destroy s.threads.process t next.room next.nodes next.region next.node
  .ok { threads := { s.threads with process }, closed := next.pool :: s.closed }

/-- Every pool that is left has its arenas, which have their chunks. -/
structure Stands (s : Closing I T) (home : Addr → Option I) (d : Deeds) : Prop where
  divided : s.threads.process.mem.Divided d
  possesses : s.threads.process.Possesses d
  made : ∀ ar i, home ar = some i → i ∉ s.closed → ∃ arena, s.threads.process.objects.lookup ar = some arena
  listed : ∀ i, ∀ ar ∈ (s.threads.pools i).arenas, home ar = some i
  distinct : ∀ i, (s.threads.pools i).arenas.Nodup

variable {s s' : Closing I T} {t : T} {next : Next I} {home : Addr → Option I} {d : Deeds} {process : Process}
  {pool : Pool T}

/-- The arena of the thread shrinks, and has its chunks again. -/
theorem Stands.exit (stands : s.Stands home d) (suited : s.Suited t next)
    (run : s.exit t next = .ok (process, pool)) :
    (∃ d', process.mem.Divided d' ∧ process.Possesses d') ∧ pool.arenas = (s.threads.pools next.pool).arenas ∧
      ∀ ar, (∃ arena, process.objects.lookup ar = some arena) ↔
        ∃ arena, s.threads.process.objects.lookup ar = some arena := by
  unfold Closing.exit Pool.exit at run
  split at run
  · obtain ⟨rfl, rfl⟩ : s.threads.process = process ∧ _ = pool := by simpa using run
    exact ⟨⟨d, stands.divided, stands.possesses⟩, rfl, fun ar => Iff.rfl⟩
  next ar holds =>
    obtain ⟨process₁, released, run⟩ := bind_eq_ok run
    obtain ⟨rfl, rfl⟩ : process₁ = process ∧ _ = pool := by simpa using run
    obtain ⟨arena, found, released⟩ := bind_eq_ok released
    obtain ⟨⟨mem, arena'⟩, shrunk, released⟩ := bind_eq_ok released
    obtain rfl := Except.ok.inj released
    have found := lookup_of_deref found
    obtain ⟨tree, possesses⟩ := stands.possesses ar arena found
    obtain ⟨d', proceeds, _⟩ := possesses.shrink stands.divided (suited.2 ar holds arena found) shrunk
    obtain ⟨tree', possesses'⟩ := proceeds.possesses
    refine ⟨⟨d', proceeds.divided, fun other arena₁ found₁ => ?_⟩, rfl, fun other => ?_⟩
    · by_cases same : other = ar
      · subst same
        obtain rfl : arena'.release = arena₁ := by simpa using found₁
        exact ⟨tree', possesses'.flag false⟩
      · obtain ⟨tree₁, possesses₁⟩ :=
          stands.possesses other arena₁ (by simpa [AList.lookup_insert_ne same] using found₁)
        exact ⟨tree₁, possesses₁.beside proceeds.leaves same⟩
    · by_cases same : other = ar
      · subst same
        exact iff_of_true ⟨arena'.release, AList.lookup_insert _⟩ ⟨arena, found⟩
      · simp only [AList.lookup_insert_ne same]

/-- After that the destructor completes, and ends the arenas of the list. -/
theorem Stands.destroy (stands : s.Stands home d) (suited : s.Suited t next)
    (run : s.exit t next = .ok (process, pool)) :
    ∃ process' d', s.step t next = .ok
        { threads := { s.threads with process := process' }, closed := next.pool :: s.closed } ∧
      Ended (s.threads.pools next.pool).arenas process process' ∧ process.Possesses d' ∧ process'.mem.Divided d' ∧
      process'.Possesses d' := by
  obtain ⟨⟨d', divided, possesses⟩, same, kept⟩ := stands.exit suited run
  obtain ⟨process', deleted, ended, left⟩ := Pool.deleteArenas_follows possesses (stands.distinct next.pool)
    fun ar member => by
      exact (kept ar).mpr (stands.made ar _ (stands.listed _ ar member) suited.1)
  have chunks : ∀ r c, process'.mem.chunks.lookup r = some c → process.mem.chunks.lookup r = some c := by
    intro r c found
    rw [ended.chunks.chunks] at found
    split at found
    · cases found
    · exact found
  refine ⟨process', d', ?_, ended, possesses, divided.sub ended.chunks.bytes chunks, left⟩
  have exits : (s.threads.pools next.pool).exit s.threads.process t next.room next.nodes next.region next.node =
      .ok (process, pool) := run
  simp [Closing.step, Pool.destroy, exits, same, deleted]

theorem Stands.step (stands : s.Stands home d) (suited : s.Suited t next) (stepped : s.step t next = .ok s') :
    ∃ d', s'.Stands home d' := by
  obtain ⟨process₁, destroyed, stepped'⟩ := bind_eq_ok stepped
  obtain ⟨⟨process, pool⟩, exits, _⟩ := bind_eq_ok destroyed
  obtain ⟨process', d', same, ended, _, divided, possesses⟩ := stands.destroy suited exits
  obtain rfl := Except.ok.inj (same.symm.trans stepped)
  refine ⟨d', divided, possesses, fun ar i here isOpen => ?_, stands.listed, stands.distinct⟩
  obtain ⟨notNext, before⟩ := not_or.mp (List.mem_cons.not.mp isOpen)
  obtain ⟨arena, found⟩ := ((stands.exit suited exits).2.2 ar).mpr (stands.made ar i here before)
  -- the arena is one of another pool
  refine ⟨arena, ?_⟩
  rw [ended.arenas, if_neg, found]
  intro listed
  exact notNext (Option.some.inj (here.symm.trans (stands.listed _ ar listed)))

variable [DecidableEq I]

theorem Stands.start {threads : Threads I T} (uses : threads.Uses) :
    ∃ home d, Stands ({ threads, closed := [] } : Closing I T) home d := by
  obtain ⟨d, separated⟩ := uses.separated
  obtain ⟨home, homes⟩ := uses.housed.homes
  exact ⟨home, d, separated.divided, separated.possesses, fun ar i here _ => homes.made ar i here, homes.listed,
    homes.distinct⟩

theorem run_stands (run : Runs Start (Suited t) (step t) s) : ∃ home d, s.Stands home d := by
  apply Runs.invariant _ _ run
  · rintro ⟨threads, closed⟩ ⟨uses, rfl⟩
    exact Stands.start uses
  · rintro s next s' ⟨home, d, stands⟩ suited stepped
    exact ⟨home, stands.step suited stepped⟩

/-- Once the arena of the thread has shrunk, the destructor of a pool completes. It deletes the
arenas of the list, each once, with the chunks that the iterations come to; nothing of such an
arena is left exactly if the tree of its map is walkable, and the other arenas have their chunks
as before. -/
theorem run_closes (run : Runs Start (Suited t) (step t) s) (suited : s.Suited t next)
    (exits : s.exit t next = .ok (process, pool)) :
    ∃ process', s.step t next = .ok
        { threads := { s.threads with process := process' }, closed := next.pool :: s.closed } ∧
      Ended (s.threads.pools next.pool).arenas process process' ∧
      (∀ ar ∈ (s.threads.pools next.pool).arenas, ∀ arena, process.objects.lookup ar = some arena →
        ∀ tree, arena.chunks.Stores tree →
          ((∀ r ∈ tree.mapped, process'.mem.chunks.lookup r = none) ↔ tree.Walkable)) ∧
      ∀ ar arena, process'.objects.lookup ar = some arena → ∀ tree, arena.chunks.Stores tree →
        ∀ r ∈ tree.mapped, ∃ c, process.mem.chunks.lookup r = some c ∧ process'.mem.chunks.lookup r = some c := by
  obtain ⟨home, d, stands⟩ := run_stands run
  obtain ⟨process', d', same, ended, possesses, _, left⟩ := stands.destroy suited exits
  refine ⟨process', same, ended, fun ar listed arena found tree stores => ?_,
    fun ar arena found tree stores r member => ?_⟩
  · obtain ⟨tree', owned⟩ := possesses ar arena found
    obtain rfl : tree = tree' := stores.unique owned.maps.stores
    rw [← owned.maps.reached_all]
    refine ⟨fun none r member => ?_, fun all r member => ?_⟩
    · obtain ⟨c, stored⟩ := owned.maps.mapped_chunk member
      have gone := none r member
      rw [ended.chunks.chunks, stored] at gone
      have inside : r ∈ process.reached (s.threads.pools next.pool).arenas := by
        by_contra away
        simp [away] at gone
      -- a chunk is reached from the map of its owner only
      obtain ⟨other, _, reached⟩ := List.mem_flatMap.mp inside
      cases found' : process.objects.lookup other with
      | none => simp [found'] at reached
      | some arena' =>
        have reached : r ∈ arena'.reached := by simpa [found'] using reached
        obtain ⟨tree', owned'⟩ := possesses other arena' found'
        have owner := (owned'.own r (owned'.maps.reached_subset reached)).1
        obtain rfl : other = ar := owner.symm.trans (owned.own r member).1
        obtain rfl := Option.some.inj (found.symm.trans found')
        exact reached
    · rw [ended.chunks.chunks, if_pos]
      exact List.mem_flatMap.mpr ⟨ar, listed, by simpa [found] using all member⟩
  · obtain ⟨tree', owned⟩ := left ar arena found
    obtain rfl : tree = tree' := stores.unique owned.maps.stores
    obtain ⟨c, stored⟩ := owned.maps.mapped_chunk member
    refine ⟨c, ?_, stored⟩
    rw [ended.chunks.chunks] at stored
    split at stored
    · cases stored
    · exact stored

/-- One thread has ended, the other one has a block; the pools go one after the other. -/
theorem run_closes_two : ∃ (s : Closing Bool Bool) (next : Next Bool) (process process' : Process),
    s.closed = [false] ∧ (s.threads.pools true).arenas = [2] ∧ s.step true next = .ok
        { threads := { s.threads with process := process' }, closed := next.pool :: s.closed } ∧
      Ended (s.threads.pools next.pool).arenas process process' ∧
      (∀ ar ∈ (s.threads.pools next.pool).arenas, ∀ arena, process.objects.lookup ar = some arena →
        ∀ tree, arena.chunks.Stores tree →
          ((∀ r ∈ tree.mapped, process'.mem.chunks.lookup r = none) ↔ tree.Walkable)) ∧
      ∀ ar arena, process'.objects.lookup ar = some arena → ∀ tree, arena.chunks.Stores tree →
        ∀ r ∈ tree.mapped, ∃ c, process.mem.chunks.lookup r = some c ∧ process'.mem.chunks.lookup r = some c := by
  have used : ((replay Threads.Orderly Threads.use (Threads.unused : Threads Bool Bool)
      [.act (.malloc false false 16), .act (.malloc true true 8),
        .act (.advance false ⟨none, none, none, none, none, none, 0⟩ []),
        .act (.advance true ⟨none, none, none, none, none, none, 0⟩ []),
        .act (.advance false ⟨some 1, some 8192, some 1, none, none, none, 0⟩ []),
        .act (.advance true ⟨some 2, some 16384, some 1, none, none, none, 0⟩ []),
        .act (.advance false ⟨none, none, none, none, none, none, 0⟩ []),
        .act (.advance true ⟨none, none, none, none, none, none, 0⟩ []),
        .act (.advance false ⟨none, none, none, some 3, none, none, 0⟩ []),
        .act (.advance true ⟨none, none, none, some 4, none, none, 0⟩ []),
        .act (.advance true ⟨none, none, none, none, none, none, 0⟩ []),
        .act (.exit false false),
        .act (.advance false ⟨none, none, none, none, some 32768, some 5, 0⟩ [])]).bind fun s =>
      (replay (Suited true) (step true) (⟨s, []⟩ : Closing Bool Bool) [⟨false, 0, [], none, none⟩]).bind fun s =>
        if s.Suited true ⟨true, 1, [some 6], none, none⟩ then
          (s.exit true ⟨true, 1, [some 6], none, none⟩).toOption.map fun _ => (s.closed, (s.threads.pools true).arenas)
        else none) = some ([false], [2]) := by decide +kernel
  obtain ⟨s₀, replayed, used⟩ := Option.bind_eq_some_iff.mp used
  obtain ⟨s, closed, used⟩ := Option.bind_eq_some_iff.mp used
  split at used
  next suited =>
    obtain ⟨⟨process, pool⟩, exits, same⟩ := Option.map_eq_some_iff.mp used
    obtain ⟨first, arenas⟩ := Prod.mk.inj same
    have uses : s₀.Uses := replay_runs _ (.start ⟨rfl, rfl, rfl, rfl, rfl⟩) replayed
    have run : Runs Start (Suited true) (step true) s := replay_runs _ (.start ⟨uses, rfl⟩) closed
    obtain ⟨process', all⟩ := run_closes run suited (ok_of_toOption exits)
    exact ⟨s, _, process, process', first, arenas, all⟩
  next => cases used

end Closing

end SmallObject
