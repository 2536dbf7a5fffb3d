import SmallObject.Pool.Leaks

/-! What is left of the pools when the allocator has ended.

The destructors come to the arenas of the lists only. An arena that is on no list stays with its
chunks, and so does a chunk that no map has; there is nothing else.
-/

set_option autoImplicit false

namespace SmallObject

open Linked Custody Execution AvlTree

/-- The iteration comes to the chunk of every node. -/
def Arena.Covered (self : Arena) : Prop := ∀ n ∈ self.chunks.nodes.entries, n.2.load.mapped ∈ self.reached

instance (self : Arena) : Decidable self.Covered := by
  unfold Arena.Covered
  infer_instance

theorem Process.misses_none {process : Process} {ar : Addr}
    (covered : ∀ arena ∈ process.objects.lookup ar, arena.Covered) (r : Addr) : ¬ process.Missed ar r := by
  rintro ⟨arena, tree, found, stores, member, unreached⟩
  obtain ⟨e, inside, rfl⟩ := List.mem_map.mp member
  obtain ⟨source, entry, rfl⟩ := List.mem_map.mp inside
  obtain ⟨cell, node, load⟩ := stores.rep.stored source entry
  have here := covered arena found _ (AList.mem_lookup_iff.mp node)
  rw [load] at here
  exact unreached here

theorem Process.Possesses.has_iff {process : Process} {d : Deeds} {r : Addr} (all : process.Possesses d) :
    process.mem.Has r ↔ process.Lost r ∨
      ∃ ar arena tree, process.objects.lookup ar = some arena ∧ arena.chunks.Stores tree ∧ r ∈ tree.mapped := by
  constructor
  · intro here
    by_cases mapped : ∃ ar arena tree, process.objects.lookup ar = some arena ∧ arena.chunks.Stores tree ∧
        r ∈ tree.mapped
    · exact .inr mapped
    · exact .inl ⟨here, fun ar arena found tree stores member => mapped ⟨ar, arena, tree, found, stores, member⟩⟩
  · rintro (gone | ⟨ar, arena, tree, found, stores, member⟩)
    · exact gone.1
    · obtain ⟨tree', possesses⟩ := all ar arena found
      obtain rfl := stores.unique possesses.maps.stores
      exact possesses.maps.mapped_chunk member

/-- When arenas are deleted, the chunks that the iterations do not come to are lost. -/
theorem Ended.lost {listed : List Addr} {process process' : Process} {d : Deeds} {r : Addr}
    (ended : Ended listed process process') (all : process.Possesses d) :
    process'.Lost r ↔ process.Lost r ∨ ∃ ar ∈ listed, process.Missed ar r := by
  have has : process'.mem.Has r ↔ process.mem.Has r ∧ r ∉ process.reached listed := by
    simp only [Memory.Has, ended.chunks.chunks r]
    by_cases reached : r ∈ process.reached listed <;> simp [reached]
  have stays : ∀ {ar arena}, process'.objects.lookup ar = some arena → process.objects.lookup ar = some arena := by
    intro ar arena found
    rw [ended.arenas] at found
    split at found
    · cases found
    · exact found
  constructor
  · rintro ⟨here, unmapped⟩
    obtain ⟨before, unreached⟩ := has.mp here
    refine (all.has_iff.mp before).imp_right ?_
    rintro ⟨ar, arena, tree, found, stores, member⟩
    have listed : ar ∈ listed := by
      by_contra other
      exact unmapped ar arena ((ended.arenas ar).trans (if_neg other) |>.trans found) tree stores member
    refine ⟨ar, listed, arena, tree, found, stores, member, fun reached => unreached ?_⟩
    exact List.mem_flatMap.mpr ⟨ar, listed, by simpa [found] using reached⟩
  · -- a chunk that an iteration comes to is in the map of that arena
    have reached : r ∈ process.reached listed → ∃ ar arena tree, process.objects.lookup ar = some arena ∧
        arena.chunks.Stores tree ∧ r ∈ tree.mapped ∧ r ∈ arena.reached := by
      intro member
      obtain ⟨ar, _, inside⟩ := List.mem_flatMap.mp member
      cases found : process.objects.lookup ar with
      | none => simp [found] at inside
      | some arena =>
        have inside : r ∈ arena.reached := by simpa [found] using inside
        obtain ⟨tree, possesses⟩ := all ar arena found
        exact ⟨ar, arena, tree, found, possesses.maps.stores, possesses.maps.reached_subset inside, inside⟩
    rintro (gone | ⟨ar, listed, arena, tree, found, stores, member, unreached⟩)
    · refine ⟨has.mpr ⟨gone.1, fun member => ?_⟩, fun ar arena found => gone.2 ar arena (stays found)⟩
      obtain ⟨ar, arena, tree, found, stores, member, _⟩ := reached member
      exact gone.2 ar arena found tree stores member
    · have alone : ∀ other arena' tree', process.objects.lookup other = some arena' → arena'.chunks.Stores tree' →
          r ∈ tree'.mapped → other = ar := by
        intro other arena' tree' found' stores' member'
        by_contra different
        exact (all.entered_once (.old found stores) different found' stores' member').1 member
      have before : process.mem.Has r := all.has_iff.mpr (.inr ⟨ar, arena, tree, found, stores, member⟩)
      refine ⟨has.mpr ⟨before, fun inside => ?_⟩, fun other arena' found' tree' stores' member' => ?_⟩
      · obtain ⟨other, arena', tree', found', stores', member', inside⟩ := reached inside
        obtain rfl := alone other arena' tree' found' stores' member'
        obtain rfl := Option.some.inj (found.symm.trans found')
        exact unreached inside
      · obtain rfl := alone other arena' tree' (stays found') stores' member'
        simp [ended.arenas, listed] at found'

namespace Threads

variable {I T : Type} {s : Threads I T} {t : T}

/-- The step loses nothing. -/
def Keeps (s : Threads I T) (use : Use I T) : Prop :=
  s.Orderly use ∧ ∀ action, use = .act action → (∀ r, ¬ s.Loses action r) ∧ ∀ ar, ¬ s.Strays action ar

/-- A thread in the stage goes on so that its constructor, its call of `malloc` or its `push_front`
does not throw, and the iteration of `shrink` comes to every node. -/
def Spares (s : Threads I T) (t : T) (supply : Supply) : Stage I → Prop
  | .scanned i size => (s.pools i).arena t = none →
      (Arena.init s.process.mem size supply.first supply.firstNode).toOption.isSome
  | .stored _ _ => supply.link.isSome
  | .serving i _ => ∀ ar ∈ (s.pools i).arena t, ∀ arena ∈ s.process.objects.lookup ar,
      ∀ result ∈ (arena.malloc s.process.mem supply.region supply.node).toOption, result.1 ≠ .threw
  | .leaving ar => ∀ arena ∈ s.process.objects.lookup ar, arena.Covered
  | _ => True

/-- The step keeps everything, as far as that can be computed. -/
def Careful (s : Threads I T) : Use I T → Prop
  | .act (.advance t supply nodes) => s.Orderly (.act (.advance t supply nodes)) ∧ s.Spares t supply (s.stage t)
  | use => s.Orderly use

instance (s : Threads I T) (t : T) (supply : Supply) (stage : Stage I) : Decidable (s.Spares t supply stage) :=
  match stage with
  | .scanned i size => inferInstanceAs (Decidable ((s.pools i).arena t = none →
      (Arena.init s.process.mem size supply.first supply.firstNode).toOption.isSome))
  | .stored _ _ => inferInstanceAs (Decidable supply.link.isSome)
  | .serving i _ => inferInstanceAs (Decidable (∀ ar ∈ (s.pools i).arena t,
      ∀ arena ∈ s.process.objects.lookup ar,
      ∀ result ∈ (arena.malloc s.process.mem supply.region supply.node).toOption, result.1 ≠ .threw))
  | .leaving ar => inferInstanceAs (Decidable (∀ arena ∈ s.process.objects.lookup ar, arena.Covered))
  | .idle | .scanning _ _ _ | .won _ _ _ | .built _ _ _ | .releasing _ => isTrue trivial

instance (s : Threads I T) (u : Use I T) : Decidable (s.Careful u) :=
  match u with
  | .act (.advance t supply nodes) =>
      inferInstanceAs (Decidable (s.Orderly (.act (.advance t supply nodes)) ∧ s.Spares t supply (s.stage t)))
  | .act (.malloc t i size) => inferInstanceAs (Decidable (s.Orderly (.act (.malloc t i size))))
  | .act (.free t i ptr) => inferInstanceAs (Decidable (s.Orderly (.act (.free t i ptr))))
  | .act (.exit t i) => inferInstanceAs (Decidable (s.Orderly (.act (.exit t i))))
  | .write a v => inferInstanceAs (Decidable (s.Orderly (.write a v)))

theorem Spares.loses_none {supply : Supply} {nodes : List Ptr} (spares : s.Spares t supply (s.stage t)) (r : Addr) :
    ¬ s.Loses (.advance t supply nodes) r := by
  unfold Loses
  cases stage : s.stage t with
  | scanned i size =>
    simp only [stage] at spares ⊢
    rintro ⟨without, _, _, throws⟩
    simpa [throws, Except.toOption] using spares without
  | serving i size =>
    simp only [stage] at spares ⊢
    rintro ⟨ar, arena, mem, arena', holds, found, _, threw⟩
    exact spares ar holds arena found (.threw, mem, arena') (by simp [threw, Except.toOption]) rfl
  | leaving ar =>
    simp only [stage] at spares ⊢
    exact Process.misses_none spares r
  | _ => simp [stage]

theorem Spares.strays_none {supply : Supply} {nodes : List Ptr} (spares : s.Spares t supply (s.stage t)) (ar : Addr) :
    ¬ s.Strays (.advance t supply nodes) ar := by
  unfold Strays
  cases stage : s.stage t with
  | stored i size =>
    simp only [stage] at spares ⊢
    rintro ⟨_, refused⟩
    simp [Spares, refused] at spares
  | _ => simp [stage]

theorem Careful.keeps {u : Use I T} (careful : s.Careful u) : s.Keeps u := by
  cases u with
  | act action =>
    cases action with
    | advance t supply nodes =>
      refine ⟨careful.1, ?_⟩
      rintro _ ⟨⟩
      exact ⟨careful.2.loses_none, careful.2.strays_none⟩
    | malloc _ _ _ | free _ _ _ | exit _ _ =>
      refine ⟨careful, ?_⟩
      rintro _ ⟨⟩
      exact ⟨fun r => id, fun ar => id⟩
  | write a v => exact ⟨careful, fun _ act => nomatch act⟩

theorem run_keeps [DecidableEq I] [DecidableEq T] (run : Runs Fresh Keeps use s) :
    (∀ r, ¬ s.process.Lost r) ∧ ∀ ar, ¬ s.Astray ar := by
  induction run with
  | start fresh => simp [Process.Lost, Memory.Has, Astray, fresh.1, fresh.2.1]
  | @step s s' use run keeps stepped ih =>
    have uses : s.Uses := run.mono fun _ _ => And.left
    obtain ⟨d, separated⟩ := uses.separated
    obtain ⟨orderly, keeps⟩ := keeps
    cases use with
    | act action =>
      obtain ⟨chunks, arenas⟩ := keeps action rfl
      refine ⟨fun r gone => ?_, fun ar astray => ?_⟩
      · exact ((separated.lost_step orderly stepped).mp gone).elim (ih.1 r) (chunks r)
      · exact ((uses.housed.astray_step orderly.admissible stepped).mp astray).elim (ih.2 ar) (arenas ar)
    | write a v =>
      obtain rfl := Except.ok.inj stepped
      exact ih

end Threads

namespace Closing

variable {I T : Type}

/-- The iterations of the destructor come to every chunk: first those of the arena of the thread,
when it shrinks, and after that those of the arenas on the list. -/
def Clean [DecidableEq T] (t : T) (s : Closing I T) (next : Next I) : Prop :=
  s.Suited t next ∧ (∀ ar ∈ (s.threads.pools next.pool).arena t, ∀ r, ¬ s.threads.process.Missed ar r) ∧
    ∀ process pool, s.exit t next = .ok (process, pool) → ∀ ar ∈ (s.threads.pools next.pool).arenas,
      ∀ r, ¬ process.Missed ar r

/-- The same, as far as it can be computed: no node of the maps is left out. -/
def Covers [DecidableEq T] (t : T) (s : Closing I T) (next : Next I) : Prop :=
  s.Suited t next ∧
    (∀ ar ∈ (s.threads.pools next.pool).arena t, ∀ arena ∈ s.threads.process.objects.lookup ar, arena.Covered) ∧
    ∀ result ∈ (s.exit t next).toOption, ∀ ar ∈ (s.threads.pools next.pool).arenas,
      ∀ arena ∈ result.1.objects.lookup ar, arena.Covered

instance [DecidableEq I] [DecidableEq T] (t : T) (s : Closing I T) (next : Next I) : Decidable (s.Covers t next) := by
  unfold Covers
  infer_instance

variable [DecidableEq T] {s s' : Closing I T} {t : T} {next : Next I} {home : Addr → Option I} {d : Deeds}
  {process : Process} {pool : Pool T} {r : Addr}

theorem Covers.clean (covers : s.Covers t next) : s.Clean t next := by
  refine ⟨covers.1, fun ar mine => Process.misses_none (covers.2.1 ar mine), fun process pool exits ar listed => ?_⟩
  exact Process.misses_none (covers.2.2 (process, pool) (by simp [exits, Except.toOption]) ar listed)

theorem Stands.lost_exit (stands : s.Stands home d) (suited : s.Suited t next)
    (run : s.exit t next = .ok (process, pool)) :
    process.Lost r ↔ s.threads.process.Lost r ∨
      ∃ ar ∈ (s.threads.pools next.pool).arena t, s.threads.process.Missed ar r := by
  unfold Closing.exit Pool.exit at run
  split at run
  next without =>
    obtain ⟨rfl, rfl⟩ : s.threads.process = process ∧ _ = pool := by simpa using run
    simp [without]
  next ar holds =>
    obtain ⟨process₁, released, run⟩ := bind_eq_ok run
    obtain ⟨rfl, rfl⟩ : process₁ = process ∧ _ = pool := by simpa using run
    obtain ⟨arena, found, released⟩ := bind_eq_ok released
    obtain ⟨⟨mem, arena'⟩, shrunk, released⟩ := bind_eq_ok released
    obtain rfl := Except.ok.inj released
    have found := lookup_of_deref found
    obtain ⟨tree, possesses⟩ := stands.possesses ar arena found
    obtain ⟨d', ⟨divided, ⟨tree', possesses'⟩, leaves⟩, accounts⟩ :=
      possesses.shrink stands.divided (suited.2 ar holds arena found) shrunk
    have after : _ ↔ s.threads.process.Lost r ∨ _ := stands.possesses.lost_insert (.old found possesses.maps.stores)
      ⟨divided, ⟨tree', possesses'.flag false⟩, leaves⟩ accounts
    rw [Arena.release, after, ← Process.missed_iff found possesses.maps.stores]
    simp [holds]

/-- The destructor of a pool loses what its iterations do not come to, and nothing else. -/
theorem Stands.lost_step (stands : s.Stands home d) (suited : s.Suited t next)
    (exits : s.exit t next = .ok (process, pool)) (stepped : s.step t next = .ok s') :
    s'.threads.process.Lost r ↔ s.threads.process.Lost r ∨
      (∃ ar ∈ (s.threads.pools next.pool).arena t, s.threads.process.Missed ar r) ∨
      ∃ ar ∈ (s.threads.pools next.pool).arenas, process.Missed ar r := by
  obtain ⟨process', d', same, ended, possesses, _⟩ := stands.destroy suited exits
  obtain rfl := Except.ok.inj (same.symm.trans stepped)
  rw [ended.lost possesses, stands.lost_exit suited exits, or_assoc]

/-- What is left of the pools of the threads, after some of them have ended. -/
structure Left (threads : Threads I T) (s : Closing I T) : Prop where
  pools : s.threads.pools = threads.pools
  arenas : ∀ ar, (∃ arena, s.threads.process.objects.lookup ar = some arena) ↔
    (∃ arena, threads.process.objects.lookup ar = some arena) ∧ ∀ i ∈ s.closed, ar ∉ (threads.pools i).arenas
  lost : ∀ r, s.threads.process.Lost r ↔ threads.process.Lost r

theorem Left.step {threads : Threads I T} (left : Left threads s) (stands : s.Stands home d) (clean : s.Clean t next)
    (stepped : s.step t next = .ok s') : Left threads s' := by
  obtain ⟨suited, own, others⟩ := clean
  obtain ⟨_, destroyed, _⟩ := bind_eq_ok stepped
  obtain ⟨⟨process, pool⟩, exits, _⟩ := bind_eq_ok destroyed
  obtain ⟨process', d', same, ended, _⟩ := stands.destroy suited exits
  have lost : ∀ r, s'.threads.process.Lost r ↔ s.threads.process.Lost r := fun r => by
    rw [stands.lost_step suited exits stepped, or_iff_left]
    rintro (⟨ar, mine, missed⟩ | ⟨ar, listed, missed⟩)
    · exact own ar mine r missed
    · exact others process pool exits ar listed r missed
  obtain rfl := Except.ok.inj (same.symm.trans stepped)
  refine ⟨left.pools, fun ar => ?_, fun r => (lost r).trans (left.lost r)⟩
  rw [ended.arenas, left.pools]
  by_cases listed : ar ∈ (threads.pools next.pool).arenas
  · simp [listed]
  · have exist : (∃ arena, process.objects.lookup ar = some arena) ↔
        ∃ arena, s.threads.process.objects.lookup ar = some arena :=
      (stands.exit suited exits).2.2 ar
    simp [listed, exist, left.arenas]

variable [DecidableEq I]

theorem run_left {threads : Threads I T} (uses : threads.Uses)
    (run : Runs (fun s => s = { threads, closed := [] }) (Clean t) (step t) s) :
    Left threads s ∧ ∃ home d, s.Stands home d := by
  apply Runs.invariant _ _ run
  · rintro s rfl
    exact ⟨⟨rfl, by simp, fun _ => Iff.rfl⟩, Stands.start uses⟩
  · rintro s next s' ⟨left, home, d, stands⟩ clean stepped
    exact ⟨left.step stands clean stepped, home, stands.step clean.1 stepped⟩

/-- Once every pool with an arena has ended, exactly those arenas are left that are on no list. A
chunk is left exactly if it is in the map of one of them, or was in no map when the first pool
began to end. When nothing was lost before, and no thread was in a call, nothing is left. -/
theorem run_leaves {threads : Threads I T} (uses : threads.Uses)
    (run : Runs (fun s => s = { threads, closed := [] }) (Clean t) (step t) s)
    (all : ∀ i, (threads.pools i).arenas ≠ [] → i ∈ s.closed) :
    (∀ ar, (∃ arena, s.threads.process.objects.lookup ar = some arena) ↔
      (∃ arena, threads.process.objects.lookup ar = some arena) ∧ ∀ i, ar ∉ (threads.pools i).arenas) ∧
    (∀ r, s.threads.process.mem.Has r ↔ threads.process.Lost r ∨
      ∃ ar arena tree, s.threads.process.objects.lookup ar = some arena ∧ arena.chunks.Stores tree ∧
        r ∈ tree.mapped) ∧
    (Runs Threads.Fresh Threads.Keeps Threads.use threads → (∀ u, threads.stage u = .idle) →
      (∀ ar, s.threads.process.objects.lookup ar = none) ∧ ∀ r, s.threads.process.mem.chunks.lookup r = none) := by
  obtain ⟨left, home, d, stands⟩ := run_left uses run
  have arenas : ∀ ar, (∃ arena, s.threads.process.objects.lookup ar = some arena) ↔
      (∃ arena, threads.process.objects.lookup ar = some arena) ∧ ∀ i, ar ∉ (threads.pools i).arenas := by
    refine fun ar => (left.arenas ar).trans (and_congr_right fun _ => ?_)
    refine ⟨fun away i listed => ?_, fun away i _ => away i⟩
    exact away i (all i (List.ne_nil_of_mem listed)) listed
  have chunks : ∀ r, s.threads.process.mem.Has r ↔ threads.process.Lost r ∨
      ∃ ar arena tree, s.threads.process.objects.lookup ar = some arena ∧ arena.chunks.Stores tree ∧
        r ∈ tree.mapped := by
    intro r
    rw [← left.lost, stands.possesses.has_iff]
  refine ⟨arenas, chunks, fun kept idle => ?_⟩
  obtain ⟨notLost, notAstray⟩ := Threads.run_keeps kept
  have gone : ∀ ar, s.threads.process.objects.lookup ar = none := by
    intro ar
    by_contra there
    obtain ⟨exist, unlisted⟩ := (arenas ar).mp (Option.ne_none_iff_exists'.mp there)
    refine notAstray ar ⟨exist, unlisted, fun u => ?_⟩
    simp [Threads.Publishes, idle u]
  refine ⟨gone, fun r => ?_⟩
  by_contra there
  rcases (chunks r).mp (Option.ne_none_iff_exists'.mp there) with lost | ⟨ar, arena, _, found, _⟩
  · exact notLost r lost
  · simp [gone ar] at found

/-- The arena of one thread is on no list, as its node could not be made; the other thread ends
the pool, and its own arena with it. -/
theorem astray_run : ∃ (threads : Threads Unit Bool) (s : Closing Unit Bool), threads.Uses ∧
    Runs (fun s => s = { threads, closed := [] }) (Clean true) (step true) s ∧ s.closed = [()] ∧
    (s.threads.process.objects.lookup 1).isSome ∧ (s.threads.process.objects.lookup 2).isNone := by
  have computed : ((replay Threads.Orderly Threads.use (Threads.unused : Threads Unit Bool)
      [.act (.malloc false () 16), .act (.malloc true () 16),
        .act (.advance false ⟨none, none, none, none, none, none, 0⟩ []),
        .act (.advance true ⟨none, none, none, none, none, none, 0⟩ []),
        .act (.advance false ⟨some 1, some 8192, some 1, none, none, none, 0⟩ []),
        .act (.advance true ⟨some 2, some 16384, some 1, none, none, none, 0⟩ []),
        .act (.advance false ⟨none, none, none, none, none, none, 0⟩ []),
        .act (.advance true ⟨none, none, none, none, none, none, 0⟩ []),
        .act (.advance false ⟨none, none, none, none, none, none, 0⟩ []),
        .act (.advance true ⟨none, none, none, some 3, none, none, 0⟩ []),
        .act (.advance true ⟨none, none, none, none, none, none, 0⟩ [])]).bind fun threads =>
      (replay (Covers true) (step true) (⟨threads, []⟩ : Closing Unit Bool)
        [⟨(), 1, [some 4], none, none⟩]).map fun s =>
        (s.closed, (s.threads.process.objects.lookup 1).isSome, (s.threads.process.objects.lookup 2).isNone)) =
      some ([()], true, true) := by decide +kernel
  obtain ⟨threads, replayed, computed⟩ := Option.bind_eq_some_iff.mp computed
  obtain ⟨s, closed, same⟩ := Option.map_eq_some_iff.mp computed
  obtain ⟨ended, rest⟩ := Prod.mk.inj same
  obtain ⟨left, gone⟩ := Prod.mk.inj rest
  have run : Runs (fun s => s = { threads, closed := [] }) (Covers true) (step true) s :=
    replay_runs _ (.start rfl) closed
  exact ⟨threads, s, replay_runs _ (.start ⟨rfl, rfl, rfl, rfl, rfl⟩) replayed, run.mono fun _ _ => Covers.clean,
    ended, left, gone⟩

/-- Both threads publish their arenas and get a block; one frees its block, the other one ends. -/
theorem kept_run : ∃ (threads : Threads Unit Bool) (s : Closing Unit Bool),
    Runs Threads.Fresh Threads.Keeps Threads.use threads ∧
    Runs (fun s => s = { threads, closed := [] }) (Clean true) (step true) s ∧ s.closed = [()] ∧
    (threads.pools ()).arenas = [2, 1] ∧ threads.stage false = .idle ∧ threads.stage true = .idle := by
  have computed : ((replay Threads.Careful Threads.use (Threads.unused : Threads Unit Bool)
      [.act (.malloc false () 16), .act (.malloc true () 16),
        .act (.advance false ⟨none, none, none, none, none, none, 0⟩ []),
        .act (.advance true ⟨none, none, none, none, none, none, 0⟩ []),
        .act (.advance false ⟨some 1, some 8192, some 1, none, none, none, 0⟩ []),
        .act (.advance true ⟨some 2, some 16384, some 1, none, none, none, 0⟩ []),
        .act (.advance false ⟨none, none, none, none, none, none, 0⟩ []),
        .act (.advance true ⟨none, none, none, none, none, none, 0⟩ []),
        .act (.advance false ⟨none, none, none, some 3, none, none, 0⟩ []),
        .act (.advance true ⟨none, none, none, some 4, none, none, 0⟩ []),
        .act (.advance false ⟨none, none, none, none, none, none, 0⟩ []),
        .act (.advance true ⟨none, none, none, none, none, none, 0⟩ []),
        .write 16408 7, .act (.free true () 16408), .act (.exit false ()),
        .act (.advance false ⟨none, none, none, none, none, none, 1⟩ [some 5]),
        .act (.advance false ⟨none, none, none, none, none, none, 0⟩ [])]).bind fun threads =>
      (replay (Covers true) (step true) (⟨threads, []⟩ : Closing Unit Bool)
        [⟨(), 1, [some 6], none, none⟩]).map fun s =>
        (s.closed, (threads.pools ()).arenas, decide (threads.stage false = .idle ∧ threads.stage true = .idle))) =
      some ([()], [2, 1], true) := by decide +kernel
  obtain ⟨threads, replayed, computed⟩ := Option.bind_eq_some_iff.mp computed
  obtain ⟨s, closed, same⟩ := Option.map_eq_some_iff.mp computed
  obtain ⟨ended, rest⟩ := Prod.mk.inj same
  obtain ⟨arenas, idle⟩ := Prod.mk.inj rest
  have kept : Runs Threads.Fresh Threads.Careful Threads.use threads :=
    replay_runs _ (.start ⟨rfl, rfl, rfl, rfl, rfl⟩) replayed
  have run : Runs (fun s => s = { threads, closed := [] }) (Covers true) (step true) s :=
    replay_runs _ (.start rfl) closed
  exact ⟨threads, s, kept.mono fun _ _ => Threads.Careful.keeps, run.mono fun _ _ => Covers.clean, ended, arenas,
    of_decide_eq_true idle⟩

/-- One arena is left when the node of it could not be made, and nothing when nothing was lost. -/
theorem run_leaves_one :
    (∃ (threads : Threads Unit Bool) (s : Closing Unit Bool),
      (∃ arena, s.threads.process.objects.lookup 1 = some arena) ∧ s.threads.process.objects.lookup 2 = none ∧
      (∀ ar, (∃ arena, s.threads.process.objects.lookup ar = some arena) ↔
        (∃ arena, threads.process.objects.lookup ar = some arena) ∧ ∀ i, ar ∉ (threads.pools i).arenas) ∧
      ∀ r, s.threads.process.mem.Has r ↔ threads.process.Lost r ∨
        ∃ ar arena tree, s.threads.process.objects.lookup ar = some arena ∧ arena.chunks.Stores tree ∧
          r ∈ tree.mapped) ∧
    ∃ (threads : Threads Unit Bool) (s : Closing Unit Bool), (threads.pools ()).arenas = [2, 1] ∧
      (∀ ar, s.threads.process.objects.lookup ar = none) ∧ ∀ r, s.threads.process.mem.chunks.lookup r = none := by
  constructor
  · obtain ⟨threads, s, uses, run, ended, left, gone⟩ := astray_run
    have all := run_leaves uses run fun i _ => by simp [ended]
    exact ⟨threads, s, Option.isSome_iff_exists.mp left, Option.isNone_iff_eq_none.mp gone, all.1, all.2.1⟩
  · obtain ⟨threads, s, kept, run, ended, arenas, idle⟩ := kept_run
    have all := run_leaves (kept.mono fun _ _ => And.left) run fun i _ => by simp [ended]
    exact ⟨threads, s, arenas, all.2.2 kept fun u => by cases u <;> simp [idle]⟩

end Closing

end SmallObject
