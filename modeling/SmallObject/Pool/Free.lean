import SmallObject.Library.Execution
import SmallObject.Pool.Calls

/-! `pool::free` in whole operations of any number of threads.

A block lies in the closed range of the chunk that issued it for as long as it is live,
whatever else has happened. In that range `chunk::release` refuses, so none of the
arenas that a call goes through gives the block back to its chunk.
-/

set_option autoImplicit false

namespace SmallObject

open Linked Execution

/-! ## What the calls of a pool keep -/

/-- All arenas and all chunks are for blocks of one size. -/
structure Process.Uniform (size : Nat) (process : Process) : Prop where
  shaped : process.mem.Shaped size
  arenas : ∀ ar arena, process.objects.lookup ar = some arena → arena.blockSize = size

namespace Pool

variable {T : Type} {size : Nat} {process process' : Process} {self self' : Pool T} {ptr ar : Addr}

/-- An arena is replaced by one of the same block size. -/
theorem uniform_insert {mem : Memory} {objects : Heap Arena} {arena : Arena} (shaped : mem.Shaped size)
    (arenas : ∀ ar arena, objects.lookup ar = some arena → arena.blockSize = size)
    (same : arena.blockSize = size) : Process.Uniform size { mem, objects := objects.insert ar arena } := by
  refine ⟨shaped, fun other found stored => ?_⟩
  by_cases here : other = ar
  · subst here
    obtain rfl : arena = found := by simpa using stored
    exact same
  · rw [AList.lookup_insert_ne here] at stored
    exact arenas other found stored

theorem scan_uniform {mem : Memory} {objects objects' : Heap Arena} {list : List Addr} {won : Ptr}
    (uniform : Process.Uniform size { mem, objects }) (run : scan objects list = .ok (objects', won)) :
    Process.Uniform size { mem, objects := objects' } := by
  induction list generalizing objects with
  | nil =>
    obtain ⟨rfl, _⟩ : objects = objects' ∧ _ := by simpa [scan] using run
    exact uniform
  | cons it rest ih =>
    obtain ⟨arena, found, run⟩ := bind_eq_ok run
    have same := uniform.arenas it arena (lookup_of_deref found)
    have next : Process.Uniform size { mem, objects := objects.insert it arena.reserve.2 } :=
      uniform_insert uniform.shaped uniform.arenas same
    simp only at run
    split at run
    · simp only [Except.ok.injEq, Prod.mk.injEq] at run
      exact run.1 ▸ next
    · exact ih next run

/-- A call of `free` keeps the arenas alike, whichever of them it goes through. -/
theorem free_uniform {t : T} (uniform : process.Uniform size) (run : self.free process t ptr = .ok process') :
    process'.Uniform size := by
  obtain ⟨spares, alike⟩ := free_spares size run
  refine ⟨spares.shaped uniform.shaped, fun ar arena found => ?_⟩
  obtain ⟨before, found', sizes, _⟩ := alike.before found
  exact sizes.trans (uniform.arenas ar before found')

variable [DecidableEq T]

theorem reserve_uniform {t : T} {supply : Supply} (uniform : process.Uniform size) (small : size ≤ 255)
    (run : self.reserve process t size supply = .ok (process', self')) : process'.Uniform size := by
  obtain ⟨⟨objects, won⟩, scanned, rest⟩ := bind_eq_ok run
  have afterScan : Process.Uniform size { process with objects } := scan_uniform uniform scanned
  simp only at rest
  split at rest
  · simp only [Except.ok.injEq, Prod.mk.injEq] at rest
    exact rest.1 ▸ afterScan
  · obtain ⟨ar, _, rest⟩ := bind_eq_ok rest
    obtain ⟨⟨mem, arena⟩, made, rest⟩ := bind_eq_ok rest
    obtain ⟨link, _, rest⟩ := bind_eq_ok rest
    simp only [Except.ok.injEq, Prod.mk.injEq] at rest
    obtain ⟨rfl, _⟩ := rest
    exact uniform_insert (Arena.init_shaped uniform.shaped small made) afterScan.arenas (Arena.init_alike made).1

theorem malloc_uniform {t : T} {supply : Supply} {reply : Reply} (uniform : process.Uniform size)
    (small : size ≤ 255) (run : self.malloc process t size supply = .ok (reply, process', self')) :
    process'.Uniform size ∧ ∀ p ar arena r, reply = .returned (some p) → self'.arena t = some ar →
      process'.objects.lookup ar = some arena → arena.allocCurrent = some r →
      r + sizeofChunk ≤ p ∧ p ≤ r + regionSize size := by
  obtain ⟨⟨process₁, pool₁⟩, reserved, run⟩ := bind_eq_ok run
  have uniform₁ : process₁.Uniform size := by
    split at reserved
    · exact reserve_uniform uniform small reserved
    · simp only [Except.ok.injEq, Prod.mk.injEq] at reserved
      exact reserved.1 ▸ uniform
  obtain ⟨ar, holds, run⟩ := bind_eq_ok run
  obtain ⟨arena, found, run⟩ := bind_eq_ok run
  obtain ⟨⟨reply', mem, arena'⟩, allocated, run⟩ := bind_eq_ok run
  simp only [Except.ok.injEq, Prod.mk.injEq] at run
  obtain ⟨rfl, rfl, rfl⟩ := run
  obtain rfl := uniform₁.arenas ar arena (lookup_of_deref found)
  obtain ⟨shaped, inside⟩ := Arena.malloc_shaped uniform₁.shaped small allocated
  refine ⟨uniform_insert shaped uniform₁.arenas (Arena.malloc_alike allocated).1,
    fun p other arena' r returned held stored current => ?_⟩
  -- the arena that the thread holds is the one that the block is from
  obtain rfl : ar = other := Option.some.inj ((nonNull_eq_ok holds).symm.trans held)
  obtain rfl : _ = arena' := by simpa using stored
  obtain ⟨r', current', range⟩ := inside p returned
  obtain rfl : r' = r := Option.some.inj (current'.symm.trans current)
  exact range

theorem exit_uniform {t : T} {room : Nat} {nodes : List Ptr} {region node : Ptr} (uniform : process.Uniform size)
    (small : size ≤ 255) (run : self.exit process t room nodes region node = .ok (process', self')) :
    process'.Uniform size := by
  unfold exit at run
  split at run
  · simp only [Except.ok.injEq, Prod.mk.injEq] at run
    exact run.1 ▸ uniform
  next ar _ =>
    obtain ⟨process₁, released, rest⟩ := bind_eq_ok run
    obtain ⟨arena, found, released⟩ := bind_eq_ok released
    obtain ⟨⟨mem, arena'⟩, shrunk, same⟩ := bind_eq_ok released
    simp only [Except.ok.injEq, Prod.mk.injEq] at rest same
    obtain ⟨rfl, _⟩ := rest
    obtain rfl := uniform.arenas ar arena (lookup_of_deref found)
    exact same ▸ uniform_insert (Arena.shrink_shaped uniform.shaped small shrunk) uniform.arenas
      (Arena.shrink_alike shrunk).1

end Pool

/-! ## Runs -/

/-- A live block: its address, the arena that returned it, and the chunk that it is from. -/
structure Issue where
  block : Addr
  arena : Addr
  chunk : Addr
  deriving DecidableEq, Repr

/-- A pool that threads use, with the blocks that are live, the latest first. -/
structure Usage (T : Type) where
  process : Process
  pool : Pool T
  live : List Issue

namespace Usage

/-- A whole operation of a thread, with what the allocators of the system return in it. -/
inductive Call (T : Type) where
  | malloc (t : T) (supply : Supply)
  | free (t : T) (ptr : Addr)
  | exit (t : T) (room : Nat) (nodes : List Ptr) (region node : Ptr)

variable {T : Type}

/-- The block that a call hands out; `alloc_current_` names the chunk that it is from. -/
def issues (reply : Reply) (process : Process) (pool : Pool T) (t : T) : List Issue :=
  match reply, pool.arena t with
  | .returned (some p), some ar =>
    match process.objects.lookup ar with
    | some arena => arena.allocCurrent.toList.map fun r => { block := p, arena := ar, chunk := r }
    | none => []
  | _, _ => []

def step [DecidableEq T] (size : Nat) (s : Usage T) : Call T → Except Fault (Usage T)
  | .malloc t supply => do
    let (reply, process, pool) ← s.pool.malloc s.process t size supply
    .ok { process, pool, live := issues reply process pool t ++ s.live }
  | .free t ptr => do
    let process ← s.pool.free s.process t ptr
    .ok { s with process, live := s.live.eraseP fun i => i.block = ptr }
  | .exit t room nodes region node => do
    let (process, pool) ← s.pool.exit s.process t room nodes region node
    .ok { s with process, pool }

/-- Before the first call: no arena, no chunk, and any bytes. -/
def Fresh (s : Usage T) : Prop :=
  s.process.objects = ∅ ∧ s.process.mem.chunks = ∅ ∧ s.pool = .init ∧ s.live = []

/-- Only live blocks are freed. -/
def Admissible (s : Usage T) : Call T → Prop
  | .free _ ptr => ∃ i ∈ s.live, i.block = ptr
  | _ => True

/-- The states of a pool that is used for blocks of one size. -/
def Run [DecidableEq T] (size : Nat) : Usage T → Prop := Runs Fresh Admissible (step size)

/-- What `free` is for: the block goes back to the chunk that issued it, and no other chunk
and no other arena changes. -/
def FreeMeets (size : Nat) (s : Usage T) (t : T) (i : Issue) : Prop :=
  ∃ process', s.pool.free s.process t i.block = .ok process' ∧
    s.process.mem.Returns size process'.mem i.chunk i.block ∧
    ∀ ar, ar ≠ i.arena → process'.objects.lookup ar = s.process.objects.lookup ar

/-- The invariant of all runs. -/
structure Confined (size : Nat) (s : Usage T) : Prop where
  uniform : s.process.Uniform size
  live : ∀ i ∈ s.live, i.chunk + sizeofChunk ≤ i.block ∧ i.block ≤ i.chunk + regionSize size

variable {size : Nat} {s s' : Usage T}

theorem Confined.free_misses (confined : s.Confined size) {i : Issue} (member : i ∈ s.live) (t : T) :
    ¬ FreeMeets size s t i := by
  rintro ⟨process', run, returns, _⟩
  obtain ⟨c, c', found, _⟩ := returns.head
  obtain ⟨begin, end_⟩ := confined.uniform.shaped i.chunk c found
  obtain ⟨low, high⟩ := confined.live i member
  have same := (Pool.free_spares size run).1.same i.chunk c found (begin ▸ low) (end_ ▸ high)
  exact Memory.not_returns (same.trans found.symm) returns

variable [DecidableEq T]

theorem Confined.malloc (confined : s.Confined size) (small : size ≤ 255) {t : T} {supply : Supply}
    (run : s.step size (.malloc t supply) = .ok s') : s'.Confined size := by
  obtain ⟨⟨reply, process, pool⟩, called, rest⟩ := bind_eq_ok run
  simp only [Except.ok.injEq] at rest
  obtain ⟨uniform, inside⟩ := Pool.malloc_uniform confined.uniform small called
  rw [← rest]
  refine ⟨uniform, fun i member => ?_⟩
  rcases List.mem_append.mp member with new | old
  · unfold issues at new
    split at new
    next p ar held =>
      split at new
      next arena found =>
        obtain ⟨r, current, rfl⟩ := List.mem_map.mp new
        exact inside p ar arena r rfl held found (Option.mem_toList.mp current)
      · simp at new
    · simp at new
  · exact confined.live i old

theorem Run.confined (small : size ≤ 255) (run : Run size s) : s.Confined size := by
  apply Runs.invariant _ _ run
  · rintro s ⟨objects, chunks, _, live⟩
    constructor
    · exact ⟨fun r c found => by simp [chunks] at found, fun ar arena found => by simp [objects] at found⟩
    · simp [live]
  · intro s call s' confined _ stepped
    cases call with
    | malloc t supply => exact confined.malloc small stepped
    | free t ptr =>
      obtain ⟨process, freed, rest⟩ := bind_eq_ok stepped
      simp only [Except.ok.injEq] at rest
      rw [← rest]
      exact ⟨Pool.free_uniform confined.uniform freed,
        fun i member => confined.live i (List.mem_of_mem_eraseP member)⟩
    | exit t room nodes region node =>
      obtain ⟨⟨process, pool⟩, ended, rest⟩ := bind_eq_ok stepped
      simp only [Except.ok.injEq] at rest
      rw [← rest]
      exact ⟨Pool.exit_uniform confined.uniform small ended, confined.live⟩

/-- In no state of any run, by no thread, and for no live block does `free` do what it is for. -/
theorem run_free_never_meets (small : size ≤ 255) (run : Run size s) {i : Issue} (member : i ∈ s.live) (t : T) :
    ¬ FreeMeets size s t i :=
  (run.confined small).free_misses member t

/-! ## Runs that can be computed -/

instance (call : Call T) : Decidable (s.Admissible call) :=
  match call with
  | .malloc _ _ => isTrue trivial
  | .free _ _ => inferInstanceAs (Decidable (∃ i ∈ s.live, _))
  | .exit _ _ _ _ _ => isTrue trivial

def unused : Usage T :=
  { process := { mem := .unallocated, objects := ∅ }, pool := .init, live := [] }

/-- Thread 0 has allocated a block, and thread 1 has not called yet. -/
theorem run_single : ∃ s : Usage Nat, Run 16 s ∧ s.live = [{ block := 16408, arena := 1, chunk := 16384 }] ∧
    s.pool.arena 1 = none := by
  have computed : (replay Admissible (step 16) (unused : Usage Nat)
      [.malloc 0 ⟨some 1, some 16384, some 2, some 3, none, none, 0⟩]).map (fun s => (s.live, s.pool.arena 1)) =
      some ([⟨16408, 1, 16384⟩], none) := by decide +kernel
  obtain ⟨s, replayed, same⟩ := Option.map_eq_some_iff.mp computed
  simp only [Prod.mk.injEq] at same
  exact ⟨s, replay_runs _ (.start ⟨rfl, rfl, rfl, rfl⟩) replayed, same.1, same.2⟩

/-- Two threads have an arena each. One of them has freed a block of the other, and frees another
one: the call completes, and that block does not go back either. -/
theorem run_free_never_meets_other : ∃ s : Usage Nat, Run 16 s ∧
    s.live = [{ block := 16424, arena := 1, chunk := 16384 }, { block := 32792, arena := 2, chunk := 32768 }] ∧
    s.pool.arena 1 = some 2 ∧ (∃ process, s.pool.free s.process 1 16424 = .ok process) ∧
    ¬ FreeMeets 16 s 1 { block := 16424, arena := 1, chunk := 16384 } := by
  have computed : (replay Admissible (step 16) (unused : Usage Nat)
      [.malloc 0 ⟨some 1, some 16384, some 2, some 3, none, none, 0⟩,
        .malloc 1 ⟨some 2, some 32768, some 4, some 5, none, none, 0⟩,
        .malloc 0 ⟨none, none, none, none, none, none, 0⟩, .free 1 16408]).map
      (fun s => (s.live, s.pool.arena 1, (s.pool.free s.process 1 16424).toOption.isSome)) =
      some ([⟨16424, 1, 16384⟩, ⟨32792, 2, 32768⟩], some 2, true) := by decide +kernel
  obtain ⟨s, replayed, same⟩ := Option.map_eq_some_iff.mp computed
  simp only [Prod.mk.injEq] at same
  obtain ⟨live, holds, frees⟩ := same
  have run : Run 16 s := replay_runs _ (.start ⟨rfl, rfl, rfl, rfl⟩) replayed
  obtain ⟨process, freed⟩ := Option.isSome_iff_exists.mp frees
  exact ⟨s, run, live, holds, ⟨process, ok_of_toOption freed⟩,
    run_free_never_meets (by decide) run (by rw [live]; exact List.mem_cons_self) 1⟩

/-- Neither the thread that allocated the only live block frees it, nor a thread that has no
arena, whose call dereferences a null pointer. -/
theorem free_fails : ∃ s : Usage Nat, Run 16 s ∧ ∃ i ∈ s.live, ¬ FreeMeets 16 s 0 i ∧
    s.pool.free s.process 1 i.block = .error .null := by
  obtain ⟨s, run, live, none⟩ := run_single
  have member : { block := 16408, arena := 1, chunk := 16384 } ∈ s.live := by simp [live]
  refine ⟨s, run, _, member, (run.confined (by decide)).free_misses member 0, ?_⟩
  simp [Pool.free, none]

end Usage

end SmallObject
