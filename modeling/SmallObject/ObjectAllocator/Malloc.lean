import SmallObject.ObjectAllocator
import SmallObject.Pool.Threads

/-! The sizes of the blocks that `object_allocator::malloc` returns.

The block size of an arena is the size of the request that constructed it, for as long as the
arena exists. The pool is chosen by the rounded size, but the arena is made for the size itself,
so a later request of the same pool can be larger than the blocks of the arena that serves it.
-/

set_option autoImplicit false

namespace SmallObject

open Linked Execution

/-- An arena that was constructed for a request is large enough for this size. -/
def Event.Allows (ar : Addr) (size : Nat) : Event → Prop
  | constructed made first => made = ar → size ≤ first
  | served _ _ _ => True

namespace Threads

variable {I T : Type}

/-- The block sizes of the arenas that exist. -/
def sizes (s : Threads I T) (ar : Addr) : Option Nat := (s.process.objects.lookup ar).map Arena.blockSize

/-- What a step adds to the history, and what it does to the block sizes. -/
inductive Recorded (s : Threads I T) (t : T) (s' : Threads I T) : Prop where
  | nothing : s'.log = s.log → s'.sizes = s.sizes → Recorded s t s'
  | constructed {ar : Addr} {size : Nat} : s.sizes ar = none → s'.log = .constructed ar size :: s.log →
      s'.sizes = Function.update s.sizes ar (some size) → Recorded s t s'
  | served {i : I} {size : Nat} {ar block : Addr} : s.stage t = .serving i size →
      (s.pools i).arena t = some ar → (s.sizes ar).isSome → s'.log = .served ar size block :: s.log →
      s'.sizes = s.sizes → Recorded s t s'

/-- The size of the request that an arena was constructed for is its block size. -/
def Sized (s : Threads I T) : Prop := ∀ ar size, .constructed ar size ∈ s.log ↔ s.sizes ar = some size

/-- Blocks are from arenas that exist. -/
def Known (s : Threads I T) : Prop := ∀ ar size block, .served ar size block ∈ s.log → (s.sizes ar).isSome = true

/-- Every block that was returned is from an arena with blocks of at least the size asked for. -/
def Roomy (s : Threads I T) : Prop :=
  ∀ ar size block, .served ar size block ∈ s.log →
    ∃ arena, s.process.objects.lookup ar = some arena ∧ size ≤ arena.blockSize

/-- No request was larger than the one that its arena was constructed for. -/
def Ordered (s : Threads I T) : Prop :=
  ∀ ar size block first, .served ar size block ∈ s.log → .constructed ar first ∈ s.log → size ≤ first

/-- In this stage of a thread, a request that is about to be served is not larger than the one
that its arena was constructed for. -/
def FitsIn (s : Threads I T) (t : T) : Stage I → Prop
  | .serving i size => ∀ ar ∈ (s.pools i).arena t, ∀ e ∈ s.log, e.Allows ar size
  | _ => True

def Fits (s : Threads I T) (action : Action I T) : Prop := s.FitsIn action.thread (s.stage action.thread)

variable {s s' : Threads I T} {t : T} {ar : Addr} {arena arena' : Arena} {mem : Memory}

theorem sizes_store (s : Threads I T) (mem : Memory) (ar : Addr) (arena : Arena) :
    (s.store mem ar arena).sizes = Function.update s.sizes ar (some arena.blockSize) := by
  funext b
  by_cases same : b = ar
  · subst same
    simp [sizes, store]
  · simp [sizes, store, same, AList.lookup_insert_ne same]

theorem sizes_store_same (found : s.process.objects.lookup ar = some arena)
    (same : arena'.blockSize = arena.blockSize) : (s.store mem ar arena').sizes = s.sizes := by
  have present : s.sizes ar = some arena.blockSize := by simp [sizes, found]
  rw [sizes_store, same, ← present, Function.update_eq_self]

section Runs

variable [DecidableEq I] [DecidableEq T]

theorem Moves.recorded (moves : Moves s t s') : Recorded s t s' := by
  cases moves with
  | frees alike =>
    apply Recorded.nothing
    · rfl
    · funext ar
      simpa [sizes, Function.comp_def] using congrArg (Option.map Prod.fst) (alike ar)
  | wins stage found _ => exact .nothing rfl (sizes_store_same found rfl)
  | loses stage found _ => exact .nothing rfl (sizes_store_same found rfl)
  | @builds i size mem ar arena stage _ fresh same _ =>
    have without : s.sizes ar = none := by simp [sizes, fresh]
    apply Recorded.constructed without
    · rfl
    · exact same ▸ sizes_store s mem ar arena
  | serves stage holds found alike =>
    exact .served stage holds (by simp [sizes, found]) rfl (sizes_store_same found alike.1)
  | fails stage found alike => exact .nothing rfl (sizes_store_same found alike.1)
  | shrinks stage found alike => exact .nothing rfl (sizes_store_same found alike.1)
  | clears stage found => exact .nothing rfl (sizes_store_same found rfl)
  | _ => exact .nothing rfl rfl

end Runs

theorem Recorded.sized (recorded : Recorded s t s') (sized : s.Sized) : s'.Sized := by
  intro ar size
  cases recorded with
  | nothing log sizes => rw [log, sizes, sized ar size]
  | @constructed new first fresh log sizes =>
    rw [log, sizes, List.mem_cons, sized ar size]
    by_cases same : ar = new
    · subst same
      simp [fresh, eq_comm]
    · simp [same]
  | served _ _ _ log sizes => simp [log, sizes, sized ar size]

theorem Recorded.known (recorded : Recorded s t s') (known : s.Known) : s'.Known := by
  intro ar size block event
  cases recorded with
  | nothing log sizes =>
    rw [log] at event
    exact sizes ▸ known ar size block event
  | @constructed new first fresh log sizes =>
    rw [log] at event
    have before := known ar size block (by simpa using event)
    by_cases same : ar = new
    · simp [sizes, same]
    · rwa [sizes, Function.update_of_ne same]
  | @served i asked owner given stage holds made log sizes =>
    rw [log] at event
    rcases List.mem_cons.mp event with now | before
    · obtain ⟨rfl, _⟩ : ar = owner ∧ _ := by simpa using now
      exact sizes ▸ made
    · exact sizes ▸ known ar size block before

theorem Recorded.ordered {action : Action I T} (recorded : Recorded s action.thread s') (known : s.Known)
    (fits : s.Fits action) (ordered : s.Ordered) : s'.Ordered := by
  intro ar size block first event origin
  cases recorded with
  | nothing log _ =>
    rw [log] at event origin
    exact ordered ar size block first event origin
  | @constructed new asked fresh log _ =>
    rw [log] at event origin
    have event' : Event.served ar size block ∈ s.log := by simpa using event
    rcases List.mem_cons.mp origin with now | before
    · -- an arena that was constructed just now has not served any request
      obtain ⟨rfl, _⟩ : ar = new ∧ _ := by simpa using now
      have made := known ar size block event'
      simp [fresh] at made
    · exact ordered ar size block first event' before
  | @served i asked owner given stage holds _ log _ =>
    rw [log] at event origin
    have origin' : Event.constructed ar first ∈ s.log := by simpa using origin
    rcases List.mem_cons.mp event with now | before
    · obtain ⟨rfl, rfl, _⟩ : ar = owner ∧ size = asked ∧ _ := by simpa using now
      rw [Fits, stage] at fits
      exact fits ar holds _ origin' rfl
    · exact ordered ar size block first before origin'

/-- The lengths of the blocks are decided by the history of the requests. -/
theorem roomy_iff_ordered (sized : s.Sized) (known : s.Known) : s.Roomy ↔ s.Ordered := by
  constructor
  · intro roomy ar size block first event origin
    obtain ⟨arena, found, room⟩ := roomy ar size block event
    have made := (sized ar first).mp origin
    simp only [sizes, found, Option.map_some, Option.some.injEq] at made
    exact made ▸ room
  · intro ordered ar size block event
    obtain ⟨first, made⟩ := Option.isSome_iff_exists.mp (known ar size block event)
    have room := ordered ar size block first event ((sized ar first).mpr made)
    obtain ⟨arena, found, rfl⟩ := Option.map_eq_some_iff.mp made
    exact ⟨arena, found, room⟩

theorem Fresh.recorded (fresh : Fresh s) : s.Sized ∧ s.Known ∧ s.Ordered := by
  obtain ⟨objects, _, _, _, log⟩ := fresh
  simp [Sized, Known, Ordered, log, sizes, objects]

end Threads

namespace ObjectAllocator

variable {W : Nat} {T : Type}

/-- A request goes to the pool of its size, which is one of those that the constructor built. -/
def Routed (T : Type) (W : Nat) : Action (SizeT W) T → Prop
  | .malloc _ i size => size < 2 ^ (8 * W) ∧ i = get (BitVec.ofNat (8 * W) size) ∧ (poolAt T i).isSome = true
  | _ => True

/-- What the threads of a system with one allocator do. -/
def Proper (s : Threads (SizeT W) T) (action : Action (SizeT W) T) : Prop :=
  s.Admissible action ∧ Routed T W action

variable [DecidableEq T] {s : Threads (SizeT W) T}

open Threads

/-- In every run, blocks are long enough exactly as far as the requests were in order. -/
theorem run_roomy_iff_ordered (run : Runs Fresh Proper step s) : s.Roomy ↔ s.Ordered := by
  have both : s.Sized ∧ s.Known := by
    apply Runs.invariant _ _ run
    · intro s fresh
      exact ⟨fresh.recorded.1, fresh.recorded.2.1⟩
    · rintro s action s' ⟨sized, known⟩ proper stepped
      have recorded := (step_moves proper.1 stepped).recorded
      exact ⟨recorded.sized sized, recorded.known known⟩
  exact roomy_iff_ordered both.1 both.2

/-- No block is too short in a run in which no arena serves a request that is larger than the
one that it was constructed for. -/
theorem run_roomy (run : Runs Fresh (fun s action => Proper s action ∧ s.Fits action) step s) : s.Roomy := by
  have ordered : s.Known ∧ s.Ordered := by
    apply Runs.invariant _ _ run
    · intro s fresh
      exact fresh.recorded.2
    · rintro s action s' ⟨known, ordered⟩ ⟨proper, fits⟩ stepped
      have recorded := (step_moves proper.1 stepped).recorded
      exact ⟨recorded.known known, recorded.ordered known fits ordered⟩
  have proper : Runs Fresh Proper step s := run.mono fun _ _ both => both.1
  exact (run_roomy_iff_ordered proper).mpr ordered.2

/-! ## Runs that can be computed -/

instance (action : Action (SizeT W) T) : Decidable (Routed T W action) :=
  match action with
  | .malloc _ _ _ => inferInstanceAs (Decidable (_ ∧ _ ∧ _))
  | .free _ _ _ | .exit _ _ | .advance _ _ _ => isTrue trivial

instance (s : Threads (SizeT W) T) (action : Action (SizeT W) T) : Decidable (Proper s action) :=
  inferInstanceAs (Decidable (_ ∧ _))

instance (ar : Addr) (size : Nat) (e : Event) : Decidable (e.Allows ar size) :=
  match e with
  | .constructed _ _ => inferInstanceAs (Decidable (_ → _))
  | .served _ _ _ => isTrue trivial

instance (s : Threads (SizeT W) T) (t : T) (stage : Stage (SizeT W)) : Decidable (s.FitsIn t stage) :=
  match stage with
  | .serving i size => inferInstanceAs (Decidable (∀ ar ∈ (s.pools i).arena t, ∀ e ∈ s.log, e.Allows ar size))
  | .idle | .scanning _ _ _ | .won _ _ _ | .scanned _ _ | .built _ _ _ | .stored _ _ | .leaving _ | .releasing _ =>
    isTrue trivial

instance (s : Threads (SizeT W) T) (action : Action (SizeT W) T) : Decidable (s.Fits action) :=
  inferInstanceAs (Decidable (s.FitsIn action.thread (s.stage action.thread)))

/-- The allocators of the system are not asked for anything. -/
def quiet : Supply :=
  { object := none, first := none, firstNode := none, link := none, region := none, node := none, room := 0 }

/-- A call of a thread that has no arena, in a pool without arenas. -/
def firstCall (t : T) (i : SizeT W) (size : Nat) : List (Action (SizeT W) T) :=
  [.malloc t i size, .advance t quiet [],
    .advance t { quiet with object := some 1, first := some 16384, firstNode := some 2 } [],
    .advance t quiet [], .advance t { quiet with link := some 3 } [], .advance t quiet []]

/-- Two requests that are rounded up to three words, the smaller one after the larger one. -/
theorem run_roomy_shared : ∃ s : Threads (SizeT 8) Nat, s.log.length = 3 ∧ s.Roomy := by
  have computed : (replay (fun s action => Proper s action ∧ s.Fits action) step (unused : Threads (SizeT 8) Nat)
      (firstCall 0 1 24 ++ [.malloc 0 1 17, .advance 0 quiet []])).map (fun s => s.log.length) = some 3 := by
    decide +kernel
  obtain ⟨s, replayed, events⟩ := Option.map_eq_some_iff.mp computed
  exact ⟨s, events, run_roomy (replay_runs _ (.start ⟨rfl, rfl, rfl, rfl, rfl⟩) replayed)⟩

/-- The larger one after the smaller one. -/
theorem short_block : ∃ s : Threads (SizeT 8) Nat, Runs Fresh Proper step s ∧ ∃ ar size block arena,
    .served ar size block ∈ s.log ∧ s.process.objects.lookup ar = some arena ∧ arena.blockSize < size := by
  have computed : (replay Proper step (unused : Threads (SizeT 8) Nat)
      (firstCall 0 1 17 ++ [.malloc 0 1 24, .advance 0 quiet []])).map (fun s => (s.log, s.sizes 1)) =
      some ([.served 1 24 16425, .served 1 17 16408, .constructed 1 17], some 17) := by decide +kernel
  obtain ⟨s, replayed, same⟩ := Option.map_eq_some_iff.mp computed
  obtain ⟨log, size⟩ : s.log = _ ∧ s.sizes 1 = some 17 := by simpa using same
  obtain ⟨arena, found, short⟩ := Option.map_eq_some_iff.mp size
  refine ⟨s, replay_runs _ (.start ⟨rfl, rfl, rfl, rfl, rfl⟩) replayed, 1, 24, 16425, arena, ?_, found, by omega⟩
  rw [log]
  exact List.mem_cons_self

end ObjectAllocator

end SmallObject
