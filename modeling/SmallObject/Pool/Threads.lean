import SmallObject.Library.Custody
import SmallObject.Library.Execution
import SmallObject.Pool.Calls

/-! Any number of threads in the pools of a system, step by step.

A step is one `test_and_set` of the loop of `pool::reserve`, one store of the thread specific
pointer, the construction of an arena, one `push_front`, one call of `arena::malloc`, one
call of `pool::free`, or one of the two calls of the cleanup function. Between any two steps
of a thread the other threads may take steps of their own.
-/

set_option autoImplicit false

namespace SmallObject

open Linked Custody Execution

/-- Where a thread is: outside of the pools, in the code of a call of `malloc`, or in the
cleanup function, which its thread specific pointer does not name any more. -/
inductive Stage (I : Type) where
  | idle
  /-- The loop of `reserve`, with the arenas that are still ahead of the iterator. -/
  | scanning (i : I) (size : Nat) (rest : List Addr)
  | won (i : I) (size : Nat) (ar : Addr)
  /-- The loop is over. -/
  | scanned (i : I) (size : Nat)
  | built (i : I) (size : Nat) (ar : Addr)
  | stored (i : I) (size : Nat)
  | serving (i : I) (size : Nat)
  | leaving (ar : Addr)
  | releasing (ar : Addr)
  deriving DecidableEq, Repr

namespace Stage

variable {I : Type}

/-- The arena that a thread in this stage has outside of its thread specific pointers. -/
def hand : Stage I → Ptr
  | won _ _ ar | built _ _ ar | leaving ar | releasing ar => some ar
  | _ => none

/-- The pool that a thread in this stage looks for an arena in. -/
def seeks : Stage I → Option I
  | scanning i _ _ | won i _ _ | built i _ _ => some i
  | _ => none

end Stage

/-- What has happened; an event names the arena and the size of the request. -/
inductive Event where
  | constructed (ar : Addr) (size : Nat)
  | served (ar : Addr) (size : Nat) (block : Addr)
  deriving DecidableEq, Repr

/-- The pools are told apart by an index. -/
structure Threads (I T : Type) where
  process : Process
  pools : I → Pool T
  stage : T → Stage I
  log : List Event

/-- What a thread does next. The answers of the system are those to the requests that the
step makes; of the nodes, `shrink` uses as many as it needs. -/
inductive Action (I T : Type) where
  | malloc (t : T) (i : I) (size : Nat)
  | free (t : T) (i : I) (ptr : Addr)
  | exit (t : T) (i : I)
  | advance (t : T) (supply : Supply) (nodes : List Ptr)

def Action.thread {I T : Type} : Action I T → T
  | malloc t _ _ | free t _ _ | exit t _ | advance t _ _ => t

namespace Threads

variable {I T : Type}

def store (s : Threads I T) (mem : Memory) (ar : Addr) (arena : Arena) : Threads I T :=
  { s with process := { mem, objects := s.process.objects.insert ar arena } }

def record (s : Threads I T) (e : Event) : Threads I T := { s with log := e :: s.log }

section Steps

variable [DecidableEq I] [DecidableEq T]

def goto (s : Threads I T) (t : T) (stage : Stage I) : Threads I T :=
  { s with stage := Function.update s.stage t stage }

def reset (s : Threads I T) (i : I) (t : T) (ar : Ptr) : Threads I T :=
  { s with pools := Function.update s.pools i ((s.pools i).reset t ar) }

def pushFront (s : Threads I T) (i : I) (ar : Addr) : Threads I T :=
  { s with pools := Function.update s.pools i ((s.pools i).pushFront ar) }

/-- `new arena(size)`. When the constructor throws, the object is gone and its chunk stays. -/
def construct (s : Threads I T) (t : T) (i : I) (size : Nat) (supply : Supply) : Except Fault (Threads I T) :=
  match supply.object with
  | none => .ok (s.goto t .idle)
  | some ar =>
    match Arena.init s.process.mem size supply.first supply.firstNode with
    | .error .badAlloc => do
      let (mem, _) ← Arena.createNewChunk s.process.mem size supply.first
      .ok ({ s with process := { s.process with mem } }.goto t .idle)
    | .error e => .error e
    | .ok (mem, arena) => .ok (((s.store mem ar arena).record (.constructed ar size)).goto t (.built i size ar))

/-- `arena_->malloc()`. -/
def serve (s : Threads I T) (t : T) (ar : Addr) (size : Nat) (supply : Supply) : Except Fault (Threads I T) := do
  let arena ← deref s.process.objects (some ar)
  let (reply, mem, arena) ← arena.malloc s.process.mem supply.region supply.node
  match reply with
  | .returned (some p) => .ok (((s.store mem ar arena).record (.served ar size p)).goto t .idle)
  | _ => .ok ((s.store mem ar arena).goto t .idle)

/-- The next step of a thread in the code that it is in. -/
def advance (s : Threads I T) (t : T) (supply : Supply) (nodes : List Ptr) : Except Fault (Threads I T) :=
  match s.stage t with
  | .idle => .ok s
  | .scanning i size [] => .ok (s.goto t (.scanned i size))
  | .scanning i size (it :: rest) => do
    let ar ← deref s.process.objects (some it)
    let (won, ar) := ar.reserve
    let s := s.store s.process.mem it ar
    if won then .ok (s.goto t (.won i size it)) else .ok (s.goto t (.scanning i size rest))
  | .won i size ar => .ok ((s.reset i t (some ar)).goto t (.scanned i size))
  | .scanned i size =>
    match (s.pools i).arena t with
    | some _ => .ok (s.goto t (.serving i size))
    | none => s.construct t i size supply
  | .built i size ar => .ok ((s.reset i t (some ar)).goto t (.stored i size))
  -- the list node may not be had: the arena is the thread's then, and on no list
  | .stored i size => do
    let ar ← nonNull ((s.pools i).arena t)
    match supply.link with
    | none => .ok (s.goto t .idle)
    | some _ => .ok ((s.pushFront i ar).goto t (.serving i size))
  | .serving i size => do
    let ar ← nonNull ((s.pools i).arena t)
    s.serve t ar size supply
  | .leaving ar => do
    let arena ← deref s.process.objects (some ar)
    let (mem, arena) ← arena.shrink s.process.mem supply.room nodes supply.region supply.node
    .ok ((s.store mem ar arena).goto t (.releasing ar))
  | .releasing ar => do
    let arena ← deref s.process.objects (some ar)
    .ok ((s.store s.process.mem ar arena.release).goto t .idle)

/-- Calls begin, and a thread ends, only outside of the pools; an action that does not fit
leaves the state as it is. A thread that ends empties its pointer before the cleanup. -/
def step (s : Threads I T) : Action I T → Except Fault (Threads I T)
  | .malloc t i size =>
    match s.stage t, (s.pools i).arena t with
    | .idle, none => .ok (s.goto t (.scanning i size (s.pools i).arenas))
    | .idle, some _ => .ok (s.goto t (.serving i size))
    | _, _ => .ok s
  | .free t i ptr =>
    match s.stage t with
    | .idle => do
      let process ← (s.pools i).free s.process t ptr
      .ok { s with process }
    | _ => .ok s
  | .exit t i =>
    match s.stage t, (s.pools i).arena t with
    | .idle, some ar => .ok ((s.reset i t none).goto t (.leaving ar))
    | _, _ => .ok s
  | .advance t supply nodes => s.advance t supply nodes

end Steps

/-- No pool has been used. -/
def Fresh (s : Threads I T) : Prop :=
  s.process.objects = ∅ ∧ s.process.mem.chunks = ∅ ∧ s.pools = (fun _ => .init) ∧ s.stage = (fun _ => .idle) ∧
    s.log = []

/-- `new` does not return the address of an arena that exists. -/
def Admissible (s : Threads I T) : Action I T → Prop
  | .advance _ supply _ => ∀ ar, supply.object = some ar → s.process.objects.lookup ar = none
  | _ => True

def Run [DecidableEq I] [DecidableEq T] : Threads I T → Prop := Runs Fresh Admissible step

instance (s : Threads I T) (action : Action I T) : Decidable (s.Admissible action) :=
  match action with
  | .advance _ supply _ =>
    inferInstanceAs (Decidable (∀ ar ∈ supply.object, s.process.objects.lookup ar = none))
  | .malloc _ _ _ | .free _ _ _ | .exit _ _ => isTrue trivial

def unused : Threads I T :=
  { process := { mem := .unallocated, objects := ∅ }, pools := fun _ => .init, stage := fun _ => .idle, log := [] }

/-! ## What the updates leave as it is -/

section Updates

variable {t u : T} {i j : I}

@[simp] theorem stage_store (s : Threads I T) (mem : Memory) (ar : Addr) (arena : Arena) :
    (s.store mem ar arena).stage = s.stage := rfl

@[simp] theorem pools_store (s : Threads I T) (mem : Memory) (ar : Addr) (arena : Arena) :
    (s.store mem ar arena).pools = s.pools := rfl

@[simp] theorem stage_record (s : Threads I T) (e : Event) : (s.record e).stage = s.stage := rfl

@[simp] theorem pools_record (s : Threads I T) (e : Event) : (s.record e).pools = s.pools := rfl

section Pools

variable [DecidableEq I]

@[simp] theorem stage_pushFront (s : Threads I T) (i : I) (ar : Addr) : (s.pushFront i ar).stage = s.stage := rfl

@[simp] theorem arena_pushFront (s : Threads I T) (i j : I) (ar : Addr) :
    ((s.pushFront i ar).pools j).arena = (s.pools j).arena := by
  by_cases same : j = i
  · subst same
    simp [pushFront, Pool.pushFront]
  · simp [pushFront, same]

end Pools

variable [DecidableEq T]

@[simp] theorem stage_goto (s : Threads I T) (t : T) (stage : Stage I) : (s.goto t stage).stage t = stage :=
  Function.update_self ..

theorem stage_goto_ne (other : u ≠ t) (s : Threads I T) (stage : Stage I) :
    (s.goto t stage).stage u = s.stage u := Function.update_of_ne other ..

@[simp] theorem pools_goto (s : Threads I T) (t : T) (stage : Stage I) : (s.goto t stage).pools = s.pools := rfl

variable [DecidableEq I]

@[simp] theorem stage_reset (s : Threads I T) (i : I) (t : T) (p : Ptr) : (s.reset i t p).stage = s.stage := rfl

theorem arena_reset_ne (other : u ≠ t) (s : Threads I T) (i j : I) (p : Ptr) :
    ((s.reset i t p).pools j).arena u = (s.pools j).arena u := by
  by_cases same : j = i
  · subst same
    simp [reset, Pool.reset, other]
  · simp [reset, same]

end Updates

/-! ## What a step can do -/

section Moves

variable [DecidableEq I] [DecidableEq T]

/-- The effects of the admissible steps of a thread, by the stage that it is in. -/
inductive Moves (s : Threads I T) (t : T) : Threads I T → Prop where
  | stays : Moves s t s
  | starts {i : I} {size : Nat} : s.stage t = .idle → (s.pools i).arena t = none →
      Moves s t (s.goto t (.scanning i size (s.pools i).arenas))
  | resumes {i : I} {size : Nat} : s.stage t = .idle → Moves s t (s.goto t (.serving i size))
  | frees {process : Process} : s.process.Alike process → Moves s t { s with process }
  | exits {i : I} {ar : Addr} : s.stage t = .idle → (s.pools i).arena t = some ar →
      Moves s t ((s.reset i t none).goto t (.leaving ar))
  | ends {i : I} {size : Nat} : s.stage t = .scanning i size [] → Moves s t (s.goto t (.scanned i size))
  | wins {i : I} {size : Nat} {it : Addr} {rest : List Addr} {arena : Arena} :
      s.stage t = .scanning i size (it :: rest) → s.process.objects.lookup it = some arena →
      arena.reserved = false → Moves s t ((s.store s.process.mem it arena.reserve.2).goto t (.won i size it))
  | loses {i : I} {size : Nat} {it : Addr} {rest : List Addr} {arena : Arena} :
      s.stage t = .scanning i size (it :: rest) → s.process.objects.lookup it = some arena →
      arena.reserved = true → Moves s t ((s.store s.process.mem it arena.reserve.2).goto t (.scanning i size rest))
  | keeps {i : I} {size : Nat} {ar : Addr} : s.stage t = .won i size ar →
      Moves s t ((s.reset i t (some ar)).goto t (.scanned i size))
  | finds {i : I} {size : Nat} : s.stage t = .scanned i size → Moves s t (s.goto t (.serving i size))
  | builds {i : I} {size : Nat} {mem : Memory} {ar : Addr} {arena : Arena} : s.stage t = .scanned i size →
      (s.pools i).arena t = none → s.process.objects.lookup ar = none → arena.blockSize = size →
      arena.reserved = true →
      Moves s t (((s.store mem ar arena).record (.constructed ar size)).goto t (.built i size ar))
  | stores {i : I} {size : Nat} {ar : Addr} : s.stage t = .built i size ar →
      Moves s t ((s.reset i t (some ar)).goto t (.stored i size))
  | publishes {i : I} {size : Nat} {ar : Addr} : s.stage t = .stored i size →
      Moves s t ((s.pushFront i ar).goto t (.serving i size))
  /-- `std::bad_alloc` leaves a call before an arena is asked for a block. -/
  | throws (mem : Memory) : (s.stage t).hand = none →
      Moves s t ({ s with process := { s.process with mem } }.goto t .idle)
  | serves {i : I} {size : Nat} {mem : Memory} {ar block : Addr} {arena arena' : Arena} :
      s.stage t = .serving i size → (s.pools i).arena t = some ar → s.process.objects.lookup ar = some arena →
      arena.Alike arena' → Moves s t (((s.store mem ar arena').record (.served ar size block)).goto t .idle)
  | fails {i : I} {size : Nat} {mem : Memory} {ar : Addr} {arena arena' : Arena} :
      s.stage t = .serving i size → s.process.objects.lookup ar = some arena →
      arena.Alike arena' → Moves s t ((s.store mem ar arena').goto t .idle)
  | shrinks {mem : Memory} {ar : Addr} {arena arena' : Arena} : s.stage t = .leaving ar →
      s.process.objects.lookup ar = some arena → arena.Alike arena' →
      Moves s t ((s.store mem ar arena').goto t (.releasing ar))
  | clears {ar : Addr} {arena : Arena} : s.stage t = .releasing ar → s.process.objects.lookup ar = some arena →
      Moves s t ((s.store s.process.mem ar arena.release).goto t .idle)

variable {s s' : Threads I T} {t : T}

theorem construct_moves {i : I} {size : Nat} {supply : Supply} (stage : s.stage t = .scanned i size)
    (without : (s.pools i).arena t = none)
    (fresh : ∀ ar, supply.object = some ar → s.process.objects.lookup ar = none)
    (run : s.construct t i size supply = .ok s') : Moves s t s' := by
  unfold construct at run
  split at run
  · obtain rfl := Except.ok.inj run
    exact .throws s.process.mem (by rw [stage]; rfl)
  next ar object =>
    split at run
    · obtain ⟨⟨mem, first⟩, _, rest⟩ := bind_eq_ok run
      obtain rfl := Except.ok.inj rest
      exact .throws mem (by rw [stage]; rfl)
    · cases run
    next mem arena made =>
      obtain rfl := Except.ok.inj run
      obtain ⟨size', reserved⟩ := Arena.init_alike made
      exact .builds stage without (fresh ar object) size' reserved

theorem serve_moves {i : I} {size : Nat} {ar : Addr} {supply : Supply} (stage : s.stage t = .serving i size)
    (holds : (s.pools i).arena t = some ar) (run : s.serve t ar size supply = .ok s') : Moves s t s' := by
  obtain ⟨arena, found, run⟩ := bind_eq_ok run
  obtain ⟨⟨reply, mem, arena'⟩, called, run⟩ := bind_eq_ok run
  have alike := Arena.malloc_alike called
  simp only at run
  split at run
  · obtain rfl := Except.ok.inj run
    exact .serves stage holds (lookup_of_deref found) alike
  · obtain rfl := Except.ok.inj run
    exact .fails stage (lookup_of_deref found) alike

/-- One case for each stage, in the order of the code. -/
theorem advance_moves {supply : Supply} {nodes : List Ptr}
    (fresh : ∀ ar, supply.object = some ar → s.process.objects.lookup ar = none)
    (run : s.advance t supply nodes = .ok s') : Moves s t s' := by
  unfold advance at run
  cases stage : s.stage t with
  | idle =>
    simp only [stage] at run
    obtain rfl := Except.ok.inj run
    exact .stays
  | scanning i size rest =>
    cases rest with
    | nil =>
      simp only [stage] at run
      obtain rfl := Except.ok.inj run
      exact .ends stage
    | cons it rest =>
      simp only [stage] at run
      obtain ⟨arena, found, run⟩ := bind_eq_ok run
      have present := lookup_of_deref found
      cases flag : arena.reserved with
      | false =>
        simp only [Arena.reserve, flag, Bool.not_false, if_true] at run
        obtain rfl := Except.ok.inj run
        exact .wins stage present flag
      | true =>
        simp only [Arena.reserve, flag, Bool.not_true, Bool.false_eq_true, if_false] at run
        obtain rfl := Except.ok.inj run
        exact .loses stage present flag
  | won i size ar =>
    simp only [stage] at run
    obtain rfl := Except.ok.inj run
    exact .keeps stage
  | scanned i size =>
    simp only [stage] at run
    split at run
    · obtain rfl := Except.ok.inj run
      exact .finds stage
    next without => exact construct_moves stage without fresh run
  | built i size ar =>
    simp only [stage] at run
    obtain rfl := Except.ok.inj run
    exact .stores stage
  | stored i size =>
    simp only [stage] at run
    obtain ⟨ar, _, run⟩ := bind_eq_ok run
    split at run
    · obtain rfl := Except.ok.inj run
      exact .throws s.process.mem (by rw [stage]; rfl)
    · obtain rfl := Except.ok.inj run
      exact .publishes stage
  | serving i size =>
    simp only [stage] at run
    obtain ⟨ar, holds, run⟩ := bind_eq_ok run
    exact serve_moves stage (nonNull_eq_ok holds) run
  | leaving ar =>
    simp only [stage] at run
    obtain ⟨arena, found, run⟩ := bind_eq_ok run
    obtain ⟨⟨mem, arena'⟩, shrunk, run⟩ := bind_eq_ok run
    obtain rfl := Except.ok.inj run
    exact .shrinks stage (lookup_of_deref found) (Arena.shrink_alike shrunk)
  | releasing ar =>
    simp only [stage] at run
    obtain ⟨arena, found, run⟩ := bind_eq_ok run
    obtain rfl := Except.ok.inj run
    exact .clears stage (lookup_of_deref found)

theorem step_moves {action : Action I T} (admissible : s.Admissible action) (run : s.step action = .ok s') :
    Moves s action.thread s' := by
  cases action with
  | malloc t i size =>
    simp only [step] at run
    split at run
    next stage without =>
      obtain rfl := Except.ok.inj run
      exact .starts stage without
    -- with an arena already the call goes to it at once
    next stage _ =>
      obtain rfl := Except.ok.inj run
      exact .resumes stage
    next =>
      obtain rfl := Except.ok.inj run
      exact .stays
  | free t i ptr =>
    simp only [step] at run
    split at run
    · obtain ⟨process, freed, run⟩ := bind_eq_ok run
      obtain rfl := Except.ok.inj run
      exact .frees (Pool.free_spares 0 freed).2
    · obtain rfl := Except.ok.inj run
      exact .stays
  | exit t i =>
    simp only [step] at run
    split at run
    next stage holds =>
      obtain rfl := Except.ok.inj run
      exact .exits stage holds
    next =>
      obtain rfl := Except.ok.inj run
      exact .stays
  | advance t supply nodes => exact advance_moves admissible run

end Moves

end Threads

end SmallObject
