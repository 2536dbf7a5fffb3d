import Mathlib.Logic.Relation
import SmallObject.Pool.Free
import SmallObject.Pool.Threads

/-! Whole operations as the steps of one thread in a row.

When no other thread takes a step during a call, the steps of the call come to what the
operation of `Pool` computes. So every run of whole operations is a run of steps.
-/

set_option autoImplicit false

namespace SmallObject

open Linked Execution Relation

namespace Threads

variable {I T : Type}

/-- One thread is at a stage, with these arenas and this pool; the other threads and the other
pools are as before. The log is left open. -/
structure At (s : Threads I T) (t : T) (i : I) (process : Process) (pool : Pool T) (stage : Stage I)
    (s' : Threads I T) : Prop where
  process : s'.process = process
  pool : s'.pools i = pool
  pools : ∀ j, j ≠ i → s'.pools j = s.pools j
  stage : s'.stage t = stage
  stages : ∀ u, u ≠ t → s'.stage u = s.stage u

/-! ## The updates of a step -/

namespace At

variable {s s' : Threads I T} {t : T} {i : I} {process : Process} {pool : Pool T} {stage : Stage I}

theorem self (s : Threads I T) (t : T) (i : I) : s.At t i s.process (s.pools i) (s.stage t) s :=
  ⟨rfl, rfl, fun _ _ => rfl, rfl, fun _ _ => rfl⟩

theorem store (here : s.At t i process pool stage s') (mem : Memory) (ar : Addr) (arena : Arena) :
    s.At t i { mem, objects := process.objects.insert ar arena } pool stage (s'.store mem ar arena) :=
  ⟨by rw [Threads.store, here.process], here.pool, here.pools, here.stage, here.stages⟩

theorem record (here : s.At t i process pool stage s') (e : Event) :
    s.At t i process pool stage (s'.record e) :=
  ⟨here.process, here.pool, here.pools, here.stage, here.stages⟩

theorem goto [DecidableEq T] (here : s.At t i process pool stage s') (next : Stage I) :
    s.At t i process pool next (s'.goto t next) :=
  ⟨here.process, here.pool, here.pools, stage_goto s' t next,
    fun u other => (stage_goto_ne other s' next).trans (here.stages u other)⟩

theorem pushFront [DecidableEq I] (here : s.At t i process pool stage s') (ar : Addr) :
    s.At t i process (pool.pushFront ar) stage (s'.pushFront i ar) where
  process := here.process
  pool := by simp [Threads.pushFront, here.pool]
  pools j other := by simp [Threads.pushFront, other, here.pools j other]
  stage := here.stage
  stages := here.stages

theorem reset [DecidableEq I] [DecidableEq T] (here : s.At t i process pool stage s') (p : Ptr) :
    s.At t i process (pool.reset t p) stage (s'.reset i t p) where
  process := here.process
  pool := by simp [Threads.reset, here.pool]
  pools j other := by simp [Threads.reset, other, here.pools j other]
  stage := here.stage
  stages := here.stages

end At

variable [DecidableEq I] [DecidableEq T]

/-- The thread goes on. -/
def Advances (t : T) (s s' : Threads I T) : Prop :=
  ∃ supply nodes, s.Admissible (.advance t supply nodes) ∧ s.advance t supply nodes = .ok s'

/-- For a step that asks the system for nothing. -/
def nothing : Supply :=
  { object := none, first := none, firstNode := none, link := none, region := none, node := none, room := 0 }

/-- The thread goes on from a state until it is at a stage. -/
def Reaches (s : Threads I T) (t : T) (i : I) (process : Process) (pool : Pool T) (stage : Stage I)
    (first : Threads I T) : Prop :=
  ∃ s', ReflTransGen (Advances t) first s' ∧ s.At t i process pool stage s'

variable {s s₁ s₂ : Threads I T} {t : T} {i : I} {process process' : Process} {pool pool' : Pool T}
  {stage : Stage I} {size : Nat} {supply : Supply}

namespace Reaches

theorem here (there : s.At t i process pool stage s₁) : s.Reaches t i process pool stage s₁ := ⟨s₁, .refl, there⟩

theorem step (supply : Supply) (nodes : List Ptr) (next : Threads I T)
    (admissible : s₁.Admissible (.advance t supply nodes)) (run : s₁.advance t supply nodes = .ok next)
    (rest : s.Reaches t i process pool stage next) :
    s.Reaches t i process pool stage s₁ := by
  obtain ⟨s', more, there⟩ := rest
  exact ⟨s', .head ⟨supply, nodes, admissible, run⟩ more, there⟩

/-- A step that asks for no new arena. -/
theorem quiet (supply : Supply) (nodes : List Ptr) (next : Threads I T) (none : supply.object = none)
    (run : s₁.advance t supply nodes = .ok next) (rest : s.Reaches t i process pool stage next) :
    s.Reaches t i process pool stage s₁ :=
  rest.step supply nodes next (fun ar object => by simp [none] at object) run

theorem trans {process₁ : Process} {pool₁ : Pool T} {stage₁ : Stage I}
    (first : s.Reaches t i process₁ pool₁ stage₁ s₁)
    (rest : ∀ s₂, s.At t i process₁ pool₁ stage₁ s₂ → s.Reaches t i process pool stage s₂) :
    s.Reaches t i process pool stage s₁ := by
  obtain ⟨s₂, steps, there⟩ := first
  obtain ⟨s', more, there'⟩ := rest s₂ there
  exact ⟨s', steps.trans more, there'⟩

end Reaches

/-! ## The calls -/

/-- The loop of `reserve`, and the store of what it has won. -/
theorem At.scan {list : List Addr} {objects : Heap Arena} {won : Ptr}
    (here : s.At t i process pool (.scanning i size list) s₁)
    (run : Pool.scan process.objects list = .ok (objects, won)) :
    s.Reaches t i { process with objects } (if won.isSome then pool.reset t won else pool) (.scanned i size) s₁ := by
  induction list generalizing s₁ process with
  | nil =>
    obtain ⟨rfl, rfl⟩ : process.objects = objects ∧ none = won := by simpa [Pool.scan] using run
    apply Reaches.quiet nothing [] (s₁.goto t (.scanned i size)) rfl
    · simp [advance, here.stage]
    · exact .here (here.goto _)
  | cons it rest ih =>
    obtain ⟨arena, found, run⟩ := bind_eq_ok run
    have stored := here.store process.mem it arena.reserve.2
    cases flag : arena.reserved with
    | false =>
      simp only [Arena.reserve, flag, Bool.not_false, if_true, Except.ok.injEq, Prod.mk.injEq] at run
      obtain ⟨rfl, rfl⟩ := run
      apply Reaches.quiet nothing [] ((s₁.store process.mem it arena.reserve.2).goto t (.won i size it)) rfl
      · simp [advance, here.stage, here.process, found, Arena.reserve, flag]
      -- the flag is set in one step, and the pointer in the next one
      apply Reaches.quiet nothing [] _ rfl
      · simp only [advance, stage_goto]
        rfl
      · exact .here (((stored.goto _).reset (some it)).goto _)
    | true =>
      simp only [Arena.reserve, flag, Bool.not_true, Bool.false_eq_true, if_false] at run
      apply Reaches.quiet nothing [] ((s₁.store process.mem it arena.reserve.2).goto t (.scanning i size rest)) rfl
      · simp [advance, here.stage, here.process, found, Arena.reserve, flag]
      · have reached := ih (stored.goto (.scanning i size rest)) run
        exact reached

omit [DecidableEq I] [DecidableEq T] in
/-- The loop makes no arena. -/
theorem scan_absent {list : List Addr} {objects objects' : Heap Arena} {won : Ptr} {ar : Addr}
    (absent : objects.lookup ar = none) (run : Pool.scan objects list = .ok (objects', won)) :
    objects'.lookup ar = none := by
  induction list generalizing objects with
  | nil =>
    obtain ⟨rfl, _⟩ : objects = objects' ∧ none = won := by simpa [Pool.scan] using run
    exact absent
  | cons it rest ih =>
    obtain ⟨arena, found, run⟩ := bind_eq_ok run
    have other : ar ≠ it := by
      rintro rfl
      simp [lookup_of_deref found] at absent
    have absent' : (objects.insert it arena.reserve.2).lookup ar = none := by
      rwa [AList.lookup_insert_ne other]
    simp only at run
    split at run
    · simp only [Except.ok.injEq, Prod.mk.injEq] at run
      exact run.1 ▸ absent'
    · exact ih absent' run

/-- `reserve` from its loop on. -/
theorem At.reserve (here : s.At t i process pool (.scanning i size pool.arenas) s₁)
    (new : ∀ ar, supply.object = some ar → process.objects.lookup ar = none)
    (run : pool.reserve process t size supply = .ok (process', pool')) :
    s.Reaches t i process' pool' (.serving i size) s₁ := by
  obtain ⟨⟨objects, won⟩, scanned, run⟩ := bind_eq_ok run
  apply (here.scan scanned).trans
  intro s₂ there
  simp only at run there
  generalize (if won.isSome = true then pool.reset t won else pool) = pool₁ at run there
  cases holds : pool₁.arena t with
  | some ar =>
    simp only [holds, Except.ok.injEq, Prod.mk.injEq] at run
    obtain ⟨rfl, rfl⟩ := run
    apply Reaches.quiet nothing [] (s₂.goto t (.serving i size)) rfl
    · simp [advance, there.stage, there.pool, holds]
    · exact .here (there.goto _)
  | none =>
    simp only [holds] at run
    obtain ⟨ar, object, run⟩ := bind_eq_ok run
    obtain ⟨⟨mem, arena⟩, made, run⟩ := bind_eq_ok run
    obtain ⟨link, linked, run⟩ := bind_eq_ok run
    simp only [Except.ok.injEq, Prod.mk.injEq] at run
    obtain ⟨rfl, rfl⟩ := run
    have object := newObject_eq_ok.mp object
    -- the loop has set flags, and made no object
    have absent : s₂.process.objects.lookup ar = none := by
      rw [there.process]
      exact scan_absent (new ar object) scanned
    apply Reaches.step supply []
      (((s₂.store mem ar arena).record (.constructed ar size)).goto t (.built i size ar))
    · intro a same
      obtain rfl : ar = a := Option.some.inj (object.symm.trans same)
      exact absent
    · simp [advance, there.stage, there.pool, holds, construct, object, there.process, made]
    have built := ((there.store mem ar arena).record (.constructed ar size)).goto (.built i size ar)
    apply Reaches.quiet nothing [] _ rfl
    · simp only [advance, built.stage]
      rfl
    have stored := (built.reset (some ar)).goto (.stored i size)
    have mine : (pool₁.reset t (some ar)).arena t = some ar := Function.update_self ..
    apply Reaches.quiet { supply with object := none } [] _ rfl
    · simp only [advance, stored.stage, stored.pool, mine, nonNull_some, ok_bind, newObject_eq_ok.mp linked]
      rfl
    · exact .here ((stored.pushFront ar).goto _)

/-- The call on the arena that the thread holds. -/
theorem At.serve (here : s.At t i process pool (.serving i size) s₁) {ar : Addr} {arena arena' : Arena}
    {reply : Reply} {mem : Memory} (holds : pool.arena t = some ar)
    (found : deref process.objects (some ar) = .ok arena)
    (run : arena.malloc process.mem supply.region supply.node = .ok (reply, mem, arena')) :
    s.Reaches t i { mem, objects := process.objects.insert ar arena' } pool .idle s₁ := by
  have stored := here.store mem ar arena'
  have served : ∃ s₂, s₁.advance t { supply with object := none } [] = .ok s₂ ∧
      s.At t i { mem, objects := process.objects.insert ar arena' } pool .idle s₂ := by
    simp only [advance, here.stage, here.pool, holds, nonNull_some, ok_bind, Threads.serve, here.process, found, run]
    split
    · exact ⟨_, rfl, (stored.record _).goto _⟩
    · exact ⟨_, rfl, stored.goto _⟩
  obtain ⟨s₂, step, there⟩ := served
  exact .quiet _ [] s₂ rfl step (.here there)

/-- A thread that is not interrupted in a call of `malloc` does what the operation does. -/
theorem malloc_alone {reply : Reply} (idle : s.stage t = .idle)
    (new : ∀ ar, supply.object = some ar → s.process.objects.lookup ar = none)
    (run : (s.pools i).malloc s.process t size supply = .ok (reply, process', pool')) :
    ∃ s₁, s.step (.malloc t i size) = .ok s₁ ∧ s.Reaches t i process' pool' .idle s₁ := by
  obtain ⟨⟨process₁, pool₁⟩, reserved, run⟩ := bind_eq_ok run
  obtain ⟨ar, holds, run⟩ := bind_eq_ok run
  obtain ⟨arena, found, run⟩ := bind_eq_ok run
  obtain ⟨⟨reply', mem, arena'⟩, called, run⟩ := bind_eq_ok run
  simp only [Except.ok.injEq, Prod.mk.injEq] at run
  obtain ⟨rfl, rfl, rfl⟩ := run
  have start := At.self s t i
  cases mine : (s.pools i).arena t with
  | none =>
    simp only [mine, Option.isNone_none, if_true] at reserved
    refine ⟨s.goto t (.scanning i size (s.pools i).arenas), by simp only [step, idle, mine], ?_⟩
    apply ((start.goto _).reserve new reserved).trans
    intro s₂ there
    exact there.serve (nonNull_eq_ok holds) found called
  | some a =>
    simp only [mine, Option.isNone_some, Bool.false_eq_true, if_false, Except.ok.injEq, Prod.mk.injEq] at reserved
    obtain ⟨rfl, rfl⟩ := reserved
    refine ⟨s.goto t (.serving i size), by simp only [step, idle, mine], ?_⟩
    exact (start.goto _).serve (nonNull_eq_ok holds) found called

/-- The same for the end of a thread. -/
theorem exit_alone {room : Nat} {nodes : List Ptr} {region node : Ptr} (idle : s.stage t = .idle)
    (run : (s.pools i).exit s.process t room nodes region node = .ok (process', pool')) :
    ∃ s₁, s.step (.exit t i) = .ok s₁ ∧ s.Reaches t i process' pool' .idle s₁ := by
  have start := At.self s t i
  rw [idle] at start
  unfold Pool.exit at run
  cases mine : (s.pools i).arena t with
  | none =>
    simp only [mine, Except.ok.injEq, Prod.mk.injEq] at run
    obtain ⟨rfl, rfl⟩ := run
    exact ⟨s, by simp only [step, idle, mine], .here start⟩
  | some ar =>
    simp only [mine] at run
    obtain ⟨process₁, released, run⟩ := bind_eq_ok run
    obtain ⟨arena, found, released⟩ := bind_eq_ok released
    obtain ⟨⟨mem, arena'⟩, shrunk, released⟩ := bind_eq_ok released
    simp only [Except.ok.injEq, Prod.mk.injEq] at run released
    obtain ⟨rfl, rfl⟩ := run
    subst released
    refine ⟨(s.reset i t none).goto t (.leaving ar), by simp only [step, idle, mine], ?_⟩
    -- the cleanup shrinks the arena, and then clears its flag
    have left := (start.reset none).goto (.leaving ar)
    apply Reaches.quiet { nothing with region, node, room } nodes _ rfl
    · simp only [advance, left.stage, left.process, found, shrunk, ok_bind]
      rfl
    have shrinks := (left.store mem ar arena').goto (.releasing ar)
    apply Reaches.quiet nothing [] _ rfl
    · simp only [advance, shrinks.stage, shrinks.process, deref_of_lookup (AList.lookup_insert _), ok_bind]
      rfl
    · have cleared := (shrinks.store mem ar arena'.release).goto .idle
      rw [AList.insert_insert] at cleared
      exact .here cleared

/-! ## Runs -/

theorem Run.advances (run : Run s) (steps : ReflTransGen (Advances t) s s₁) : Run s₁ := by
  induction steps with
  | refl => exact run
  | tail _ advances ih =>
    obtain ⟨supply, nodes, admissible, stepped⟩ := advances
    exact ih.step admissible stepped

omit [DecidableEq I] in
theorem At.idle (there : s.At t i process pool .idle s₁) (idle : ∀ u, s.stage u = .idle) (u : T) :
    s₁.stage u = .idle := by
  by_cases same : u = t
  · subst same
    exact there.stage
  · exact (there.stages u same).trans (idle u)

end Threads

namespace Usage

variable {T : Type} [DecidableEq T] {size : Nat}

/-- `new` does not return the address of an arena that exists. -/
def NewObjects (u : Usage T) : Call T → Prop
  | .malloc _ supply => ∀ ar, supply.object = some ar → u.process.objects.lookup ar = none
  | _ => True

/-- Every run of whole operations is a run of steps, after which no thread is in a call. -/
theorem run_steps {u : Usage T} (run : Runs Fresh NewObjects (step size) u) :
    ∃ s : Threads Unit T, s.Run ∧ s.process = u.process ∧ s.pools () = u.pool ∧ ∀ t, s.stage t = .idle := by
  -- the two states have the same memory and the same pool, with no thread in a call
  apply Runs.invariant _ _ run
  · rintro u ⟨objects, chunks, pool, _⟩
    let s : Threads Unit T := { process := u.process, pools := fun _ => u.pool, stage := fun _ => .idle, log := [] }
    exact ⟨s, .start ⟨objects, chunks, by simp [s, pool], rfl, rfl⟩, rfl, rfl, fun _ => rfl⟩
  · rintro u call u' ⟨s, run, process, pool, idle⟩ new stepped
    cases call with
    | malloc t supply =>
      obtain ⟨⟨reply, process', pool'⟩, called, rest⟩ := bind_eq_ok stepped
      obtain rfl := Except.ok.inj rest
      rw [← process, ← pool] at called
      obtain ⟨s₁, begun, s', steps, there⟩ := Threads.malloc_alone (idle t) (process ▸ new) called
      have calls : Threads.Run s₁ := run.step (a := .malloc t () size) trivial begun
      exact ⟨s', calls.advances steps, there.process, there.pool, there.idle idle⟩
    | free t ptr =>
      obtain ⟨process', freed, rest⟩ := bind_eq_ok stepped
      obtain rfl := Except.ok.inj rest
      have freed' : s.step (.free t () ptr) = .ok { s with process := process' } := by
        simp [Threads.step, idle t, pool, process, freed]
      exact ⟨_, run.step (a := .free t () ptr) trivial freed', rfl, pool, idle⟩
    | exit t room nodes region node =>
      obtain ⟨⟨process', pool'⟩, ended, rest⟩ := bind_eq_ok stepped
      obtain rfl := Except.ok.inj rest
      rw [← process, ← pool] at ended
      obtain ⟨s₁, begun, s', steps, there⟩ := Threads.exit_alone (idle t) ended
      have calls : Threads.Run s₁ := run.step (a := .exit t ()) trivial begun
      exact ⟨s', calls.advances steps, there.process, there.pool, there.idle idle⟩

end Usage

end SmallObject
