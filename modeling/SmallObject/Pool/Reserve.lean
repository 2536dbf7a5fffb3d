import SmallObject.Pool.Threads

/-! The flag of an arena and the threads that have it set.

The thread specific pointers of all threads and pools, and what each thread has in hand
while it is in the code of the pool, are the places of a ledger of arenas. Every step of a
thread is a step of that ledger, so no arena is ever in two places.
-/

set_option autoImplicit false

namespace SmallObject

open Linked Custody Execution

namespace Threads

variable {I T : Type}

/-- A place is a thread with one of the pools, or with none for what it has in hand. -/
def held (s : Threads I T) : T × Option I → Ptr
  | (t, none) => (s.stage t).hand
  | (t, some i) => (s.pools i).arena t

def flag (s : Threads I T) (ar : Addr) : Option Bool := (s.process.objects.lookup ar).map Arena.reserved

def ledger (s : Threads I T) : Ledger (T × Option I) Addr := { held := s.held, flag := s.flag }

/-- A thread that looks for an arena in a pool has none there. -/
def Seeking (s : Threads I T) : Prop := ∀ t i, (s.stage t).seeks = some i → (s.pools i).arena t = none

variable {s s' : Threads I T} {t u : T} {i : I} {ar : Addr} {arena arena' : Arena}

/-! ## The ledger after an update -/

section Updates

theorem flag_store (s : Threads I T) (mem : Memory) (ar : Addr) (arena : Arena) :
    (s.store mem ar arena).flag = Function.update s.flag ar (some arena.reserved) := by
  funext b
  by_cases same : b = ar
  · subst same
    simp [flag, store]
  · simp [flag, store, same, AList.lookup_insert_ne same]

theorem flag_store_same {mem : Memory} (found : s.process.objects.lookup ar = some arena)
    (same : arena'.reserved = arena.reserved) : (s.store mem ar arena').flag = s.flag := by
  have present : s.flag ar = some arena.reserved := by simp [flag, found]
  rw [flag_store, same, ← present, Function.update_eq_self]

variable [DecidableEq I]

theorem held_pushFront (s : Threads I T) (i : I) (ar : Addr) : (s.pushFront i ar).held = s.held := by
  funext ⟨u, place⟩
  cases place with
  | none => rfl
  | some j => exact congrFun (arena_pushFront s i j ar) u

variable [DecidableEq T]

theorem held_goto (s : Threads I T) (t : T) (stage : Stage I) :
    (s.goto t stage).held = Function.update s.held (t, none) stage.hand := by
  funext ⟨u, place⟩
  cases place with
  | none =>
    by_cases here : u = t
    · subst here
      simp [held]
    · simp [held, stage_goto_ne here, here]
  | some i => simp [held]

theorem held_reset (s : Threads I T) (i : I) (t : T) (p : Ptr) :
    (s.reset i t p).held = Function.update s.held (t, some i) p := by
  funext ⟨u, place⟩
  cases place with
  | none => simp [held, reset]
  | some j =>
    by_cases here : u = t
    · subst here
      by_cases same : j = i
      · subst same
        simp [held, reset, Pool.reset]
      · simp [held, reset, same]
    · simp [held, arena_reset_ne here, here]

/-- Moving on with the same arena in hand, or with none as before, changes no place. -/
theorem held_goto_same {stage : Stage I} (same : stage.hand = (s.stage t).hand) : (s.goto t stage).held = s.held := by
  rw [held_goto, same]
  exact Function.update_eq_self (t, none) s.held

end Updates

variable [DecidableEq I] [DecidableEq T]

/-! ## The steps of the ledger -/

theorem step_of {l : Ledger (T × Option I) Addr} (step : Custody.Step s.ledger l) (held : s'.held = l.held)
    (flag : s'.flag = l.flag) : Custody.Step s.ledger s'.ledger := by
  have same : s'.ledger = l := by rw [ledger, held, flag]
  rwa [same]

/-- The thread stores in its pointer what it has in hand. -/
theorem pass_of {stage : Stage I} (hand : (s.stage t).hand = some ar) (empty : (s.pools i).arena t = none)
    (after : stage.hand = none) : Custody.Step s.ledger ((s.reset i t (some ar)).goto t stage).ledger := by
  have here : s.ledger.held (t, none) = some ar := hand
  have there : s.ledger.held (t, some i) = none := empty
  apply step_of (.pass here there)
  · rw [held_goto, held_reset, after]
    exact Function.update_comm (by simp) _ _ s.held
  · rfl

/-- Every step of a thread takes at most one arena, passes one on, or gives one up. -/
theorem Moves.ledger (moves : Moves s t s') (seeking : s.Seeking) : Custody.Step s.ledger s'.ledger := by
  cases moves with
  | stays => exact .stay
  | starts stage _ => exact step_of .stay (held_goto_same (by rw [stage]; rfl)) rfl
  | resumes stage => exact step_of .stay (held_goto_same (by rw [stage]; rfl)) rfl
  | frees alike =>
    apply step_of .stay
    · rfl
    · funext ar
      simpa [ledger, flag, Function.comp_def] using congrArg (Option.map Prod.snd) (alike ar)
  | @exits i ar stage holds =>
    -- the pointer is emptied into the hands of the cleanup function
    have here : s.ledger.held (t, some i) = some ar := holds
    have there : s.ledger.held (t, none) = none := congrArg Stage.hand stage
    apply step_of (.pass here there)
    · rw [held_goto, held_reset]
      rfl
    · rfl
  | ends stage => exact step_of .stay (held_goto_same (by rw [stage]; rfl)) rfl
  | @wins i size it rest arena stage found clear =>
    have hand : s.ledger.held (t, none) = none := congrArg Stage.hand stage
    have open_ : s.ledger.flag it ≠ some true := by simp [ledger, flag, found, clear]
    apply step_of (.take hand open_) (held_goto _ t _)
    exact flag_store s s.process.mem it arena.reserve.2
  | loses stage found set =>
    -- a flag that is set already is set again
    exact step_of .stay (held_goto_same (congrArg Stage.hand stage).symm) (flag_store_same found set.symm)
  | keeps stage =>
    exact pass_of (congrArg Stage.hand stage) (seeking t _ (congrArg Stage.seeks stage)) rfl
  | finds stage => exact step_of .stay (held_goto_same (by rw [stage]; rfl)) rfl
  | @builds i size mem ar arena stage without fresh _ reserved =>
    have hand : s.ledger.held (t, none) = none := congrArg Stage.hand stage
    have new : s.ledger.flag ar ≠ some true := by simp [ledger, flag, fresh]
    apply step_of (.take hand new) (held_goto _ t _)
    exact (flag_store s mem ar arena).trans (by rw [reserved]; rfl)
  | stores stage =>
    exact pass_of (congrArg Stage.hand stage) (seeking t _ (congrArg Stage.seeks stage)) rfl
  | @publishes i size ar stage =>
    have hand : Stage.hand (.serving i size) = ((s.pushFront i ar).stage t).hand := (congrArg Stage.hand stage).symm
    apply step_of .stay
    · rw [held_goto_same hand]
      exact held_pushFront s i ar
    · rfl
  | throws mem hand => exact step_of .stay (held_goto_same hand.symm) rfl
  | serves stage _ found alike =>
    exact step_of .stay (held_goto_same (congrArg Stage.hand stage).symm) (flag_store_same found alike.2)
  | fails stage found alike =>
    exact step_of .stay (held_goto_same (congrArg Stage.hand stage).symm) (flag_store_same found alike.2)
  | shrinks stage found alike =>
    exact step_of .stay (held_goto_same (congrArg Stage.hand stage).symm) (flag_store_same found alike.2)
  | @clears ar arena stage found =>
    have hand : s.ledger.held (t, none) = some ar := congrArg Stage.hand stage
    apply step_of (.drop hand) (held_goto _ t _)
    exact flag_store s s.process.mem ar arena.release

/-! ## Runs -/

/-- The other threads stay where they are, with the pointers that they have. -/
theorem Moves.others (moves : Moves s t s') (other : u ≠ t) :
    s'.stage u = s.stage u ∧ ∀ i, (s'.pools i).arena u = (s.pools i).arena u := by
  cases moves <;> simp [stage_goto_ne other, arena_reset_ne other]

theorem Moves.mine (moves : Moves s t s') (seeking : s.Seeking) :
    ∀ i, (s'.stage t).seeks = some i → (s'.pools i).arena t = none := by
  cases moves with
  | stays => exact seeking t
  | frees _ => exact seeking t
  | starts stage without => simpa [Stage.seeks] using without
  | wins stage _ _ => simpa [Stage.seeks] using seeking t _ (congrArg Stage.seeks stage)
  | loses stage _ _ => simpa [Stage.seeks] using seeking t _ (congrArg Stage.seeks stage)
  | builds stage without _ _ _ => simpa [Stage.seeks] using without
  | _ => simp [Stage.seeks]

theorem Moves.seeking (moves : Moves s t s') (seeking : s.Seeking) : s'.Seeking := by
  intro u i looks
  by_cases here : u = t
  · subst here
    exact moves.mine seeking i looks
  · obtain ⟨stage, arena⟩ := moves.others here
    rw [arena]
    exact seeking u i (stage ▸ looks)

theorem Run.exclusive (run : Run s) : Exclusive s.ledger ∧ s.Seeking := by
  apply Runs.invariant _ _ run
  · rintro s ⟨objects, _, pools, stage, _⟩
    have held : s.held = fun _ => none := by
      funext ⟨t, place⟩
      cases place <;> simp [held, pools, stage, Stage.hand, Pool.init]
    have flag : s.flag = fun _ => none := by
      funext ar
      simp [Threads.flag, objects]
    constructor
    · rw [ledger, held, flag]
      exact .empty
    · intro t i _
      simp [pools, Pool.init]
  · rintro s action s' ⟨exclusive, seeking⟩ admissible stepped
    have moves := step_moves admissible stepped
    exact ⟨(moves.ledger seeking).exclusive exclusive, moves.seeking seeking⟩

/-- Why a thread has the flag of an arena set. -/
inductive Claims (s : Threads I T) (t : T) (ar : Addr) : Prop where
  | holds (i : I) : (s.pools i).arena t = some ar → Claims s t ar
  /-- The flag is won, and the pointer not stored yet. -/
  | won {i : I} {size : Nat} : s.stage t = .won i size ar → Claims s t ar
  /-- The arena is constructed and not published yet; from the store of the pointer on, the thread
  also holds it. -/
  | built {i : I} {size : Nat} : s.stage t = .built i size ar → Claims s t ar
  | stored {i : I} {size : Nat} : s.stage t = .stored i size → (s.pools i).arena t = some ar → Claims s t ar
  | leaving : s.stage t = .leaving ar → Claims s t ar
  | releasing : s.stage t = .releasing ar → Claims s t ar

omit [DecidableEq I] [DecidableEq T] in
theorem claims_iff : s.Claims t ar ↔ ∃ place, s.held (t, place) = some ar := by
  constructor
  · intro claims
    cases claims with
    | holds i holds => exact ⟨some i, holds⟩
    | stored _ holds => exact ⟨some _, holds⟩
    | won stage => exact ⟨none, congrArg Stage.hand stage⟩
    | built stage => exact ⟨none, congrArg Stage.hand stage⟩
    | leaving stage => exact ⟨none, congrArg Stage.hand stage⟩
    | releasing stage => exact ⟨none, congrArg Stage.hand stage⟩
  · rintro ⟨place, holds⟩
    cases place with
    | some i => exact .holds i holds
    | none =>
      -- the object is in the hands of the thread, at one of four stages
      have hand : (s.stage t).hand = some ar := holds
      cases stage : s.stage t with
      | won i size a =>
        obtain rfl : a = ar := by simpa [stage, Stage.hand] using hand
        exact .won stage
      | built i size a =>
        obtain rfl : a = ar := by simpa [stage, Stage.hand] using hand
        exact .built stage
      | leaving a =>
        obtain rfl : a = ar := by simpa [stage, Stage.hand] using hand
        exact .leaving stage
      | releasing a =>
        obtain rfl : a = ar := by simpa [stage, Stage.hand] using hand
        exact .releasing stage
      | _ => simp [stage, Stage.hand] at hand

/-- No two threads have one arena in their pointers, and a flag is set exactly as long as some
thread has a reason for it. -/
theorem run_reserves (run : Run s) :
    (∀ i j t u ar, (s.pools i).arena t = some ar → (s.pools j).arena u = some ar → t = u ∧ i = j) ∧
      ∀ ar arena, s.process.objects.lookup ar = some arena → (arena.reserved = true ↔ ∃ t, s.Claims t ar) := by
  obtain ⟨exclusive, _⟩ := run.exclusive
  constructor
  · intro i j t u ar first second
    have same := exclusive.alone (t, some i) (u, some j) ar first second
    simpa using same
  · intro ar arena found
    have flagged := exclusive.flagged ar
    simp only [ledger, flag, found, Option.map_some, Option.some.injEq] at flagged
    rw [flagged]
    constructor
    · rintro ⟨⟨t, place⟩, holds⟩
      exact ⟨t, claims_iff.mpr ⟨place, holds⟩⟩
    · rintro ⟨t, claims⟩
      obtain ⟨place, holds⟩ := claims_iff.mp claims
      exact ⟨(t, place), holds⟩

/-! ## A run that can be computed -/

/-- Thread 0 has constructed an arena, allocated from it and ended; thread 1 has won the flag. -/
theorem run_handover : ∃ s : Threads Unit Nat, Run s ∧ s.stage 1 = .won () 16 1 := by
  have computed : (replay Admissible step (unused : Threads Unit Nat)
      [.malloc 0 () 16, .advance 0 ⟨none, none, none, none, none, none, 0⟩ [],
        .advance 0 ⟨some 1, some 16384, some 2, none, none, none, 0⟩ [],
        .advance 0 ⟨none, none, none, none, none, none, 0⟩ [], .advance 0 ⟨none, none, none, some 3, none, none, 0⟩ [],
        .advance 0 ⟨none, none, none, none, none, none, 0⟩ [], .exit 0 (),
        .advance 0 ⟨none, none, none, none, none, none, 1⟩ [some 4], .malloc 1 () 16,
        .advance 0 ⟨none, none, none, none, none, none, 0⟩ [],
        .advance 1 ⟨none, none, none, none, none, none, 0⟩ []]).map (fun s => s.stage 1) =
      some (.won () 16 1) := by decide +kernel
  obtain ⟨s, replayed, stage⟩ := Option.map_eq_some_iff.mp computed
  exact ⟨s, replay_runs _ (.start ⟨rfl, rfl, rfl, rfl, rfl⟩) replayed, stage⟩

theorem run_reserves_handover : ∃ s : Threads Unit Nat, s.stage 1 = .won () 16 1 ∧
    (∀ i j t u ar, (s.pools i).arena t = some ar → (s.pools j).arena u = some ar → t = u ∧ i = j) ∧
      ∀ ar arena, s.process.objects.lookup ar = some arena → (arena.reserved = true ↔ ∃ t, s.Claims t ar) := by
  obtain ⟨s, run, stage⟩ := run_handover
  exact ⟨s, stage, run_reserves run⟩

end Threads

end SmallObject
