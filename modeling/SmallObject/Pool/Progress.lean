import SmallObject.Arena.Completion
import SmallObject.Pool.Leaks

/-! Calls come to their end, and no step of them goes wrong.

The loop of `pool::reserve` goes over the list as it was when the loop began, so no other thread can
make a call longer. As long as there is memory for chunks, and no height of a map is too large for
its type, no step follows a null pointer or one to something that is gone.
-/

set_option autoImplicit false

namespace SmallObject

open Linked Custody Execution AvlTree

/-! ## How long a call takes -/

namespace Stage

variable {I : Type}

/-- The most steps that a thread in this stage takes until its call returns. -/
def work : Stage I → Nat
  | idle => 0
  | scanning _ _ rest => rest.length + 5
  | won _ _ _ => 5
  | scanned _ _ => 4
  | built _ _ _ => 3
  | stored _ _ | leaving _ => 2
  | serving _ _ | releasing _ => 1

/-- The pool that a thread in this stage has an arena of. -/
def needs : Stage I → Option I
  | stored i _ | serving i _ => some i
  | _ => none

theorem idle_of_work {stage : Stage I} (done : stage.work = 0) : stage = .idle := by
  cases stage <;> simp [work] at done ⊢

end Stage

/-- The action is a step of the thread in a call. -/
def Action.advances {I T : Type} [DecidableEq T] (t : T) : Action I T → Bool
  | advance u _ _ => u = t
  | _ => false

namespace Threads

variable {I T : Type} [DecidableEq I] [DecidableEq T] {s s' : Threads I T} {t : T} {i : I}

omit [DecidableEq I] in
theorem serve_work {ar : Addr} {size : Nat} {supply : Supply} (run : s.serve t ar size supply = .ok s') :
    (s'.stage t).work = 0 := by
  obtain ⟨_, _, run⟩ := bind_eq_ok run
  obtain ⟨⟨reply, _, _⟩, _, run⟩ := bind_eq_ok run
  simp only at run
  split at run
  all_goals
    obtain rfl := Except.ok.inj run
    simp [Stage.work]

/-- The call of the thread has come to its end within these actions. -/
def Returns (s : Threads I T) (t : T) (call : Action I T) (actions : List (Action I T)) : Prop :=
  ∃ before after s', actions = before ++ after ∧ replay Admissible step s (call :: before) = some s' ∧
    s'.stage t = .idle

/-- A call that is past its search has an arena. -/
def Equipped (s : Threads I T) : Prop := ∀ t i, (s.stage t).needs = some i → (s.pools i).arena t ≠ none

/-- No height in a map is too large for its type. -/
def Fitted (s : Threads I T) : Prop := ∀ ar arena, s.process.objects.lookup ar = some arena → arena.Fit

/-- There is memory for the chunks that a step from this stage makes, and for the vector and the nodes
of `shrink`, and no height in a map becomes too large for its type. -/
def Affords (s : Threads I T) (t : T) (supply : Supply) (nodes : List Ptr) : Stage I → Prop
  | .scanned i _ => (s.pools i).arena t = none → supply.object ≠ none → supply.first ≠ none
  | .serving i _ => ∀ ar ∈ (s.pools i).arena t, ∀ arena ∈ s.process.objects.lookup ar, supply.region ≠ none ∧
      arena.mallocNoting exactInt8 s.process.mem supply.region supply.node ≠ .error .narrow
  | .leaving ar => ∀ arena ∈ s.process.objects.lookup ar,
      arena.Enough s.process.mem supply.room nodes supply.region supply.node
  | .idle | .scanning _ _ _ | .won _ _ _ | .built _ _ _ | .stored _ _ | .releasing _ => True

/-- A thread that calls `free` has an arena, and no step wants for memory. -/
def Granted (s : Threads I T) : Use I T → Prop
  | .act (.free t i _) => s.stage t = .idle → (s.pools i).arena t ≠ none
  | .act (.advance t supply nodes) => s.Affords t supply nodes (s.stage t)
  | .act (.malloc _ _ _) | .act (.exit _ _) | .write _ _ => True

variable {d : Deeds} {ar : Addr} {arena : Arena} {mem : Memory}

theorem Equipped.advance {supply : Supply} {nodes : List Ptr} (equipped : s.Equipped)
    (run : s.advance t supply nodes = .ok s') (needs : (s'.stage t).needs = some i) :
    (s'.pools i).arena t ≠ none := by
  unfold Threads.advance at run
  cases stage : s.stage t with
  | idle =>
    simp only [stage] at run
    obtain rfl := Except.ok.inj run
    exact equipped t i needs
  | scanning j size rest =>
    cases rest with
    | nil =>
      simp only [stage] at run
      obtain rfl := Except.ok.inj run
      simp [Stage.needs] at needs
    | cons it rest =>
      simp only [stage] at run
      obtain ⟨arena, _, run⟩ := bind_eq_ok run
      split at run
      all_goals
        obtain rfl := Except.ok.inj run
        simp [Stage.needs] at needs
  | won j size ar =>
    simp only [stage] at run
    obtain rfl := Except.ok.inj run
    simp [Stage.needs] at needs
  | scanned j size =>
    simp only [stage] at run
    split at run
    next holds =>
      obtain rfl := Except.ok.inj run
      obtain rfl : j = i := by simpa [Stage.needs] using needs
      simp [holds]
    next =>
      unfold construct at run
      split at run
      · obtain rfl := Except.ok.inj run
        simp [Stage.needs] at needs
      · split at run
        · obtain ⟨_, _, run⟩ := bind_eq_ok run
          obtain rfl := Except.ok.inj run
          simp [Stage.needs] at needs
        · cases run
        · obtain rfl := Except.ok.inj run
          simp [Stage.needs] at needs
  | built j size ar =>
    simp only [stage] at run
    obtain rfl := Except.ok.inj run
    obtain rfl : j = i := by simpa [Stage.needs] using needs
    simp [arena_reset]
  | stored j size =>
    simp only [stage] at run
    obtain ⟨ar, holds, run⟩ := bind_eq_ok run
    split at run
    · obtain rfl := Except.ok.inj run
      simp [Stage.needs] at needs
    · obtain rfl := Except.ok.inj run
      obtain rfl : j = i := by simpa [Stage.needs] using needs
      simp [nonNull_eq_ok holds]
  | serving j size =>
    simp only [stage] at run
    obtain ⟨ar, _, run⟩ := bind_eq_ok run
    simp [Stage.idle_of_work (serve_work run), Stage.needs] at needs
  | leaving ar =>
    simp only [stage] at run
    obtain ⟨arena, _, run⟩ := bind_eq_ok run
    obtain ⟨⟨mem, arena'⟩, _, run⟩ := bind_eq_ok run
    obtain rfl := Except.ok.inj run
    simp [Stage.needs] at needs
  | releasing ar =>
    simp only [stage] at run
    obtain ⟨arena, _, run⟩ := bind_eq_ok run
    obtain rfl := Except.ok.inj run
    simp [Stage.needs] at needs

theorem Equipped.own {action : Action I T} (equipped : s.Equipped) (run : s.step action = .ok s')
    (needs : (s'.stage action.thread).needs = some i) : (s'.pools i).arena action.thread ≠ none := by
  cases action with
  | malloc t j size =>
    simp only [Threads.step] at run
    split at run
    · obtain rfl := Except.ok.inj run
      simp [Action.thread, Stage.needs] at needs
    next holds =>
      obtain rfl := Except.ok.inj run
      obtain rfl : j = i := by simpa [Action.thread, Stage.needs] using needs
      simp [Action.thread, holds]
    · obtain rfl := Except.ok.inj run
      exact equipped t i needs
  | free t j ptr =>
    simp only [Threads.step] at run
    split at run
    · obtain ⟨process, _, run⟩ := bind_eq_ok run
      obtain rfl := Except.ok.inj run
      exact equipped t i needs
    · obtain rfl := Except.ok.inj run
      exact equipped t i needs
  | exit t j =>
    simp only [Threads.step] at run
    split at run
    · obtain rfl := Except.ok.inj run
      simp [Action.thread, Stage.needs] at needs
    · obtain rfl := Except.ok.inj run
      exact equipped t i needs
  | advance t supply nodes => exact equipped.advance run needs

/-- Only the thread of a step can lose what it has. -/
theorem Equipped.step {action : Action I T} (equipped : s.Equipped) (admissible : s.Admissible action)
    (run : s.step action = .ok s') : s'.Equipped := by
  intro u j needs
  by_cases mine : u = action.thread
  · subst mine
    exact equipped.own run needs
  · obtain ⟨stage, arena⟩ := (step_moves admissible run).others mine
    rw [arena j]
    exact equipped u j (stage ▸ needs)

/-! ### What is followed -/

omit [DecidableEq I] [DecidableEq T] in
theorem Housed.exists_held (housed : s.Housed) (holds : (s.pools i).arena t = some ar) :
    ∃ arena, s.process.objects.lookup ar = some arena := by
  obtain ⟨home, homes⟩ := housed.homes
  exact homes.made ar i ((homes.settled t).held i ar holds)

omit [DecidableEq I] [DecidableEq T] in
theorem Housed.exists_hand (housed : s.Housed) (hand : (s.stage t).hand = some ar) :
    ∃ arena, s.process.objects.lookup ar = some arena := by
  have flagged := (housed.exclusive.flagged ar).mpr ⟨(t, none), hand⟩
  obtain ⟨arena, found, _⟩ := Option.map_eq_some_iff.mp flagged
  exact ⟨arena, found⟩

omit [DecidableEq I] [DecidableEq T] in
/-- The iterator is in the list, which only grows. -/
theorem Housed.exists_ahead (housed : s.Housed) {size : Nat} {rest : List Addr}
    (stage : s.stage t = .scanning i size (ar :: rest)) : ∃ arena, s.process.objects.lookup ar = some arena := by
  obtain ⟨home, homes⟩ := housed.homes
  have listed := ((homes.settled t).suffix i size _ stage).subset List.mem_cons_self
  exact homes.made ar i (homes.listed i ar listed)

omit [DecidableEq I] [DecidableEq T] in
theorem Fitted.store (fitted : s.Fitted) (fit : arena.Fit) : (s.store mem ar arena).Fitted := by
  intro other arena' found
  by_cases same : other = ar
  · subst same
    obtain rfl : arena = arena' := by simpa [Threads.store] using found
    exact fit
  · exact fitted other arena' (by simpa [Threads.store, AList.lookup_insert_ne same] using found)

omit [DecidableEq I] in
theorem construct_completes {size : Nat} {supply : Supply} (fitted : s.Fitted)
    (affords : supply.object ≠ none → supply.first ≠ none) :
    ∃ s', s.construct t i size supply = .ok s' ∧ s'.Fitted := by
  unfold construct
  cases object : supply.object with
  | none => exact ⟨_, rfl, fitted⟩
  | some ar =>
    obtain ⟨r, region⟩ := Option.ne_none_iff_exists'.mp (affords (by simp [object]))
    simp only [region]
    rcases Arena.init_returns_or_throws s.process.mem size r supply.firstNode with failed | ⟨mem, arena, made, fit⟩
    · simp only [failed, Arena.createNewChunk_eq, ok_bind]
      exact ⟨_, rfl, fitted⟩
    · simp only [made]
      exact ⟨_, rfl, fitted.store fit⟩

omit [DecidableEq I] in
theorem serve_completes {size : Nat} {supply : Supply} (separated : s.Separated d) (fitted : s.Fitted)
    (found : s.process.objects.lookup ar = some arena)
    (unused : ∀ n, supply.node = some n → arena.chunks.nodes.lookup n = none)
    (affords : supply.region ≠ none ∧
      arena.mallocNoting exactInt8 s.process.mem supply.region supply.node ≠ .error .narrow) :
    ∃ s', s.serve t ar size supply = .ok s' ∧ s'.Fitted := by
  obtain ⟨needsRegion, fits⟩ := affords
  obtain ⟨r, region⟩ := Option.ne_none_iff_exists'.mp needsRegion
  obtain ⟨tree, possesses⟩ := separated.possesses ar arena found
  rw [region] at fits
  obtain ⟨reply, mem, arena', called, fit⟩ := possesses.malloc_completes (fitted ar arena found) unused fits
  simp only [serve, deref_of_lookup found, region, called, ok_bind]
  split
  · exact ⟨_, rfl, fitted.store fit⟩
  · exact ⟨_, rfl, fitted.store fit⟩

/-- One case for each stage, in the order of the code. -/
theorem advance_completes (separated : s.Separated d) (housed : s.Housed) (equipped : s.Equipped) (fitted : s.Fitted)
    {supply : Supply} {nodes : List Ptr} (supplies : s.Supplies t supply nodes)
    (affords : s.Affords t supply nodes (s.stage t)) : ∃ s', s.advance t supply nodes = .ok s' ∧ s'.Fitted := by
  unfold Threads.advance
  unfold Supplies at supplies
  unfold Affords at affords
  have needs := equipped t
  cases stage : s.stage t with
  | idle => exact ⟨_, rfl, fitted⟩
  | scanning i size rest =>
    cases rest with
    | nil => exact ⟨_, rfl, fitted⟩
    | cons it rest =>
      obtain ⟨arena, found⟩ := housed.exists_ahead stage
      have after : (s.store s.process.mem it arena.reserve.2).Fitted :=
        fitted.store ((fitted it arena found).of_chunks rfl)
      simp only [deref_of_lookup found, ok_bind]
      split
      · exact ⟨_, rfl, after⟩
      · exact ⟨_, rfl, after⟩
  | won i size ar => exact ⟨_, rfl, fitted⟩
  | scanned i size =>
    simp only [stage] at affords
    cases holds : (s.pools i).arena t with
    | some ar =>
      simp only [holds]
      exact ⟨_, rfl, fitted⟩
    | none =>
      simp only [holds]
      exact construct_completes fitted (affords holds)
  | built i size ar => exact ⟨_, rfl, fitted⟩
  | stored i size =>
    obtain ⟨ar, holds⟩ := Option.ne_none_iff_exists'.mp (needs i (by rw [stage]; rfl))
    simp only [holds, nonNull_some, ok_bind]
    split
    · exact ⟨_, rfl, fitted⟩
    · exact ⟨_, rfl, fitted⟩
  | serving i size =>
    simp only [stage] at affords supplies
    obtain ⟨ar, holds⟩ := Option.ne_none_iff_exists'.mp (needs i (by rw [stage]; rfl))
    obtain ⟨arena, found⟩ := housed.exists_held holds
    simp only [holds, nonNull_some, ok_bind]
    exact serve_completes separated fitted found (supplies ar holds arena found).2 (affords ar holds arena found)
  | leaving ar =>
    simp only [stage] at affords supplies
    obtain ⟨arena, found⟩ := housed.exists_hand (congrArg Stage.hand stage)
    obtain ⟨tree, possesses⟩ := separated.possesses ar arena found
    obtain ⟨mem, arena', shrunk, fit⟩ :=
      possesses.shrink_completes separated.divided (supplies arena found) (affords arena found)
    simp only [deref_of_lookup found, shrunk, ok_bind]
    exact ⟨_, rfl, fitted.store fit⟩
  | releasing ar =>
    obtain ⟨arena, found⟩ := housed.exists_hand (congrArg Stage.hand stage)
    simp only [deref_of_lookup found, ok_bind]
    exact ⟨_, rfl, fitted.store ((fitted ar arena found).of_chunks rfl)⟩

/-- The next use of the pools goes through. -/
theorem use_completes {u : Use I T} (separated : s.Separated d) (housed : s.Housed) (equipped : s.Equipped)
    (fitted : s.Fitted) (orderly : s.Orderly u) (granted : s.Granted u) : ∃ s', s.use u = .ok s' ∧ s'.Fitted := by
  cases u with
  | write a v => exact ⟨_, rfl, fitted⟩
  | act action =>
    simp only [use]
    cases action with
    | advance t supply nodes => exact advance_completes separated housed equipped fitted orderly.2 granted
    | malloc t i size =>
      simp only [step]
      split
      all_goals exact ⟨_, rfl, fitted⟩
    | exit t i =>
      simp only [step]
      split
      all_goals exact ⟨_, rfl, fitted⟩
    | free t i ptr =>
      simp only [step]
      cases stage : s.stage t with
      | idle =>
        obtain ⟨ar, holds⟩ := Option.ne_none_iff_exists'.mp (granted stage)
        obtain ⟨arena, found⟩ := housed.exists_held holds
        simp only [separated.free_eq holds found (orderly ar holds), ok_bind]
        exact ⟨_, rfl, fitted.store (fitted ar arena found)⟩
      | _ => exact ⟨_, rfl, fitted⟩

/-! ### Runs -/

instance (s : Threads I T) (t : T) (supply : Supply) (nodes : List Ptr) (stage : Stage I) :
    Decidable (s.Affords t supply nodes stage) := by
  cases stage <;> unfold Affords <;> infer_instance

instance (s : Threads I T) (u : Use I T) : Decidable (s.Granted u) :=
  match u with
  | .act (.free t i _) => inferInstanceAs (Decidable (s.stage t = .idle → (s.pools i).arena t ≠ none))
  | .act (.advance t supply nodes) => inferInstanceAs (Decidable (s.Affords t supply nodes (s.stage t)))
  | .act (.malloc _ _ _) | .act (.exit _ _) | .write _ _ => isTrue trivial

/-- What the callers and the system have to keep to. -/
def Sound (s : Threads I T) (u : Use I T) : Prop := s.Orderly u ∧ s.Granted u

instance (s : Threads I T) (u : Use I T) : Decidable (s.Sound u) := inferInstanceAs (Decidable (_ ∧ _))

theorem uses_of_sound (run : Runs Fresh Sound use s) : s.Uses := run.mono fun _ _ sound => sound.1

theorem run_equipped_fitted (run : Runs Fresh Sound use s) : s.Equipped ∧ s.Fitted := by
  induction run with
  | start fresh =>
    obtain ⟨objects, _, _, stage, _⟩ := fresh
    exact ⟨by simp [Equipped, stage, Stage.needs], by simp [Fitted, objects]⟩
  | @step s s' u run sound stepped before =>
    obtain ⟨equipped, fitted⟩ := before
    have uses := uses_of_sound run
    obtain ⟨d, separated⟩ := uses.separated
    obtain ⟨s₁, proceeds, fitted'⟩ := use_completes separated uses.housed equipped fitted sound.1 sound.2
    obtain rfl := Except.ok.inj (stepped.symm.trans proceeds)
    refine ⟨?_, fitted'⟩
    cases u with
    | act action => exact equipped.step sound.1.admissible stepped
    | write a v =>
      obtain rfl := Except.ok.inj stepped
      exact equipped

/-- Whatever the threads do and however their steps follow one another, no step goes wrong: no pointer
is followed that is null or leads to something that is gone, no loop goes on for ever, and nothing
is thrown out of a cleanup. -/
theorem run_proceeds (run : Runs Fresh Sound use s) {u : Use I T} (sound : s.Sound u) : ∃ s', s.use u = .ok s' := by
  have uses := uses_of_sound run
  obtain ⟨d, separated⟩ := uses.separated
  obtain ⟨equipped, fitted⟩ := run_equipped_fitted run
  obtain ⟨s', proceeds, _⟩ := use_completes separated uses.housed equipped fitted sound.1 sound.2
  exact ⟨s', proceeds⟩

/-- A thread ends with a block in use, while another one looks for an arena. -/
theorem run_proceeds_leaving : ∃ (s : Threads Unit Bool) (u : Use Unit Bool),
    s.stage false = .leaving 1 ∧ s.stage true = .scanning () 16 [1] ∧ s.blocks = [(8216, 16)] ∧
      ∃ s', s.use u = .ok s' := by
  let silent : Supply := ⟨none, none, none, none, none, none, 0⟩
  let u : Use Unit Bool := .act (.advance false ⟨none, none, none, none, some 32768, some 5, 1⟩ [some 6])
  have computed : (replay Sound use (unused : Threads Unit Bool)
      [.act (.malloc false () 16), .act (.advance false silent []),
        .act (.advance false ⟨some 1, some 8192, some 1, none, none, none, 0⟩ []), .act (.advance false silent []),
        .act (.advance false ⟨none, none, none, some 3, none, none, 0⟩ []),
        .act (.advance false ⟨none, none, none, none, some 16384, some 2, 0⟩ []), .write 8216 7,
        .act (.malloc true () 16), .act (.exit false ())]).map
          (fun s => (s.stage false, s.stage true, s.blocks, decide (s.Sound u))) =
      some (.leaving 1, .scanning () 16 [1], [(8216, 16)], true) := by decide +kernel
  obtain ⟨s, replayed, same⟩ := Option.map_eq_some_iff.mp computed
  simp only [Prod.mk.injEq, decide_eq_true_eq] at same
  obtain ⟨leaving, scanning, blocks, sound⟩ := same
  have run : Runs Fresh Sound use s := replay_runs _ (.start ⟨rfl, rfl, rfl, rfl, rfl⟩) replayed
  exact ⟨s, u, leaving, scanning, blocks, run_proceeds run sound⟩

end Threads

end SmallObject
