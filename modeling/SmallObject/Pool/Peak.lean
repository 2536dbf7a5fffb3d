import Mathlib.Data.Fintype.Card
import SmallObject.Library.FirstFit
import SmallObject.Pool.Reserve

/-! How many arenas a pool makes.

The loop of `reserve` goes down a list that was current when it began, and each of the flags on it
is found set at a different moment. All the same, there are never more arenas on the list than
there were threads in the pool at one time.
-/

set_option autoImplicit false

namespace SmallObject

open Linked Custody Execution FirstFit

/-- The place of an arena on a list, counted from the end; zero if it is not on it. -/
def fromEnd (list : List Addr) (ar : Addr) : Nat := (list.dropWhile (· != ar)).length

section FromEnd

variable {list rest : List Addr} {ar b : Addr}

@[simp] theorem fromEnd_self (list : List Addr) (ar : Addr) : fromEnd (ar :: list) ar = list.length + 1 := by
  simp [fromEnd]

theorem fromEnd_ne (other : ar ≠ b) : fromEnd (b :: list) ar = fromEnd list ar := by
  simp [fromEnd, other.symm]

theorem fromEnd_eq_zero (unlisted : ar ∉ list) : fromEnd list ar = 0 := by
  induction list with
  | nil => rfl
  | cons b list ih =>
    rw [List.mem_cons, not_or] at unlisted
    rw [fromEnd_ne unlisted.1, ih unlisted.2]

theorem fromEnd_suffix (distinct : list.Nodup) (suffix : ar :: rest <:+ list) : fromEnd list ar = rest.length + 1 := by
  induction list with
  | nil => simp at suffix
  | cons b list ih =>
    rcases List.suffix_cons_iff.mp suffix with same | inner
    · obtain ⟨rfl, rfl⟩ := List.cons.inj same
      exact fromEnd_self rest ar
    · have other : ar ≠ b := by
        rintro rfl
        exact (List.nodup_cons.mp distinct).1 (inner.subset List.mem_cons_self)
      rw [fromEnd_ne other, ih (List.nodup_cons.mp distinct).2 inner]

end FromEnd

/-- How far down the list of a pool a thread in this stage is that has no arena of the pool in its
pointer. -/
def Stage.level {I : Type} [DecidableEq I] (i : I) (list : List Addr) : Stage I → Option Nat
  | .scanning j _ rest => if j = i then some rest.length else none
  | .won j _ ar | .built j _ ar => if j = i then some (fromEnd list ar) else none
  | .scanned j _ => if j = i then some 0 else none
  | .leaving ar | .releasing ar => if ar ∈ list then some (fromEnd list ar) else none
  | .idle | .stored _ _ | .serving _ _ => none

namespace Threads

variable {I T : Type}

/-- The thread has an arena of the pool, looks for one, or gives one back. -/
inductive Inside (s : Threads I T) (i : I) (t : T) : Prop where
  | holds {ar : Addr} : (s.pools i).arena t = some ar → Inside s i t
  | seeks : (s.stage t).seeks = some i → Inside s i t
  | scanned {size : Nat} : s.stage t = .scanned i size → Inside s i t
  | gives {ar : Addr} : s.stage t = .leaving ar ∨ s.stage t = .releasing ar → ar ∈ (s.pools i).arenas →
      Inside s i t

/-- There are at most so many threads in the pool. -/
def Crowd (s : Threads I T) (i : I) (n : Nat) : Prop :=
  ∀ ts : List T, ts.Nodup → (∀ t ∈ ts, s.Inside i t) → ts.length ≤ n

/-- Where the arenas belong that a thread has or gives back, and where it is on a list. One that is
about to be published is not on the list yet. -/
structure Settled (s : Threads I T) (home : Addr → Option I) (t : T) : Prop where
  held : ∀ i ar, (s.pools i).arena t = some ar → home ar = some i
  won : ∀ i size ar, s.stage t = .won i size ar → home ar = some i
  built : ∀ i size ar, s.stage t = .built i size ar → home ar = some i ∧ ar ∉ (s.pools i).arenas
  stored : ∀ i size ar, s.stage t = .stored i size → (s.pools i).arena t = some ar → ar ∉ (s.pools i).arenas
  given : ∀ i ar, s.stage t = .leaving ar ∨ s.stage t = .releasing ar → home ar = some i →
    (s.pools i).arena t = none
  suffix : ∀ i size rest, s.stage t = .scanning i size rest → rest <:+ (s.pools i).arenas

/-- Every arena belongs to one pool. -/
structure Homes (s : Threads I T) (home : Addr → Option I) : Prop where
  made : ∀ ar i, home ar = some i → ∃ arena, s.process.objects.lookup ar = some arena
  listed : ∀ i, ∀ ar ∈ (s.pools i).arenas, home ar = some i
  distinct : ∀ i, (s.pools i).arenas.Nodup
  settled : ∀ t, s.Settled home t

variable {s s' : Threads I T} {t u : T} {i j : I} {ar : Addr} {size : Nat} {home : Addr → Option I}

section Level

variable [DecidableEq I]

def level (s : Threads I T) (i : I) (t : T) : Option Nat :=
  match (s.pools i).arena t with
  | some ar => some (fromEnd (s.pools i).arenas ar)
  | none => (s.stage t).level i (s.pools i).arenas

def row (s : Threads I T) (i : I) : Row T := { made := (s.pools i).arenas.length, level := s.level i }

theorem level_held (holds : (s.pools i).arena t = some ar) : s.level i t = some (fromEnd (s.pools i).arenas ar) := by
  simp [level, holds]

theorem level_stage (without : (s.pools i).arena t = none) :
    s.level i t = (s.stage t).level i (s.pools i).arenas := by
  simp [level, without]

theorem inside_of_level (inside : s.level i t ≠ none) : s.Inside i t := by
  cases holds : (s.pools i).arena t with
  | some ar => exact .holds holds
  | none =>
    rw [level_stage holds] at inside
    cases stage : s.stage t with
    | scanning j size rest =>
      obtain rfl : j = i := by simpa [stage, Stage.level] using inside
      exact .seeks (congrArg Stage.seeks stage)
    | won j size ar =>
      obtain rfl : j = i := by simpa [stage, Stage.level] using inside
      exact .seeks (congrArg Stage.seeks stage)
    | built j size ar =>
      obtain rfl : j = i := by simpa [stage, Stage.level] using inside
      exact .seeks (congrArg Stage.seeks stage)
    | scanned j size =>
      obtain rfl : j = i := by simpa [stage, Stage.level] using inside
      exact .scanned stage
    | leaving ar => exact .gives (.inl stage) (by simpa [stage, Stage.level] using inside)
    | releasing ar => exact .gives (.inr stage) (by simpa [stage, Stage.level] using inside)
    | idle | stored _ _ | serving _ _ => simp [stage, Stage.level] at inside

theorem Crowd.row {n : Nat} (crowd : s.Crowd i n) : (s.row i).Crowd n :=
  fun ts distinct inside => crowd ts distinct fun t member => inside_of_level (inside t member)

end Level

/-! ## The steps -/

section Steps

variable [DecidableEq I]

/-- Who has the flag of a listed arena set is as far down the list as the arena is. -/
theorem Homes.holder (homes : s.Homes home) (seeking : s.Seeking) (exclusive : Exclusive s.ledger) {arena : Arena}
    (listed : ar ∈ (s.pools i).arenas) (found : s.process.objects.lookup ar = some arena)
    (set : arena.reserved = true) :
    ∃ u, s.level i u = some (fromEnd (s.pools i).arenas ar) ∧ ∀ size rest, s.stage u ≠ .scanning i size rest := by
  obtain ⟨⟨u, place⟩, holds⟩ := (exclusive.flagged ar).mp (by simp [ledger, flag, found, set])
  have here := homes.listed i ar listed
  cases place with
  | some j =>
    have holds : (s.pools j).arena u = some ar := holds
    obtain rfl : j = i := Option.some.inj (((homes.settled u).held j ar holds).symm.trans here)
    refine ⟨u, level_held holds, fun size rest stage => ?_⟩
    rw [seeking u j (congrArg Stage.seeks stage)] at holds
    simp at holds
  | none =>
    have hand : (s.stage u).hand = some ar := holds
    refine ⟨u, ?_, fun size rest stage => by simp [stage, Stage.hand] at hand⟩
    cases stage : s.stage u with
    | won j size a =>
      obtain rfl : a = ar := by simpa [stage, Stage.hand] using hand
      obtain rfl : j = i := Option.some.inj (((homes.settled u).won j size a stage).symm.trans here)
      rw [level_stage (seeking u j (congrArg Stage.seeks stage)), stage]
      simp [Stage.level]
    | built j size a =>
      obtain rfl : a = ar := by simpa [stage, Stage.hand] using hand
      obtain rfl : j = i := Option.some.inj (((homes.settled u).built j size a stage).1.symm.trans here)
      rw [level_stage (seeking u j (congrArg Stage.seeks stage)), stage]
      simp [Stage.level]
    | leaving a =>
      obtain rfl : a = ar := by simpa [stage, Stage.hand] using hand
      rw [level_stage ((homes.settled u).given i a (.inl stage) here), stage]
      simp [Stage.level, listed]
    | releasing a =>
      obtain rfl : a = ar := by simpa [stage, Stage.hand] using hand
      rw [level_stage ((homes.settled u).given i a (.inr stage) here), stage]
      simp [Stage.level, listed]
    | idle | scanning _ _ _ | scanned _ _ | stored _ _ | serving _ _ => simp [stage, Stage.hand] at hand

/-- A step that publishes nothing, by what it does to the level of its thread. -/
theorem row_step [DecidableEq T] (list : (s'.pools i).arenas = (s.pools i).arenas)
    (others : ∀ u, u ≠ t → s'.level i u = s.level i u)
    (mine : s'.level i t = s.level i t ∨ s'.level i t = none ∨
      (s.level i t = none ∧ s'.level i t = some (s.pools i).arenas.length) ∨
      ∃ u k, u ≠ t ∧ s.level i t = some (k + 1) ∧ s.level i u = some (k + 1) ∧ s'.level i t = some k) :
    (s.row i).Step (s'.row i) := by
  have updated : s'.row i = { s.row i with level := Function.update (s.level i) t (s'.level i t) } := by
    simp only [row, list, FirstFit.Row.mk.injEq, true_and]
    funext u
    by_cases same : u = t
    · subst same
      simp
    · simp [same, others u same]
  rw [updated]
  rcases mine with same | away | ⟨away, top⟩ | ⟨u, k, other, here, there, next⟩
  · rw [same, Function.update_eq_self]
    exact .stay
  · rw [away]
    exact .leave t
  · rw [top]
    exact .enter away
  · rw [next]
    exact .pass other here there

theorem arenas_pushFront (s : Threads I T) (j : I) (ar : Addr) (i : I) :
    ((s.pushFront j ar).pools i).arenas = if i = j then ar :: (s.pools i).arenas else (s.pools i).arenas := by
  by_cases same : i = j
  · subst same
    simp [pushFront, Pool.pushFront]
  · simp [pushFront, same]

theorem level_same (list : (s'.pools i).arenas = (s.pools i).arenas) (stage : s'.stage u = s.stage u)
    (arena : (s'.pools i).arena u = (s.pools i).arena u) : s'.level i u = s.level i u := by
  simp only [level, list, stage, arena]

variable [DecidableEq T]

omit [DecidableEq I] in
@[simp] theorem arenas_goto (s : Threads I T) (t : T) (stage : Stage I) (i : I) :
    ((s.goto t stage).pools i).arenas = (s.pools i).arenas := rfl

@[simp] theorem arenas_reset (s : Threads I T) (j : I) (t : T) (p : Ptr) (i : I) :
    ((s.reset j t p).pools i).arenas = (s.pools i).arenas := by
  by_cases same : i = j
  · subst same
    simp [reset, Pool.reset]
  · simp [reset, same]

theorem arena_reset (s : Threads I T) (j : I) (t : T) (p : Ptr) (i : I) :
    ((s.reset j t p).pools i).arena t = if i = j then p else (s.pools i).arena t := by
  by_cases same : i = j
  · subst same
    simp [reset, Pool.reset]
  · simp [reset, same]

/-- What is published is the arena in the pointer of the thread. -/
theorem published_own {action : Action I T} (run : s.step action = .ok s')
    (stage : s.stage action.thread = .stored j size) (push : (s'.pools j).arenas = ar :: (s.pools j).arenas) :
    (s.pools j).arena action.thread = some ar := by
  have grown : (s'.pools j).arenas ≠ (s.pools j).arenas := by simp [push]
  cases action with
  | malloc t i size =>
    simp only [Action.thread] at stage
    simp only [step, stage] at run
    exact absurd (by rw [Except.ok.inj run]) grown
  | free t i ptr =>
    simp only [Action.thread] at stage
    simp only [step, stage] at run
    exact absurd (by rw [Except.ok.inj run]) grown
  | exit t i =>
    simp only [Action.thread] at stage
    simp only [step, stage] at run
    exact absurd (by rw [Except.ok.inj run]) grown
  | advance t supply nodes =>
    simp only [Action.thread] at stage
    simp only [step, advance, stage] at run
    obtain ⟨a, holds, run⟩ := bind_eq_ok run
    split at run
    · obtain rfl := Except.ok.inj run
      exact absurd rfl grown
    · obtain rfl := Except.ok.inj run
      simp only [arenas_goto, arenas_pushFront, if_true, List.cons.injEq, and_true] at push
      exact push ▸ nonNull_eq_ok holds

/-- The published arena is the new head, and what the other threads are about is as far from the
end of the list as before. -/
theorem published_row (exclusive : Exclusive s.ledger) (holds : (s.pools i).arena t = some ar)
    (unlisted : ar ∉ (s.pools i).arenas) (stage : s.stage t = .stored i size) :
    (s.row i).Step (((s.pushFront i ar).goto t (.serving i size)).row i) := by
  have others : ∀ u, u ≠ t → ((s.pushFront i ar).goto t (.serving i size)).level i u = s.level i u := by
    intro u other
    have mine : s.ledger.held (t, some i) = some ar := holds
    have hand : ∀ a, (s.stage u).hand = some a → a ≠ ar := by
      rintro a hand rfl
      simpa using exclusive.alone (u, none) (t, some i) a hand mine
    have pointer : ∀ a, (s.pools i).arena u = some a → a ≠ ar := by
      rintro a holds' rfl
      simpa [other] using exclusive.alone (u, some i) (t, some i) a holds' mine
    cases holds' : (s.pools i).arena u with
    | some a => simp [level, holds', arenas_pushFront, fromEnd_ne (pointer a holds')]
    | none =>
      simp only [level, pools_goto, arena_pushFront, holds', stage_goto_ne other, stage_pushFront, arenas_pushFront,
        if_true]
      cases at_ : s.stage u with
      | won j n a => simp [Stage.level, fromEnd_ne (hand a (by rw [at_]; rfl))]
      | built j n a => simp [Stage.level, fromEnd_ne (hand a (by rw [at_]; rfl))]
      | leaving a =>
        have other' := hand a (by rw [at_]; rfl)
        simp [Stage.level, fromEnd_ne other', other']
      | releasing a =>
        have other' := hand a (by rw [at_]; rfl)
        simp [Stage.level, fromEnd_ne other', other']
      | idle | scanning _ _ _ | scanned _ _ | stored _ _ | serving _ _ => simp [Stage.level]
  have grown : ((s.pushFront i ar).goto t (.serving i size)).row i =
      { made := (s.row i).made + 1, level := Function.update (s.row i).level t (some ((s.row i).made + 1)) } := by
    simp only [row, arenas_goto, arenas_pushFront, if_true, List.length_cons, FirstFit.Row.mk.injEq, true_and]
    funext u
    by_cases same : u = t
    · subst same
      simp [level, holds, arenas_pushFront]
    · simp [same, others u same]
  rw [grown]
  exact .make (by simp [row, level_held holds, fromEnd_eq_zero unlisted])

/-- Every step of a thread is a step of its client in each pool. -/
theorem Moves.row (moves : Moves s t s') (homes : s.Homes home) (seeking : s.Seeking) (exclusive : Exclusive s.ledger)
    (own : ∀ j size ar, s.stage t = .stored j size → (s'.pools j).arenas = ar :: (s.pools j).arenas →
      (s.pools j).arena t = some ar) (i : I) : (s.row i).Step (s'.row i) := by
  have others : ∀ u, u ≠ t → (s'.pools i).arenas = (s.pools i).arenas → s'.level i u = s.level i u :=
    fun u other list => level_same list (moves.others other).1 ((moves.others other).2 i)
  cases moves with
  | stays => exact .stay
  | frees _ => exact .stay
  | @starts j size stage without =>
    refine row_step rfl (fun u other => others u other rfl) ?_
    cases holds : (s.pools i).arena t with
    | some ar => simp [level, holds]
    | none =>
      by_cases same : j = i
      · subst same
        simp [level, holds, stage, Stage.level]
      · simp [level, holds, stage, Stage.level, same]
  | @resumes j size stage =>
    refine row_step rfl (fun u other => others u other rfl) ?_
    cases holds : (s.pools i).arena t <;> simp [level, holds, stage, Stage.level]
  | @exits j ar stage holds =>
    refine row_step (by simp) (fun u other => others u other (by simp)) ?_
    by_cases same : i = j
    · subst same
      by_cases listed : ar ∈ (s.pools i).arenas
      · simp [level, arena_reset, holds, Stage.level, listed]
      · simp [level, arena_reset, Stage.level, listed]
    · cases mine : (s.pools i).arena t with
      | some a => simp [level, arena_reset, same, mine]
      | none =>
        -- the arena that is given back is one of the other pool
        have unlisted : ar ∉ (s.pools i).arenas := fun listed =>
          same (Option.some.inj ((homes.listed i ar listed).symm.trans ((homes.settled t).held j ar holds)))
        simp [level, arena_reset, same, mine, stage, Stage.level, unlisted]
  | @ends j size stage =>
    refine row_step rfl (fun u other => others u other rfl) ?_
    cases holds : (s.pools i).arena t <;> simp [level, holds, stage, Stage.level]
  | @wins j size it rest arena stage found clear =>
    refine row_step rfl (fun u other => others u other rfl) ?_
    have suffix := fromEnd_suffix (homes.distinct j) ((homes.settled t).suffix j size _ stage)
    cases holds : (s.pools i).arena t with
    | some ar => simp [level, holds]
    | none =>
      by_cases same : j = i
      · subst same
        simp [level, holds, stage, Stage.level, suffix]
      · simp [level, holds, stage, Stage.level, same]
  | @loses j size it rest arena stage found set =>
    refine row_step rfl (fun u other => others u other rfl) ?_
    have suffix := (homes.settled t).suffix j size _ stage
    cases holds : (s.pools i).arena t with
    | some ar => simp [level, holds]
    | none =>
      by_cases same : j = i
      -- another thread has the arena, and is as far down the list
      · subst same
        obtain ⟨u, there, elsewhere⟩ := homes.holder seeking exclusive (suffix.subset List.mem_cons_self) found set
        rw [fromEnd_suffix (homes.distinct j) suffix] at there
        have other : u ≠ t := by
          rintro rfl
          exact elsewhere size _ stage
        refine .inr (.inr (.inr ⟨u, rest.length, other, ?_, there, ?_⟩))
        · simp [level, holds, stage, Stage.level]
        · simp [level, holds, Stage.level]
      · simp [level, holds, stage, Stage.level, same]
  | @keeps j size ar stage =>
    refine row_step (by simp) (fun u other => others u other (by simp)) ?_
    by_cases same : i = j
    · subst same
      simp [level, arena_reset, seeking t i (congrArg Stage.seeks stage), stage, Stage.level]
    · cases holds : (s.pools i).arena t with
      | some a => simp [level, arena_reset, same, holds]
      | none => simp [level, arena_reset, same, holds, stage, Stage.level, Ne.symm same]
  | @finds j size stage =>
    refine row_step rfl (fun u other => others u other rfl) ?_
    cases holds : (s.pools i).arena t <;> simp [level, holds, stage, Stage.level]
  | @builds j size mem ar arena stage without fresh _ _ =>
    refine row_step rfl (fun u other => others u other rfl) ?_
    have unlisted : ar ∉ (s.pools i).arenas := fun listed => by
      obtain ⟨arena, found⟩ := homes.made ar i (homes.listed i ar listed)
      simp [fresh] at found
    cases holds : (s.pools i).arena t with
    | some a => simp [level, holds]
    | none => simp [level, holds, stage, Stage.level, fromEnd_eq_zero unlisted]
  | @stores j size ar stage =>
    refine row_step (by simp) (fun u other => others u other (by simp)) ?_
    by_cases same : i = j
    · subst same
      simp [level, arena_reset, seeking t i (congrArg Stage.seeks stage), stage, Stage.level]
    · cases holds : (s.pools i).arena t with
      | some a => simp [level, arena_reset, same, holds]
      | none => simp [level, arena_reset, same, holds, stage, Stage.level, Ne.symm same]
  | @publishes j size ar stage =>
    have holds := own j size ar stage (by simp [arenas_pushFront])
    by_cases same : i = j
    · subst same
      exact published_row exclusive holds ((homes.settled t).stored i size ar stage holds) stage
    · refine row_step (by simp [arenas_pushFront, same]) (fun u other => others u other
        (by simp [arenas_pushFront, same])) (.inl ?_)
      cases mine : (s.pools i).arena t <;> simp [level, mine, stage, Stage.level, arenas_pushFront, same]
  | throws mem hand =>
    refine row_step rfl (fun u other => others u other rfl) ?_
    cases holds : (s.pools i).arena t <;> simp [level, holds, Stage.level]
  | @serves j size mem ar block arena arena' stage _ _ _ =>
    refine row_step rfl (fun u other => others u other rfl) ?_
    cases holds : (s.pools i).arena t <;> simp [level, holds, stage, Stage.level]
  | @fails j size mem ar arena arena' stage _ _ =>
    refine row_step rfl (fun u other => others u other rfl) ?_
    cases holds : (s.pools i).arena t <;> simp [level, holds, stage, Stage.level]
  | @shrinks mem ar arena arena' stage _ _ =>
    refine row_step rfl (fun u other => others u other rfl) (.inl ?_)
    have same : (Stage.releasing ar).level i (s.pools i).arenas = (s.stage t).level i (s.pools i).arenas := by
      rw [stage]
      rfl
    simp only [level, pools_goto, pools_store, stage_goto, same]
  | @clears ar arena stage _ =>
    refine row_step rfl (fun u other => others u other rfl) ?_
    cases holds : (s.pools i).arena t <;> simp [level, holds, Stage.level]

/-! ## Where the arenas belong -/

/-- A step that changes no list. -/
theorem Homes.move (homes : s.Homes home) (moves : Moves s t s') (lists : ∀ i, (s'.pools i).arenas = (s.pools i).arenas)
    (kept : ∀ ar arena, s.process.objects.lookup ar = some arena → ∃ arena', s'.process.objects.lookup ar = some arena')
    (mine : s'.Settled home t) : s'.Homes home := by
  refine ⟨fun ar i here => ?_, fun i ar member => homes.listed i ar (lists i ▸ member),
    fun i => lists i ▸ homes.distinct i, fun u => ?_⟩
  · obtain ⟨arena, found⟩ := homes.made ar i here
    exact kept ar arena found
  · by_cases same : u = t
    · subst same
      exact mine
    · obtain ⟨stage, arena⟩ := moves.others same
      have old := homes.settled u
      refine ⟨?_, ?_, ?_, ?_, ?_, ?_⟩ <;> simp only [stage, arena, lists]
      · exact old.held
      · exact old.won
      · exact old.built
      · exact old.stored
      · exact old.given
      · exact old.suffix

omit [DecidableEq I] [DecidableEq T] in
theorem kept_store (s : Threads I T) (mem : Memory) (ar : Addr) (arena : Arena) (b : Addr) (old : Arena)
    (found : s.process.objects.lookup b = some old) :
    ∃ arena', (s.store mem ar arena).process.objects.lookup b = some arena' := by
  by_cases same : b = ar
  · subst same
    exact ⟨arena, AList.lookup_insert _⟩
  · exact ⟨old, (AList.lookup_insert_ne same).trans found⟩

theorem Moves.homes (moves : Moves s t s') (homes : s.Homes home) (exclusive : Exclusive s.ledger)
    (own : ∀ j size ar, s.stage t = .stored j size → (s'.pools j).arenas = ar :: (s.pools j).arenas →
      (s.pools j).arena t = some ar) : ∃ home', s'.Homes home' := by
  have old := homes.settled t
  have all := moves
  cases moves with
  | stays => exact ⟨home, homes⟩
  | @frees process alike =>
    refine ⟨home, homes.move all (fun _ => rfl) (fun ar arena found => ?_)
      ⟨old.held, old.won, old.built, old.stored, old.given, old.suffix⟩⟩
    have same := alike ar
    rw [found] at same
    obtain ⟨arena', found', _⟩ := Option.map_eq_some_iff.mp same
    exact ⟨arena', found'⟩
  | starts stage without =>
    refine ⟨home, homes.move all (fun _ => rfl) (fun ar arena found => ⟨arena, found⟩)
      ⟨old.held, by simp, by simp, by simp, by simp, fun i size rest scanning => ?_⟩⟩
    obtain ⟨rfl, rfl, rfl⟩ : _ = i ∧ _ = size ∧ _ = rest := by simpa using scanning
    exact List.suffix_refl _
  | resumes _ | ends _ | finds _ =>
    exact ⟨home, homes.move all (fun _ => rfl) (fun ar arena found => ⟨arena, found⟩)
      ⟨old.held, by simp, by simp, by simp, by simp, by simp⟩⟩
  | throws _ _ =>
    exact ⟨home, homes.move all (fun _ => rfl) (fun ar arena found => ⟨arena, found⟩)
      ⟨old.held, by simp, by simp, by simp, by simp, by simp⟩⟩
  | serves _ _ _ _ | fails _ _ _ =>
    exact ⟨home, homes.move all (fun _ => rfl) (kept_store s _ _ _)
      ⟨old.held, by simp, by simp, by simp, by simp, by simp⟩⟩
  | clears _ _ =>
    exact ⟨home, homes.move all (fun _ => rfl) (kept_store s _ _ _)
      ⟨old.held, by simp, by simp, by simp, by simp, by simp⟩⟩
  | @exits j ar stage holds =>
    refine ⟨home, homes.move all (by simp) (fun ar arena found => ⟨arena, found⟩)
      ⟨fun i a holds' => ?_, by simp, by simp, by simp, fun i a given here => ?_, by simp⟩⟩
    · rw [pools_goto, arena_reset] at holds'
      split at holds'
      · simp at holds'
      · exact old.held i a holds'
    · obtain rfl : ar = a := by simpa using given
      obtain rfl : j = i := Option.some.inj ((old.held j ar holds).symm.trans here)
      simp [arena_reset]
  | @wins j size it rest arena stage found clear =>
    refine ⟨home, homes.move all (fun _ => rfl) (kept_store s _ _ _)
      ⟨old.held, fun i n ar won => ?_, by simp, by simp, by simp, by simp⟩⟩
    obtain ⟨rfl, rfl, rfl⟩ : j = i ∧ size = n ∧ it = ar := by simpa using won
    exact homes.listed j it ((old.suffix j size _ stage).subset List.mem_cons_self)
  | @loses j size it rest arena stage found set =>
    refine ⟨home, homes.move all (fun _ => rfl) (kept_store s _ _ _)
      ⟨old.held, by simp, by simp, by simp, by simp, fun i n list scanning => ?_⟩⟩
    obtain ⟨rfl, rfl, rfl⟩ : j = i ∧ size = n ∧ rest = list := by simpa using scanning
    exact (List.suffix_cons it rest).trans (old.suffix j size _ stage)
  | @keeps j size ar stage =>
    refine ⟨home, homes.move all (by simp) (fun ar arena found => ⟨arena, found⟩)
      ⟨fun i a holds => ?_, by simp, by simp, by simp, by simp, by simp⟩⟩
    rw [pools_goto, arena_reset] at holds
    split at holds
    next same =>
      obtain rfl := Option.some.inj holds
      exact same ▸ old.won j size ar stage
    next => exact old.held i a holds
  | @stores j size ar stage =>
    obtain ⟨here, unlisted⟩ := old.built j size ar stage
    refine ⟨home, homes.move all (by simp) (fun ar arena found => ⟨arena, found⟩)
      ⟨fun i a holds => ?_, by simp, by simp, fun i n a stored holds => ?_, by simp, by simp⟩⟩
    · rw [pools_goto, arena_reset] at holds
      split at holds
      next same =>
        obtain rfl := Option.some.inj holds
        exact same ▸ here
      next => exact old.held i a holds
    · obtain ⟨rfl, rfl⟩ : j = i ∧ size = n := by simpa using stored
      obtain rfl : ar = a := by simpa [arena_reset] using holds
      simpa using unlisted
  | @shrinks mem ar arena arena' stage _ _ =>
    refine ⟨home, homes.move all (fun _ => rfl) (kept_store s _ _ _)
      ⟨old.held, by simp, by simp, by simp, fun i a given here => ?_, by simp⟩⟩
    obtain rfl : ar = a := by simpa using given
    exact old.given i ar (.inl stage) here
  | @builds j size mem ar arena stage without fresh _ _ =>
    have other : ∀ a i, home a = some i → a ≠ ar := by
      rintro a i here rfl
      obtain ⟨arena, found⟩ := homes.made a i here
      simp [fresh] at found
    have unlisted : ∀ i, ar ∉ (s.pools i).arenas := fun i listed => other ar i (homes.listed i ar listed) rfl
    refine ⟨Function.update home ar (some j), fun a i here => ?_, fun i a listed => ?_, homes.distinct, fun u => ?_⟩
    · by_cases same : a = ar
      · subst same
        exact ⟨arena, AList.lookup_insert _⟩
      · obtain ⟨old, found⟩ := homes.made a i (by simpa [same] using here)
        exact kept_store s mem ar arena a old found
    · have here := homes.listed i a listed
      rw [Function.update_of_ne (other a i here), here]
    · have update : ∀ a i, home a = some i → Function.update home ar (some j) a = some i := fun a i here => by
        rw [Function.update_of_ne (other a i here), here]
      have old := homes.settled u
      by_cases same : u = t
      · subst same
        refine ⟨fun i a holds => update a i (old.held i a holds), by simp, fun i n a built => ?_, by simp, by simp,
          by simp⟩
        obtain ⟨rfl, rfl, rfl⟩ : j = i ∧ size = n ∧ ar = a := by simpa using built
        exact ⟨Function.update_self .., unlisted j⟩
      · obtain ⟨stage', arena'⟩ := all.others same
        refine ⟨?_, ?_, ?_, ?_, ?_, ?_⟩ <;> simp only [stage', arena', arenas_goto]
        · exact fun i a holds => update a i (old.held i a holds)
        · exact fun i n a won => update a i (old.won i n a won)
        · exact fun i n a built => ⟨update a i (old.built i n a built).1, (old.built i n a built).2⟩
        · exact old.stored
        · intro i a given here
          -- an arena that is given back exists, so it is another one
          have hand : s.ledger.held (u, none) = some a := by
            rcases given with leaving | releasing
            · exact congrArg Stage.hand leaving
            · exact congrArg Stage.hand releasing
          have flagged := (exclusive.flagged a).mpr ⟨_, hand⟩
          have apart : a ≠ ar := by
            rintro rfl
            simp [Threads.ledger, flag, fresh] at flagged
          exact old.given i a given (by rwa [Function.update_of_ne apart] at here)
        · exact old.suffix
  | @publishes j size ar stage =>
    have holds := own j size ar stage (by simp [arenas_pushFront])
    have unlisted := old.stored j size ar stage holds
    have mine : s.ledger.held (t, some j) = some ar := holds
    refine ⟨home, homes.made, fun i a listed => ?_, fun i => ?_, fun u => ?_⟩
    · rw [arenas_goto, arenas_pushFront] at listed
      split at listed
      next same =>
        subst same
        rcases List.mem_cons.mp listed with rfl | before
        · exact old.held i a holds
        · exact homes.listed i a before
      next => exact homes.listed i a listed
    · rw [arenas_goto, arenas_pushFront]
      split
      next same =>
        subst same
        exact List.nodup_cons.mpr ⟨unlisted, homes.distinct i⟩
      next => exact homes.distinct i
    · by_cases same : u = t
      · subst same
        exact ⟨by simpa using old.held, by simp, by simp, by simp, by simp, by simp⟩
      · obtain ⟨stage', arena'⟩ := all.others same
        have old := homes.settled u
        have grows : ∀ i a, a ≠ ar → a ∉ (s.pools i).arenas →
            a ∉ (if i = j then ar :: (s.pools i).arenas else (s.pools i).arenas) := by
          intro i a apart before
          split
          · simp [apart, before]
          · exact before
        refine ⟨?_, ?_, ?_, ?_, ?_, ?_⟩ <;> simp only [stage', arena', arenas_goto, arenas_pushFront]
        · exact old.held
        · exact old.won
        · intro i n a built
          refine ⟨(old.built i n a built).1, grows i a ?_ (old.built i n a built).2⟩
          rintro rfl
          have hand : s.ledger.held (u, none) = some a := congrArg Stage.hand built
          simpa using exclusive.alone _ _ a hand mine
        · intro i n a stored holds'
          refine grows i a ?_ (old.stored i n a stored holds')
          rintro rfl
          simpa [same] using exclusive.alone (u, some i) (t, some j) a holds' mine
        · exact old.given
        · intro i n rest scanning
          split
          · exact (old.suffix i n rest scanning).trans (List.suffix_cons _ _)
          · exact old.suffix i n rest scanning

/-! ## Runs -/

/-- Every arena has a place: in one pool, and with one thread at a time. -/
structure Housed (s : Threads I T) : Prop where
  homes : ∃ home, s.Homes home
  exclusive : Exclusive s.ledger
  seeking : s.Seeking

theorem Housed.fresh (fresh : s.Fresh) : s.Housed := by
  obtain ⟨exclusive, seeking⟩ := Run.exclusive (.start fresh)
  obtain ⟨_, _, pools, stage, _⟩ := fresh
  refine ⟨⟨fun _ => none, by simp, by simp [pools, Pool.init], by simp [pools, Pool.init], fun t => ?_⟩, exclusive,
    seeking⟩
  constructor <;> simp [pools, stage, Pool.init]

theorem Housed.step {action : Action I T} (housed : s.Housed) (admissible : s.Admissible action)
    (stepped : s.step action = .ok s') : s'.Housed := by
  obtain ⟨⟨home, homes⟩, exclusive, seeking⟩ := housed
  have moves := step_moves admissible stepped
  exact ⟨moves.homes homes exclusive fun _ _ _ stage push => published_own stepped stage push,
    (moves.ledger seeking).exclusive exclusive, moves.seeking seeking⟩

/-- The steps of runs with at most so many threads in a pool at one time. -/
def WithCrowd (i : I) (n : Nat) (s : Threads I T) (action : Action I T) : Prop :=
  s.Admissible action ∧ ∀ s', s.step action = .ok s' → s'.Crowd i n

/-- A pool never has more arenas on its list than there were threads in it at one time, whatever
is between the steps of the threads, and none of them twice. -/
theorem run_peak {n : Nat} (run : Runs Fresh (WithCrowd i n) step s) :
    (s.pools i).arenas.Nodup ∧ (s.pools i).arenas.length ≤ n := by
  have invariant : (s.row i).Fits n ∧ s.Housed := by
    apply Runs.invariant _ _ run
    · intro s fresh
      refine ⟨?_, .fresh fresh⟩
      obtain ⟨_, _, pools, stage, _⟩ := fresh
      have empty : s.row i = { made := 0, level := fun _ => none } := by
        have away : s.level i = fun _ => none := by
          funext t
          simp [level, pools, stage, Stage.level, Pool.init]
        simp [row, away, pools, Pool.init]
      exact empty ▸ .empty n
    · rintro s action s' ⟨fits, housed⟩ ⟨admissible, crowd⟩ stepped
      obtain ⟨home, homes⟩ := housed.homes
      have own : ∀ j size ar, s.stage action.thread = .stored j size →
          (s'.pools j).arenas = ar :: (s.pools j).arenas → (s.pools j).arena action.thread = some ar :=
        fun _ _ _ stage push => published_own stepped stage push
      exact ⟨((step_moves admissible stepped).row homes housed.seeking housed.exclusive own i).fits
        (crowd s' stepped).row fits,
        housed.step admissible stepped⟩
  obtain ⟨fits, housed⟩ := invariant
  obtain ⟨home, homes⟩ := housed.homes
  exact ⟨homes.distinct i, fits.few⟩

/-- Two threads find the list empty, and each makes an arena. -/
theorem run_peak_two : ∃ s : Threads Unit Bool, (s.pools ()).arenas = [2, 1] ∧
    (s.pools ()).arenas.Nodup ∧ (s.pools ()).arenas.length ≤ 2 := by
  have computed : (replay Admissible step (unused : Threads Unit Bool)
      [.malloc false () 16, .malloc true () 16, .advance false ⟨none, none, none, none, none, none, 0⟩ [],
        .advance true ⟨none, none, none, none, none, none, 0⟩ [],
        .advance false ⟨some 1, some 8192, some 1, none, none, none, 0⟩ [],
        .advance true ⟨some 2, some 16384, some 1, none, none, none, 0⟩ [],
        .advance false ⟨none, none, none, none, none, none, 0⟩ [],
        .advance true ⟨none, none, none, none, none, none, 0⟩ [],
        .advance false ⟨none, none, none, some 3, none, none, 0⟩ [],
        .advance true ⟨none, none, none, some 4, none, none, 0⟩ []]).map (fun s => (s.pools ()).arenas) =
      some [2, 1] := by decide +kernel
  obtain ⟨s, replayed, arenas⟩ := Option.map_eq_some_iff.mp computed
  have run : Run s := replay_runs _ (.start ⟨rfl, rfl, rfl, rfl, rfl⟩) replayed
  have crowded : Runs Fresh (WithCrowd () 2) step s :=
    run.mono fun _ _ admissible => ⟨admissible, fun _ _ ts distinct _ => distinct.length_le_card⟩
  exact ⟨s, arenas, run_peak crowded⟩

end Steps

end Threads

end SmallObject
