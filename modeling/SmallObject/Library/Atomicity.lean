import Mathlib.Logic.Relation
import SmallObject.Library.Execution
import SmallObject.Library.RwLock

/-! Operations on an object behind a lock for many readers or one writer.

An operation waits for the lock, works on the object step by step, and gives the lock back.
Steps of several readers come in any order. If an operation that runs alone does what an abstract
one does, then in every run each operation takes effect at once, between its call and its return.
-/

set_option autoImplicit false

namespace Locking

open Execution

/-- Operations made of steps: one step fails, goes on, or ends the operation with an answer. -/
structure Operations (σ A L B ε : Type) where
  /-- The operation takes the lock as a writer. -/
  writes : A → Bool
  start : A → L
  next : L → σ → Except ε (σ × (L ⊕ B))
  /-- The places of operations that only read. -/
  reads : L → Bool
  reads_start : ∀ a, writes a = false → reads (start a) = true
  reads_next : ∀ l s s' x, reads l = true → next l s = .ok (s', x) → s' = s ∧ ∀ l', x = .inl l' → reads l' = true

namespace Operations

variable {σ A L B ε : Type} {ops : Operations σ A L B ε}

/-- An operation alone, from a place on. -/
inductive Finishes (ops : Operations σ A L B ε) : L → σ → B → σ → Prop where
  | last {l : L} {s s' : σ} {b : B} : ops.next l s = .ok (s', .inr b) → Finishes ops l s b s'
  | next {l l' : L} {s s₁ s' : σ} {b : B} :
      ops.next l s = .ok (s₁, .inl l') → Finishes ops l' s₁ b s' → Finishes ops l s b s'

/-- Some steps of an operation that has not ended. -/
inductive Passes (ops : Operations σ A L B ε) (l₀ : L) (s₀ : σ) : L → σ → Prop where
  | start : Passes ops l₀ s₀ l₀ s₀
  | next {l l' : L} {s s' : σ} : Passes ops l₀ s₀ l s → ops.next l s = .ok (s', .inl l') → Passes ops l₀ s₀ l' s'

variable {l l' : L} {s s' s'' : σ} {b b' : B}

theorem Finishes.unique (first : ops.Finishes l s b s') (second : ops.Finishes l s b' s'') : b = b' ∧ s' = s'' := by
  induction first with
  | last ends =>
    cases second with
    | last ends' => simpa [ends, and_comm] using ends'
    | next goes _ => simp [ends] at goes
  | next goes _ ih =>
    cases second with
    | last ends => simp [goes] at ends
    | next goes' rest =>
      obtain ⟨rfl, rfl⟩ : _ = _ ∧ _ = _ := by simpa [goes] using goes'
      exact ih rest

theorem Passes.finishes (passes : ops.Passes l s l' s') (rest : ops.Finishes l' s' b s'') :
    ops.Finishes l s b s'' := by
  induction passes with
  | start => exact rest
  | next _ goes ih => exact ih (.next goes rest)

/-- What has been begun ends as it would have from the start. -/
theorem Passes.rest (passes : ops.Passes l s l' s') (all : ops.Finishes l s b s'') :
    ops.Finishes l' s' b s'' := by
  induction passes with
  | start => exact all
  | next _ goes ih =>
    cases ih with
    | last ends => simp [goes] at ends
    | next goes' rest =>
      obtain ⟨rfl, rfl⟩ : _ = _ ∧ _ = _ := by simpa [goes] using goes'
      exact rest

theorem Passes.trans {l₁ : L} {s₁ : σ} (first : ops.Passes l s l₁ s₁) (second : ops.Passes l₁ s₁ l' s') :
    ops.Passes l s l' s' := by
  induction second with
  | start => exact first
  | next _ goes ih => exact .next ih goes

theorem Finishes.step (finishes : ops.Finishes l s b s') : ∃ s₁ x, ops.next l s = .ok (s₁, x) := by
  cases finishes with
  | last ends => exact ⟨_, _, ends⟩
  | next goes _ => exact ⟨_, _, goes⟩

/-- What a reader has done so far is nothing. -/
theorem Passes.reads (passes : ops.Passes l s l' s') (reader : ops.reads l = true) :
    s' = s ∧ ops.reads l' = true := by
  induction passes with
  | start => exact ⟨rfl, reader⟩
  | next _ goes ih =>
    obtain ⟨rfl, reading⟩ := ih
    obtain ⟨same, onward⟩ := ops.reads_next _ _ _ _ reading goes
    exact ⟨same, onward _ rfl⟩

end Operations

/-! ## Threads -/

/-- Where a thread is: in no operation, before the lock, in it, or about to give it back. -/
inductive Place (A L B : Type) where
  | idle
  | calling (a : A)
  | inside (a : A) (l : L)
  | leaving (a : A) (b : B)

/-- An operation is called, takes effect with an answer, and returns it. -/
inductive Event (T A B : Type) where
  | called (t : T) (a : A)
  | done (t : T) (a : A) (b : B)
  | returned (t : T) (a : A) (b : B)
  deriving DecidableEq, Repr

def Event.thread {T A B : Type} : Event T A B → T
  | called t _ | done t _ _ | returned t _ _ => t

/-- What the threads share, and what has happened, the latest first. -/
structure Shared (σ T A L B : Type) where
  state : σ
  lock : RwLock T
  place : T → Place A L B
  log : List (Event T A B)

inductive Action (T A : Type) where
  | call (t : T) (a : A)
  | advance (t : T)
  deriving DecidableEq, Repr

/-- A history of an abstract object: each operation takes effect at once. -/
inductive Legal {S T A B : Type} (does : A → S → B → S → Prop) (start : S) : List (Event T A B) → S → Prop where
  | start : Legal does start [] start
  | called {x : S} {log : List (Event T A B)} {t : T} {a : A} :
      Legal does start log x → Legal does start (.called t a :: log) x
  | done {x x' : S} {log : List (Event T A B)} {t : T} {a : A} {b : B} :
      Legal does start log x → does a x b x' → Legal does start (.done t a b :: log) x'
  | returned {x : S} {log : List (Event T A B)} {t : T} {a : A} {b : B} :
      Legal does start log x → Legal does start (.returned t a b :: log) x

/-- The events of one thread: an operation after the other, each called, done and returned with
the same answer. The last one may be open. -/
inductive Alternates {T A B : Type} (t : T) : List (Event T A B) → Option (A × Option B) → Prop where
  | none : Alternates t [] none
  | called {log : List (Event T A B)} {a : A} :
      Alternates t log none → Alternates t (.called t a :: log) (some (a, none))
  | done {log : List (Event T A B)} {a : A} {b : B} :
      Alternates t log (some (a, none)) → Alternates t (.done t a b :: log) (some (a, some b))
  | returned {log : List (Event T A B)} {a : A} {b : B} :
      Alternates t log (some (a, some b)) → Alternates t (.returned t a b :: log) none

namespace Shared

variable {σ T A L B ε : Type}

/-- The operation that a thread is in, with its answer if it has taken effect. -/
def opened : Place A L B → Option (A × Option B)
  | .idle => none
  | .calling a | .inside a _ => some (a, none)
  | .leaving a b => some (a, some b)

def mode (ops : Operations σ A L B ε) : Place A L B → Mode
  | .inside a _ | .leaving a _ => if ops.writes a then .writing else .reading
  | _ => .outside

def init (s : σ) : Shared σ T A L B := { state := s, lock := .free, place := fun _ => .idle, log := [] }

section Steps

variable [DecidableEq T]

def goto (s : Shared σ T A L B) (t : T) (place : Place A L B) : Shared σ T A L B :=
  { s with place := Function.update s.place t place }

def record (s : Shared σ T A L B) (e : Event T A B) : Shared σ T A L B := { s with log := e :: s.log }

def enter (ops : Operations σ A L B ε) (s : Shared σ T A L B) (t : T) (a : A) : Option (RwLock T) :=
  if ops.writes a then s.lock.writeLock t else s.lock.readLock t

def leave (ops : Operations σ A L B ε) (s : Shared σ T A L B) (t : T) (a : A) : RwLock T :=
  if ops.writes a then s.lock.writeUnlock else s.lock.readUnlock t

/-- The next step of a thread. One that waits for the lock stays where it is. -/
def advance (ops : Operations σ A L B ε) (s : Shared σ T A L B) (t : T) : Except ε (Shared σ T A L B) :=
  match s.place t with
  | .idle => .ok s
  | .calling a =>
    match s.enter ops t a with
    | none => .ok s
    | some lock => .ok ({ s with lock }.goto t (.inside a (ops.start a)))
  | .inside a l =>
    match ops.next l s.state with
    | .error e => .error e
    | .ok (state, .inl l) => .ok ({ s with state }.goto t (.inside a l))
    | .ok (state, .inr b) => .ok (({ s with state }.record (.done t a b)).goto t (.leaving a b))
  | .leaving a b => .ok (({ s with lock := s.leave ops t a }.record (.returned t a b)).goto t .idle)

/-- A thread is in one operation at a time. -/
def step (ops : Operations σ A L B ε) (s : Shared σ T A L B) : Action T A → Except ε (Shared σ T A L B)
  | .call t a =>
    match s.place t with
    | .idle => .ok ((s.record (.called t a)).goto t (.calling a))
    | _ => .ok s
  | .advance t => s.advance ops t

/-- An operation gets the lock in a state that it is permitted in. -/
def Admissible (ops : Operations σ A L B ε) (permitted : A → σ → Prop) (s : Shared σ T A L B) : Action T A → Prop
  | .advance t =>
    match s.place t with
    | .calling a => (s.enter ops t a).isSome → permitted a s.state
    | _ => True
  | _ => True

def Run (ops : Operations σ A L B ε) (permitted : A → σ → Prop) (start : σ) : Shared σ T A L B → Prop :=
  Runs (· = init start) (Admissible ops permitted) (step ops)

/-- The thread is in an operation, and not in front of a lock that others hold. -/
def GoesOn (ops : Operations σ A L B ε) (s : Shared σ T A L B) (t : T) : Prop :=
  match s.place t with
  | .idle => False
  | .calling a => (s.enter ops t a).isSome
  | _ => True

end Steps

/-! ## What holds at every step -/

section Atomic

variable {S : Type} {ops : Operations σ A L B ε} {permitted : A → σ → Prop} {related : σ → S → Prop}
  {does : A → S → B → S → Prop} {start : S}

/-- Alone, an operation that is permitted comes to an end, and does what the abstract one does. -/
def Simulates (ops : Operations σ A L B ε) (permitted : A → σ → Prop) (related : σ → S → Prop)
    (does : A → S → B → S → Prop) : Prop :=
  ∀ a s x, related s x → permitted a s →
    ∃ b s' x', ops.Finishes (ops.start a) s b s' ∧ does a x b x' ∧ related s' x'

/-- The object as the operations that have taken effect leave it, and the abstract one. Whoever is
inside has come from there. -/
structure Atomic (ops : Operations σ A L B ε) (permitted : A → σ → Prop) (related : σ → S → Prop)
    (does : A → S → B → S → Prop) (start : S) [DecidableEq T] (s : Shared σ T A L B) (done : σ) (x : S) : Prop where
  held : Held s.lock fun t => mode ops (s.place t)
  known : Known s.lock fun t => mode ops (s.place t)
  legal : Legal does start s.log x
  related : related done x
  inside : ∀ t a l, s.place t = .inside a l → permitted a done ∧ ops.Passes (ops.start a) done l s.state
  still : (∀ t a l, s.place t = .inside a l → ops.writes a = false) → s.state = done
  alternates : ∀ t, Alternates t (s.log.filter fun e => e.thread = t) (opened (s.place t))

variable [DecidableEq T] {s : Shared σ T A L B} {done : σ} {x : S} {t : T} {a : A} {l : L} {b : B}

theorem atomic_init {s₀ : σ} (first : related s₀ start) :
    Atomic ops permitted related does start (init s₀ : Shared σ T A L B) s₀ start := by
  refine ⟨?_, ?_, .start, first, by simp [init], fun _ => rfl, fun t => .none⟩
  · simpa [init, mode] using Held.free
  · simpa [init, mode] using Known.free

/-- The places after a step of one thread. -/
theorem mode_goto (s : Shared σ T A L B) (t : T) (p : Place A L B) :
    (fun u => mode ops ((s.goto t p).place u)) = Function.update (fun u => mode ops (s.place u)) t (mode ops p) := by
  funext u
  by_cases same : u = t
  · subst same
    simp [goto]
  · simp [goto, same]

theorem place_goto (s : Shared σ T A L B) (t : T) (p : Place A L B) : (s.goto t p).place t = p :=
  Function.update_self ..

theorem place_goto_ne (s : Shared σ T A L B) {u : T} (other : u ≠ t) (p : Place A L B) :
    (s.goto t p).place u = s.place u :=
  Function.update_of_ne other ..

namespace Atomic

/-- Beside a writer nobody else is inside. -/
theorem alone (atomic : Atomic ops permitted related does start s done x) (here : s.place t = .inside a l)
    (writer : ops.writes a = true) {u : T} (other : u ≠ t) (a' : A) (l' : L) : s.place u ≠ .inside a' l' := by
  intro there
  have writes : mode ops (s.place t) = .writing := by simp [here, mode, writer]
  have holds : mode ops (s.place u) ≠ .outside := by
    simp only [there, mode]
    split <;> simp
  exact other (atomic.held.alone writes holds).symm

/-- A reader finds the object as it is left by the operations that have taken effect. -/
theorem reader (atomic : Atomic ops permitted related does start s done x) (here : s.place t = .inside a l)
    (reader : ops.writes a = false) : s.state = done ∧ ops.reads l = true :=
  (atomic.inside t a l here).2.reads (ops.reads_start a reader)

/-- A step of one thread. If others are inside, it leaves them where they came from. -/
theorem moves (atomic : Atomic ops permitted related does start s done x) {p : Place A L B} {state done' : σ}
    {lock : RwLock T} {log : List (Event T A B)} {x' : S}
    (change : Change s.lock t (mode ops (s.place t)) (mode ops p) lock) (legal : Legal does start log x')
    (holds : related done' x')
    (here : ∀ a l, p = .inside a l → permitted a done' ∧ ops.Passes (ops.start a) done' l state)
    (others : ∀ u, u ≠ t → ∀ a l, s.place u = .inside a l → state = s.state ∧ done' = done)
    (still : (∀ a l, p = .inside a l → ops.writes a = false) →
      (∀ u, u ≠ t → ∀ a l, s.place u = .inside a l → ops.writes a = false) → state = done')
    (alternates : ∀ u, Alternates u (log.filter fun e => e.thread = u) (opened (Function.update s.place t p u))) :
    Atomic ops permitted related does start ({ s with state, lock, log }.goto t p) done' x' := by
  refine ⟨?_, ?_, legal, holds, ?_, fun readers => still ?_ ?_, alternates⟩
  · rw [mode_goto]
    exact atomic.held.change change
  · rw [mode_goto]
    exact atomic.known.change change
  · intro u a l there
    rcases eq_or_ne u t with rfl | other
    · rw [place_goto] at there
      exact here a l there
    · rw [place_goto_ne _ other] at there
      obtain ⟨rfl, rfl⟩ := others u other a l there
      exact atomic.inside u a l there
  · intro a l place
    exact readers t a l (by rw [place_goto, place])
  · intro u other a l place
    exact readers u a l (by rwa [place_goto_ne _ other])

/-- The events of the other threads are as they were, and those of the thread are one more. -/
theorem events (atomic : Atomic ops permitted related does start s done x) {e : Event T A B} {p : Place A L B}
    (own : e.thread = t) (onward : ∀ log, Alternates t log (opened (s.place t)) → Alternates t (e :: log) (opened p))
    (u : T) : Alternates u ((e :: s.log).filter fun e => e.thread = u) (opened (Function.update s.place t p u)) := by
  by_cases same : u = t
  · subst same
    simpa [own] using onward _ (atomic.alternates u)
  · simpa [own, Ne.symm same, same] using atomic.alternates u

/-- A step that is no event of its thread. -/
theorem silent (atomic : Atomic ops permitted related does start s done x) {p : Place A L B}
    (same : opened p = opened (s.place t)) (u : T) :
    Alternates u (s.log.filter fun e => e.thread = u) (opened (Function.update s.place t p u)) := by
  by_cases here : u = t
  · subst here
    simpa [same] using atomic.alternates u
  · simpa [here] using atomic.alternates u

theorem call (atomic : Atomic ops permitted related does start s done x) (idle : s.place t = .idle) (a : A) :
    Atomic ops permitted related does start ((s.record (.called t a)).goto t (.calling a)) done x := by
  refine atomic.moves (p := .calling a) ?_ (.called atomic.legal) atomic.related (by simp) (fun _ _ _ _ _ => ⟨rfl, rfl⟩)
    (fun _ readers => atomic.still fun u a' l there => ?_) (atomic.events rfl fun log before => ?_)
  · rw [idle]
    exact .stay _
  · refine readers u ?_ a' l there
    rintro rfl
    simp [idle] at there
  · rw [idle] at before
    exact .called before

theorem enter (atomic : Atomic ops permitted related does start s done x) (calling : s.place t = .calling a)
    {lock : RwLock T} (entered : s.enter ops t a = some lock) (allowed : permitted a s.state) :
    Atomic ops permitted related does start ({ s with lock }.goto t (.inside a (ops.start a))) done x := by
  -- the lock lets nobody in beside a writer, so the object is as it was left
  have vacant : s.lock.writer = none := by
    unfold Shared.enter at entered
    split at entered
    · exact (RwLock.writeLock_eq_some entered).1
    · exact (RwLock.readLock_eq_some entered).1
  have same : s.state = done := atomic.still fun u a' l there => by
    by_contra writer
    have writes : mode ops (s.place u) = .writing := by simp [there, mode, writer]
    simp [atomic.held.writing u writes] at vacant
  refine atomic.moves ?_ atomic.legal atomic.related ?_ (fun _ _ _ _ _ => ⟨rfl, rfl⟩) (fun _ _ => same)
    (atomic.silent (by rw [calling]; rfl))
  · rw [calling]
    unfold Shared.enter at entered
    simp only [mode]
    split at entered
    next writer => simpa only [writer, if_true] using Change.writeLock entered
    next reader => simpa only [reader, Bool.false_eq_true, if_false] using Change.readLock entered
  · rintro a' l ⟨⟩
    rw [same]
    exact ⟨same ▸ allowed, .start⟩

/-- A step of an operation that goes on. -/
theorem onward (atomic : Atomic ops permitted related does start s done x) (here : s.place t = .inside a l)
    {state : σ} {l' : L} (next : ops.next l s.state = .ok (state, .inl l')) :
    Atomic ops permitted related does start ({ s with state }.goto t (.inside a l')) done x := by
  obtain ⟨allowed, passes⟩ := atomic.inside t a l here
  refine atomic.moves ?_ atomic.legal atomic.related ?_ (fun u other a' l'' there => ⟨?_, rfl⟩) (fun reads _ => ?_)
    (atomic.silent (by rw [here]; rfl))
  · rw [here]
    exact .stay _
  · rintro a' l'' ⟨⟩
    exact ⟨allowed, passes.next next⟩
  · cases writer : ops.writes a with
    | true => exact absurd there (atomic.alone here writer other a' l'')
    | false => exact (ops.reads_next _ _ _ _ (atomic.reader here writer).2 next).1
  · obtain ⟨same, reads⟩ := atomic.reader here (reads a l' rfl)
    rw [(ops.reads_next _ _ _ _ reads next).1, same]

/-- The last step of an operation; here it takes effect. -/
theorem finish (atomic : Atomic ops permitted related does start s done x)
    (simulates : Simulates ops permitted related does) (here : s.place t = .inside a l) {state : σ} {b : B}
    (next : ops.next l s.state = .ok (state, .inr b)) :
    ∃ x', Atomic ops permitted related does start
      (({ s with state }.record (.done t a b)).goto t (.leaving a b)) state x' := by
  obtain ⟨allowed, passes⟩ := atomic.inside t a l here
  obtain ⟨b', s', x', finishes, effect, holds⟩ := simulates a done x atomic.related allowed
  obtain ⟨rfl, rfl⟩ := (passes.finishes (.last next)).unique finishes
  refine ⟨x', atomic.moves (p := .leaving a b) ?_ (.done atomic.legal effect) holds (by simp)
    (fun u other a' l' there => ?_) (fun _ _ => rfl) (atomic.events rfl fun log before => ?_)⟩
  · rw [here]
    exact .stay _
  · cases writer : ops.writes a with
    | true => exact absurd there (atomic.alone here writer other a' l')
    | false =>
      obtain ⟨same, reads⟩ := atomic.reader here writer
      have unchanged := (ops.reads_next _ _ _ _ reads next).1
      exact ⟨unchanged, unchanged.trans same⟩
  · rw [here] at before
    exact .done before

theorem leave (atomic : Atomic ops permitted related does start s done x) (here : s.place t = .leaving a b) :
    Atomic ops permitted related does start
      (({ s with lock := s.leave ops t a }.record (.returned t a b)).goto t .idle) done x := by
  refine atomic.moves (p := .idle) ?_ (.returned atomic.legal) atomic.related (by simp)
    (fun _ _ _ _ _ => ⟨rfl, rfl⟩) (fun _ readers => atomic.still fun u a' l there => ?_)
    (atomic.events rfl fun log before => ?_)
  · rw [here]
    simp only [mode, Shared.leave]
    split
    · exact .writeUnlock
    · exact .readUnlock
  · refine readers u ?_ a' l there
    rintro rfl
    simp [here] at there
  · rw [here] at before
    exact .returned before

theorem step (atomic : Atomic ops permitted related does start s done x)
    (simulates : Simulates ops permitted related does) {action : Action T A}
    (admissible : s.Admissible ops permitted action) :
    ∃ s' done' x', s.step ops action = .ok s' ∧ Atomic ops permitted related does start s' done' x' := by
  cases action with
  | call t a =>
    cases here : s.place t with
    | idle => exact ⟨_, done, x, by simp only [Shared.step, here], atomic.call here a⟩
    | _ => exact ⟨s, done, x, by simp only [Shared.step, here], atomic⟩
  | advance t =>
    cases here : s.place t with
    | idle => exact ⟨s, done, x, by simp only [Shared.step, advance, here], atomic⟩
    | calling a =>
      cases entered : s.enter ops t a with
      | none => exact ⟨s, done, x, by simp only [Shared.step, advance, here, entered], atomic⟩
      | some lock =>
        simp only [Admissible, here, entered, Option.isSome_some, forall_const] at admissible
        exact ⟨_, done, x, by simp only [Shared.step, advance, here, entered], atomic.enter here entered admissible⟩
    | inside a l =>
      obtain ⟨allowed, passes⟩ := atomic.inside t a l here
      obtain ⟨b, s', x', finishes, _⟩ := simulates a done x atomic.related allowed
      obtain ⟨state, outcome, next⟩ := (passes.rest finishes).step
      cases outcome with
      | inl l' => exact ⟨_, done, x, by simp only [Shared.step, advance, here, next], atomic.onward here next⟩
      | inr b' =>
        obtain ⟨x', atomic'⟩ := atomic.finish simulates here next
        exact ⟨_, state, x', by simp only [Shared.step, advance, here, next], atomic'⟩
    | leaving a b => exact ⟨_, done, x, by simp only [Shared.step, advance, here], atomic.leave here⟩

/-- If a thread is in an operation, then some thread goes on. -/
theorem live (atomic : Atomic ops permitted related does start s done x) (busy : s.place t ≠ .idle) :
    ∃ u, s.GoesOn ops u := by
  by_cases outside : ∀ u, mode ops (s.place u) = .outside
  · obtain ⟨vacant, none⟩ := atomic.known.vacant outside
    refine ⟨t, ?_⟩
    have out := outside t
    cases here : s.place t with
    | idle => exact absurd here busy
    | calling a =>
      simp only [GoesOn, here, Shared.enter]
      split <;> simp [RwLock.writeLock, RwLock.readLock, vacant, none]
    | inside a l =>
      simp only [here, mode] at out
      split at out <;> simp at out
    | leaving a b =>
      simp only [here, mode] at out
      split at out <;> simp at out
  · obtain ⟨u, holds⟩ := not_forall.mp outside
    refine ⟨u, ?_⟩
    cases here : s.place u with
    | idle | calling a => simp [here, mode] at holds
    | inside a l | leaving a b => simp only [GoesOn, here]

end Atomic

/-- In every run the operations take effect one at a time, each between its call and its return and
with the answer that it returns. No step fails, and the threads do not all wait. -/
theorem Run.atomic {start : σ} {start' : S} (simulates : Simulates ops permitted related does)
    (first : related start start') (run : Run ops permitted start s) :
    ∃ done x, Atomic ops permitted related does start' s done x := by
  apply run.invariant
  · rintro s rfl
    exact ⟨start, start', atomic_init first⟩
  · rintro s action s' ⟨done, x, atomic⟩ admissible stepped
    obtain ⟨s₁, done', x', run, atomic'⟩ := atomic.step simulates admissible
    obtain rfl := Except.ok.inj (run.symm.trans stepped)
    exact ⟨done', x', atomic'⟩

end Atomic

end Shared

end Locking
