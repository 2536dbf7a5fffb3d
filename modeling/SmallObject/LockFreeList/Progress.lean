import SmallObject.LockFreeList.Threads

/-! How many steps a call of `push_front` takes.

A `compare_exchange_weak` fails because another thread has published a node since the load of the
head, or for no reason. So a thread that does not come to its end makes way for others: every four
steps of it there is one of these.
-/

set_option autoImplicit false

namespace SmallObject

open Linked Chain Execution

namespace LockFreeList

/-- The event is a step of the thread. -/
def Event.advances {T I E : Type} [DecidableEq T] (t : T) : Event T I E → Bool
  | advance u _ => u = t
  | _ => false

/-- The event is a step of the thread in which `compare_exchange_weak` fails for no reason. -/
def Event.fails {T I E : Type} [DecidableEq T] (t : T) : Event T I E → Bool
  | advance u spurious => u = t && spurious
  | _ => false

namespace Shared

variable {T I E : Type}

/-- The steps that a thread has yet to take if nothing is in its way any more: those to the end of
its round, and those of another round when its old head is not the head by now. -/
def owed (s : Shared T I E) (t : T) : Nat :=
  match s.phase t with
  | .idle => 0
  | .created _ => 4
  | .loaded _ oldHead => if s.list.head = some oldHead then 3 else 7
  | .backed _ oldHead => if s.list.head = oldHead then 2 else 6
  | .linked _ oldHead => if s.list.head = oldHead then 1 else 5

variable {s s' : Shared T I E} {t u : T} {new : Addr × E}

theorem owed_pos (isNew : (s.phase t).new = some new) : 0 < s.owed t := by
  unfold owed
  cases phase : s.phase t with
  | idle => simp [phase, Phase.new] at isNew
  | created => simp
  | loaded | backed | linked =>
    dsimp only
    split <;> simp

/-- Whatever becomes of the head, it is one round more at most. -/
theorem owed_head (phase : s'.phase t = s.phase t) : s'.owed t ≤ s.owed t + 4 := by
  unfold owed
  rw [phase]
  cases s.phase t with
  | idle | created => simp
  | loaded | backed | linked =>
    dsimp only
    split <;> split <;> omega

theorem owed_same (phase : s'.phase t = s.phase t) (head : s'.list.head = s.list.head) : s'.owed t = s.owed t := by
  unfold owed
  rw [phase, head]

variable [DecidableEq T]

/-- Every step of a thread brings it nearer to its end, but for an exchange that fails for no reason. -/
theorem owed_moves (linear : s.Linear) (isNew : (s.phase t).new = some new) (spurious : Bool)
    (stepped : s.advance t spurious = .ok s') :
    s'.pushed = new :: s.pushed ∨ (s'.phase t).new = some new ∧ s'.pushed = s.pushed ∧
      s'.owed t + 1 ≤ s.owed t + if spurious then 4 else 0 := by
  unfold Shared.advance at stepped
  cases phase : s.phase t with
  | idle => simp [phase, Phase.new] at isNew
  | created mine =>
    obtain rfl : mine = new := by simpa [phase, Phase.new] using isNew
    cases head : s.list.head with
    | none =>
      obtain rfl : s.goto t (.backed mine none) = s' := by simpa [phase, head] using stepped
      exact .inr ⟨by simp [goto, Phase.new], rfl, Nat.le_add_right_of_le (by simp [owed, goto, phase, head])⟩
    | some oldHead =>
      obtain rfl : s.goto t (.loaded mine oldHead) = s' := by simpa [phase, head] using stepped
      exact .inr ⟨by simp [goto, Phase.new], rfl, Nat.le_add_right_of_le (by simp [owed, goto, phase, head])⟩
  | loaded mine oldHead =>
    obtain rfl : mine = new := by simpa [phase, Phase.new] using isNew
    obtain ⟨e, stored⟩ := linear.exists_stored (linear.loaded t mine oldHead phase)
    obtain ⟨list, run, head, _⟩ := exchangePrev_links stored (some mine.1)
    simp only [phase, run, ok_bind] at stepped
    obtain rfl := Except.ok.inj stepped
    refine .inr ⟨by simp [goto, Phase.new], rfl, ?_⟩
    simp only [owed, goto, phase, head, Function.update_self]
    split <;> omega
  | backed mine oldHead =>
    obtain rfl : mine = new := by simpa [phase, Phase.new] using isNew
    obtain ⟨stored, _⟩ := linear.own t mine isNew
    obtain ⟨list, run, head, _⟩ := exchangeNext_links stored oldHead
    simp only [phase, run, ok_bind] at stepped
    obtain rfl := Except.ok.inj stepped
    refine .inr ⟨by simp [goto, Phase.new], rfl, ?_⟩
    simp only [owed, goto, phase, head, Function.update_self]
    split <;> omega
  | linked mine oldHead =>
    obtain rfl : mine = new := by simpa [phase, Phase.new] using isNew
    by_cases succeeds : s.list.head = oldHead ∧ spurious = false
    · simp only [phase, compareExchangeWeak, succeeds, and_self, if_true] at stepped
      exact .inl (Except.ok.inj stepped ▸ rfl)
    · simp only [phase, compareExchangeWeak, succeeds, if_false] at stepped
      obtain rfl := Except.ok.inj stepped
      refine .inr ⟨by simp [goto, Phase.new], rfl, ?_⟩
      simp only [owed, goto, phase, Function.update_self]
      -- the head is another one, or the exchange fails for no reason
      rcases Decidable.not_and_iff_or_not.mp succeeds with other | failed
      · simp [other]
      · obtain rfl : spurious = true := by simpa using failed
        split <;> simp

variable [DecidableEq I]

/-- A step of another thread costs a round if it publishes a node, and nothing else. -/
theorem owed_step {e : Event T I E} (linear : s.Linear) (isNew : (s.phase t).new = some new)
    (stepped : s.step e = .ok s') :
    new ∈ s'.pushed ∨ (s'.phase t).new = some new ∧ s.pushed.length ≤ s'.pushed.length ∧
      s'.owed t + (if e.advances t then 1 else 0) + 4 * s.pushed.length ≤
        s.owed t + 4 * s'.pushed.length + if e.fails t then 4 else 0 := by
  have quiet : s'.phase t = s.phase t → s'.list.head = s.list.head → s'.pushed = s.pushed → e.advances t = false →
      (s'.phase t).new = some new ∧ s.pushed.length ≤ s'.pushed.length ∧
        s'.owed t + (if e.advances t then 1 else 0) + 4 * s.pushed.length ≤
          s.owed t + 4 * s'.pushed.length + if e.fails t then 4 else 0 := by
    intro phase head pushed away
    refine ⟨phase ▸ isNew, by rw [pushed], ?_⟩
    rw [owed_same phase head, pushed, away]
    exact Nat.le_add_right ..
  cases e with
  | pushFront u node element =>
    simp only [Shared.step] at stepped
    split at stepped
    next idle =>
      obtain rfl := Except.ok.inj stepped
      have other : t ≠ u := by
        rintro rfl
        simp [idle, Phase.new] at isNew
      exact .inr (quiet (Function.update_of_ne other ..) rfl rfl rfl)
    next =>
      obtain rfl := Except.ok.inj stepped
      exact .inr (quiet rfl rfl rfl rfl)
  | advance u spurious =>
    by_cases mine : u = t
    · subst mine
      rcases owed_moves linear isNew spurious stepped with published | ⟨isNew', pushed, owed⟩
      · exact .inl (published ▸ List.mem_cons_self)
      · refine .inr ⟨isNew', by rw [pushed], ?_⟩
        simp only [Event.advances, Event.fails, decide_true, Bool.true_and, if_true, pushed]
        omega
    · have others : ∀ phase, Function.update s.phase u phase t = s.phase t := fun phase =>
        Function.update_of_ne (Ne.symm mine) ..
      rcases linear.advance u spurious with ⟨run, _⟩ | ⟨list, phase, run, moves⟩ | ⟨other, _, _, run⟩ <;>
        obtain rfl := Except.ok.inj (run.symm.trans stepped)
      · exact .inr (quiet rfl rfl rfl (by simp [Event.advances, mine]))
      · exact .inr (quiet (others _) moves.head rfl (by simp [Event.advances, mine]))
      · have phase : ({ s with
            list := { s.list with head := some other.1 }, pushed := other :: s.pushed }.goto u .idle).phase t =
            s.phase t := others _
        refine .inr ⟨phase.symm ▸ isNew, Nat.le_succ _, ?_⟩
        have bound := owed_head phase
        simp only [Event.advances, Event.fails, mine, decide_false, Bool.false_and, Bool.false_eq_true, if_false]
        simp only [goto, List.length_cons] at bound ⊢
        omega
  | begin i =>
    obtain rfl := Except.ok.inj stepped
    exact .inr (quiet rfl rfl rfl rfl)
  | round i =>
    simp only [Shared.step] at stepped
    split at stepped
    · obtain rfl := Except.ok.inj stepped
      exact .inr (quiet rfl rfl rfl rfl)
    · obtain ⟨_, _, stepped⟩ := bind_eq_ok stepped
      obtain rfl := Except.ok.inj stepped
      exact .inr (quiet rfl rfl rfl rfl)

theorem Linear.replay_pushed {events : List (Event T I E)} (linear : s.Linear)
    (replayed : replay Admissible Shared.step s events = some s') : s.pushed ⊆ s'.pushed := by
  induction events generalizing s with
  | nil =>
    obtain rfl : s = s' := by simpa [replay] using replayed
    exact List.Subset.refl _
  | cons e events ih =>
    simp only [replay] at replayed
    split at replayed
    next admissible =>
      obtain ⟨s₁, stepped, linear₁, more, _⟩ := linear.step admissible
      rw [stepped] at replayed
      exact List.Subset.trans more (ih linear₁ replayed)
    next => simp at replayed

theorem owed_replay {events : List (Event T I E)} (linear : s.Linear) (isNew : (s.phase t).new = some new)
    (replayed : replay Admissible step s events = some s') :
    new ∈ s'.pushed ∨ (s'.phase t).new = some new ∧ s.pushed.length ≤ s'.pushed.length ∧
      s'.owed t + events.countP (Event.advances t) + 4 * s.pushed.length ≤
        s.owed t + 4 * s'.pushed.length + 4 * events.countP (Event.fails t) := by
  induction events generalizing s with
  | nil =>
    obtain rfl : s = s' := by simpa [replay] using replayed
    exact .inr ⟨isNew, Nat.le_refl _, by simp⟩
  | cons e events ih =>
    simp only [replay] at replayed
    split at replayed
    next admissible =>
      obtain ⟨s₁, stepped, linear₁, _⟩ := linear.step admissible
      rw [stepped] at replayed
      rcases owed_step linear isNew stepped with published | ⟨isNew₁, more₁, owed₁⟩
      · exact .inl (linear₁.replay_pushed replayed published)
      · rcases ih linear₁ isNew₁ replayed with published | ⟨isNew', more, owed⟩
        · exact .inl published
        · refine .inr ⟨isNew', Nat.le_trans more₁ more, ?_⟩
          rw [List.countP_cons, List.countP_cons]
          split at owed₁ <;> split at owed₁ <;> simp_all <;> omega
    next => simp at replayed

/-- Whatever the other threads do during a call of `push_front`: as long as its node is not on the
list, the thread has taken less than four steps for the call itself, for each node that another
thread has published in the meantime, and for each exchange that has failed for no reason. -/
theorem run_progresses (run : Run s) {node : Addr} {element : E} {events : List (Event T I E)}
    (idle : s.phase t = .idle) (replayed : replay Admissible step s (.pushFront t node element :: events) = some s') :
    (node, element) ∈ s'.pushed ∨ s.pushed.length ≤ s'.pushed.length ∧
      events.countP (Event.advances t) <
        4 * (1 + (s'.pushed.length - s.pushed.length) + events.countP (Event.fails t)) := by
  simp only [replay] at replayed
  split at replayed
  next admissible =>
    obtain ⟨s₁, stepped, linear₁, _⟩ := run.linear.step admissible
    rw [stepped] at replayed
    simp only [Shared.step, idle] at stepped
    obtain ⟨phase, pushed⟩ : s₁.phase t = .created (node, element) ∧ s₁.pushed = s.pushed := by
      obtain rfl := Except.ok.inj stepped
      exact ⟨Function.update_self .., rfl⟩
    have first : s₁.owed t = 4 := by simp [owed, phase]
    rcases owed_replay linear₁ (by rw [phase]; rfl) replayed with published | ⟨isNew, more, owed⟩
    · exact .inl published
    · have positive := owed_pos isNew
      rw [first, pushed] at owed
      rw [pushed] at more
      exact .inr ⟨more, by omega⟩
  next => simp at replayed

/-- Another thread publishes its node during the first round, so the round is for nothing. -/
theorem run_progresses_late : ∃ (s s' : Shared Bool Unit Nat) (events : List (Event Bool Unit Nat)),
    (12, 3) ∉ s'.pushed ∧ events.countP (Event.advances true) = 4 ∧
    ((12, 3) ∈ s'.pushed ∨ s.pushed.length ≤ s'.pushed.length ∧
      events.countP (Event.advances true) <
        4 * (1 + (s'.pushed.length - s.pushed.length) + events.countP (Event.fails true))) := by
  have computed : ((replay Admissible step (empty : Shared Bool Unit Nat)
      [.pushFront false 10 1, .advance false false, .advance false false, .advance false false]).bind fun s =>
      (replay Admissible step s (.pushFront true 12 3 :: [.advance true false, .pushFront false 11 2,
        .advance false false, .advance false false, .advance false false, .advance false false,
        .advance true false, .advance true false, .advance true false])).map fun s' => (s.phase true, s'.pushed)) =
      some (.idle, [(11, 2), (10, 1)]) := by decide +kernel
  obtain ⟨s, replayed, later⟩ := Option.bind_eq_some_iff.mp computed
  obtain ⟨s', replayed', reached⟩ := Option.map_eq_some_iff.mp later
  obtain ⟨idle, pushed⟩ := Prod.mk.inj reached
  exact ⟨s, s', _, by simp [pushed], by decide,
    run_progresses (replay_runs _ (.start fresh_empty) replayed) idle replayed'⟩

end Shared

end LockFreeList

end SmallObject
