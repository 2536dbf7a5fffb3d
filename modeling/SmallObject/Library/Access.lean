import SmallObject.Library.Heap

/-! Computations on a heap that keep a record of every access.

A read, a write or the destruction of a cell that does not exist stops the computation.
What a computation that completes has recorded is therefore a sequence of accesses that
the heaps before and after it allow, and no such sequence touches a cell it has destroyed.
-/

set_option autoImplicit false

namespace Linked

variable {α ε β γ : Type}

inductive Access where
  | read (a : Addr)
  | write (a : Addr)
  | destroy (a : Addr)
  deriving DecidableEq, Repr

def Access.addr : Access → Addr
  | .read a | .write a | .destroy a => a

/-- The cells destroyed, in the order of their destruction. -/
def destroyed : List Access → List Addr
  | [] => []
  | .destroy a :: log => a :: destroyed log
  | .read _ :: log => destroyed log
  | .write _ :: log => destroyed log

/-! ## Sequences of accesses -/

/-- What one access makes of a heap. -/
inductive Accesses : Heap α → Access → Heap α → Prop
  | read {h : Heap α} {a : Addr} {cell : α} : h.lookup a = some cell → Accesses h (.read a) h
  | write {h : Heap α} {a : Addr} {old : α} (cell : α) :
    h.lookup a = some old → Accesses h (.write a) (h.insert a cell)
  | destroy {h : Heap α} {a : Addr} {cell : α} : h.lookup a = some cell → Accesses h (.destroy a) (h.erase a)

inductive Performs : Heap α → List Access → Heap α → Prop
  | nil (h : Heap α) : Performs h [] h
  | cons {h h' h'' : Heap α} {e : Access} {log : List Access} :
    Accesses h e h' → Performs h' log h'' → Performs h (e :: log) h''

section

variable {h h' h'' : Heap α} {log log' : List Access} {a : Addr}

/-- An access is to a cell that exists, and leaves every other cell as it is. -/
theorem Accesses.frame {e : Access} (step : Accesses h e h') :
    (∃ cell, h.lookup e.addr = some cell) ∧ AgreeOff [e.addr] h h' := by
  cases step with
  | read found => exact ⟨⟨_, found⟩, AgreeOff.refl _ _⟩
  | write cell found => exact ⟨⟨_, found⟩, (AgreeOff.refl _ _).insert List.mem_cons_self cell⟩
  | destroy found => exact ⟨⟨_, found⟩, (AgreeOff.refl _ _).erase List.mem_cons_self⟩

theorem Performs.append (first : Performs h log h') (second : Performs h' log' h'') :
    Performs h (log ++ log') h'' := by
  induction first with
  | nil => exact second
  | cons step _ ih => exact .cons step (ih second)

/-- A sequence that is done in two parts has a heap in between. -/
theorem Performs.split (run : Performs h (log ++ log') h'') : ∃ h', Performs h log h' ∧ Performs h' log' h'' := by
  induction log generalizing h with
  | nil => exact ⟨h, .nil h, run⟩
  | cons e log ih =>
    cases run with
    | cons step rest =>
      obtain ⟨h', first, second⟩ := ih rest
      exact ⟨h', .cons step first, second⟩

/-- A cell that does not exist is not touched, and does not come into being. -/
theorem Performs.absent (run : Performs h log h') (gone : h.lookup a = none) :
    (∀ e ∈ log, e.addr ≠ a) ∧ h'.lookup a = none := by
  induction run with
  | nil => exact ⟨nofun, gone⟩
  | @cons h _ _ e _ step _ ih =>
    obtain ⟨⟨cell, found⟩, same⟩ := step.frame
    have other : e.addr ≠ a := by
      intro isThis
      rw [isThis, gone] at found
      cases found
    obtain ⟨later, never⟩ := ih ((same a (by simpa using other.symm)).trans gone)
    exact ⟨List.forall_mem_cons.mpr ⟨other, later⟩, never⟩

/-- Nothing is done to a cell after its destruction. -/
theorem Performs.untouched_after {before after : List Access} (run : Performs h (before ++ .destroy a :: after) h') :
    ∀ e ∈ after, e.addr ≠ a := by
  obtain ⟨h₁, _, rest⟩ := run.split
  cases rest with
  | cons step later =>
    cases step with
    | destroy found => exact (later.absent (AList.lookup_erase _ _)).1

theorem addr_of_mem_destroyed (member : a ∈ destroyed log) : ∃ e ∈ log, e.addr = a := by
  induction log with
  | nil => cases member
  | cons e log ih =>
    have within : a ∈ destroyed log → ∃ f ∈ e :: log, f.addr = a := by
      intro inLog
      obtain ⟨f, inLog, same⟩ := ih inLog
      exact ⟨f, List.mem_cons_of_mem _ inLog, same⟩
    cases e with
    | read b => exact within member
    | write b => exact within member
    | destroy b =>
      rcases List.mem_cons.mp member with rfl | inLog
      · exact ⟨_, List.mem_cons_self, rfl⟩
      · exact within inLog

/-- No cell is destroyed twice. -/
theorem Performs.destroyed_nodup (run : Performs h log h') : (destroyed log).Nodup := by
  induction run with
  | nil => exact List.nodup_nil
  | cons step rest ih =>
    cases step with
    | read _ => exact ih
    | write _ _ => exact ih
    | destroy _ =>
      refine List.nodup_cons.mpr ⟨fun member => ?_, ih⟩
      obtain ⟨e, inLog, same⟩ := addr_of_mem_destroyed member
      exact (rest.absent (AList.lookup_erase _ _)).1 e inLog same

/-- The cells destroyed are those that existed before and do not exist after. -/
theorem Performs.mem_destroyed (run : Performs h log h') :
    a ∈ destroyed log ↔ (∃ cell, h.lookup a = some cell) ∧ h'.lookup a = none := by
  induction run with
  | nil h =>
    refine ⟨nofun, fun ⟨⟨cell, found⟩, gone⟩ => ?_⟩
    rw [found] at gone
    cases gone
  | @cons h _ _ e log step rest ih =>
    -- only an access to the cell itself can change whether it exists
    by_cases isThis : a = e.addr
    · subst isThis
      cases step with
      | read found => exact ih
      | write cell found =>
        refine ih.trans (and_congr_left fun _ => ?_)
        exact ⟨fun _ => ⟨_, found⟩, fun _ => ⟨cell, AList.lookup_insert _⟩⟩
      | destroy found =>
        have gone := (rest.absent (AList.lookup_erase _ _)).2
        exact ⟨fun _ => ⟨⟨_, found⟩, gone⟩, fun _ => List.mem_cons_self⟩
    · have same := step.frame.2 a (by simpa using isThis)
      rw [← same, ← ih]
      cases step with
      | read _ => exact .rfl
      | write _ _ => exact .rfl
      | destroy _ => exact List.mem_cons.trans (or_iff_right isThis)

end

/-! ## Recorded computations -/

/-- A heap and what has been done to it so far. -/
structure Session (α : Type) where
  heap : Heap α
  log : List Access

abbrev Recorded (α ε β : Type) := StateT (Session α) (Except ε) β

namespace Recorded

def readCell (fault : ε) (a : Addr) : Recorded α ε α := fun s =>
  match s.heap.lookup a with
  | none => .error fault
  | some cell => .ok (cell, { s with log := s.log ++ [.read a] })

def writeCell (fault : ε) (a : Addr) (cell : α) : Recorded α ε Unit := fun s =>
  match s.heap.lookup a with
  | none => .error fault
  | some _ => .ok ((), { heap := s.heap.insert a cell, log := s.log ++ [.write a] })

/-- A member of the cell is assigned. -/
def updateCell (fault : ε) (a : Addr) (f : α → α) : Recorded α ε Unit := do
  let cell ← readCell fault a
  writeCell fault a (f cell)

def destroyCell (fault : ε) (a : Addr) : Recorded α ε Unit := fun s =>
  match s.heap.lookup a with
  | none => .error fault
  | some _ => .ok ((), { heap := s.heap.erase a, log := s.log ++ [.destroy a] })

/-- What is recorded has been done. -/
def Honest (x : Recorded α ε β) : Prop :=
  ∀ s b s', x s = .ok (b, s') → ∃ log, s'.log = s.log ++ log ∧ Performs s.heap log s'.heap

section

variable {fault : ε} {x : Recorded α ε β} {k : β → Recorded α ε γ} {a : Addr}

theorem honest_pure (b : β) : Honest (pure b : Recorded α ε β) := by
  rintro s b' s' ⟨⟩
  exact ⟨[], (List.append_nil _).symm, .nil _⟩

theorem honest_get : Honest (get : Recorded α ε (Session α)) := by
  rintro s b s' ⟨⟩
  exact ⟨[], (List.append_nil _).symm, .nil _⟩

theorem honest_throw (e : ε) : Honest (throw e : Recorded α ε β) := by
  rintro s b s' ⟨⟩

theorem Honest.bind (first : Honest x) (rest : ∀ b, Honest (k b)) : Honest (x >>= k) := by
  intro s c s'' run
  change (x s >>= fun r => k r.1 r.2) = _ at run
  cases ran : x s with
  | error e =>
    rw [ran] at run
    cases run
  | ok r =>
    rw [ran] at run
    obtain ⟨log, recorded, performs⟩ := first s r.1 r.2 ran
    obtain ⟨log', recorded', performs'⟩ := rest r.1 r.2 c s'' run
    exact ⟨log ++ log', by rw [recorded', recorded, List.append_assoc], performs.append performs'⟩

/-- An access that completes has found its cell, and is the one that is recorded. -/
theorem honest_readCell : Honest (readCell fault a : Recorded α ε α) := by
  intro s b s' run
  unfold readCell at run
  split at run
  next => cases run
  next cell found =>
    cases run
    exact ⟨_, rfl, .cons (.read found) (.nil _)⟩

theorem honest_writeCell (cell : α) : Honest (writeCell fault a cell) := by
  intro s b s' run
  unfold writeCell at run
  split at run
  next => cases run
  next old found =>
    cases run
    exact ⟨_, rfl, .cons (.write cell found) (.nil _)⟩

theorem honest_updateCell (f : α → α) : Honest (updateCell fault a f) :=
  honest_readCell.bind fun cell => honest_writeCell (f cell)

theorem honest_destroyCell : Honest (destroyCell fault a : Recorded α ε Unit) := by
  intro s b s' run
  unfold destroyCell at run
  split at run
  next => cases run
  next cell found =>
    cases run
    exact ⟨_, rfl, .cons (.destroy found) (.nil _)⟩

end

end Recorded

/-! ## Without the record -/

/-- Both computations fail alike, or they complete with results that are related. -/
inductive Matching (related : β → γ → Prop) : Except ε β → Except ε γ → Prop
  | error (e : ε) : Matching related (.error e) (.error e)
  | ok {b : β} {c : γ} : related b c → Matching related (.ok b) (.ok c)

theorem Matching.bind {β' γ' : Type} {related : β → γ → Prop} {related' : β' → γ' → Prop} {x : Except ε β}
    {y : Except ε γ} {f : β → Except ε β'} {g : γ → Except ε γ'} (first : Matching related x y)
    (rest : ∀ b c, related b c → Matching related' (f b) (g c)) : Matching related' (x >>= f) (y >>= g) := by
  cases first with
  | error e => exact .error e
  | ok both => exact rest _ _ both

theorem Matching.completes {related : β → γ → Prop} {x : Except ε β} {c : γ}
    (both : Matching related x (.ok c)) : ∃ b, x = .ok b ∧ related b c := by
  cases both with
  | ok same => exact ⟨_, rfl, same⟩

namespace Recorded

/-- The value is computed, and nothing is changed. -/
def Reads (x : Recorded α ε β) (f : Heap α → Except ε β) : Prop :=
  ∀ s, Matching (fun r b => r.1 = b ∧ r.2.heap = s.heap) (x s) (f s.heap)

/-- The heap is computed. -/
def Writes (x : Recorded α ε Unit) (f : Heap α → Except ε (Heap α)) : Prop :=
  ∀ s, Matching (fun r h => r.2.heap = h) (x s) (f s.heap)

section

variable {x : Recorded α ε β} {y y' : Recorded α ε Unit} {f : Heap α → Except ε β} {g g' : Heap α → Except ε (Heap α)}

theorem Writes.congr (writes : Writes y g) (same : ∀ h, g h = g' h) : Writes y g' :=
  funext same ▸ writes

theorem reads_pure (b : β) : Reads (pure b : Recorded α ε β) fun _ => .ok b :=
  fun _ => .ok ⟨rfl, rfl⟩

theorem writes_pure : Writes (pure () : Recorded α ε Unit) .ok :=
  fun _ => .ok rfl

theorem Reads.bind {k : β → Recorded α ε γ} {l : β → Heap α → Except ε γ} (first : Reads x f)
    (rest : ∀ b, Reads (k b) (l b)) : Reads (x >>= k) fun h => f h >>= fun b => l b h := by
  intro s
  refine Matching.bind (first s) ?_
  rintro ⟨b, s'⟩ _ ⟨rfl, kept⟩
  rw [← kept]
  exact rest b s'

/-- What is written may depend on what was read. -/
theorem Reads.writes {k : β → Recorded α ε Unit} {l : β → Heap α → Except ε (Heap α)} (first : Reads x f)
    (rest : ∀ b, Writes (k b) (l b)) : Writes (x >>= k) fun h => f h >>= fun b => l b h := by
  intro s
  refine Matching.bind (first s) ?_
  rintro ⟨b, s'⟩ _ ⟨rfl, kept⟩
  rw [← kept]
  exact rest b s'

theorem Writes.bind (first : Writes y g) (rest : Writes y' g') : Writes (y >>= fun _ => y') fun h => g h >>= g' := by
  intro s
  refine Matching.bind (first s) ?_
  rintro ⟨_, s'⟩ _ rfl
  exact rest s'

theorem readCell_reads (fault : ε) (a : Addr) :
    Reads (readCell fault a : Recorded α ε α) fun h =>
      match h.lookup a with
      | none => .error fault
      | some cell => .ok cell := by
  intro s
  simp only [readCell]
  cases s.heap.lookup a with
  | none => exact .error fault
  | some cell => exact .ok ⟨rfl, rfl⟩

/-- A cell that has been read is there to be written. -/
theorem updateCell_writes (fault : ε) (a : Addr) (change : α → α) :
    Writes (updateCell fault a change) fun h =>
      match h.lookup a with
      | none => .error fault
      | some cell => .ok (h.insert a (change cell)) := by
  intro s
  change Matching _ (readCell fault a s >>= fun r => writeCell fault a (change r.1) r.2) _
  cases found : s.heap.lookup a with
  | none =>
    simp only [readCell, found]
    exact .error fault
  | some cell =>
    -- the cell that has been read is the one that is written
    have stored : writeCell fault a (change cell) ⟨s.heap, s.log ++ [.read a]⟩ =
        .ok ((), ⟨s.heap.insert a (change cell), s.log ++ [.read a] ++ [.write a]⟩) := by
      simp [writeCell, found]
    simp only [readCell, found]
    change Matching _ (writeCell fault a (change cell) _) _
    rw [stored]
    exact .ok rfl

theorem destroyCell_writes (fault : ε) (a : Addr) :
    Writes (destroyCell fault a : Recorded α ε Unit) fun h =>
      match h.lookup a with
      | none => .error fault
      | some _ => .ok (h.erase a) := by
  intro s
  simp only [destroyCell]
  cases s.heap.lookup a with
  | none => exact .error fault
  | some cell => exact .ok rfl

end

end Recorded

end Linked
