import SmallObject.Arena.Calls
import SmallObject.Arena.Locking

/-! A thread that is alone in an arena: its steps come to the whole calls.

While the other threads take no step, the steps of `malloc` and `free` under the lock do
together what the operations of `Arena` do at once.
-/

set_option autoImplicit false

namespace SmallObject

open Linked Locking

namespace Arena.Guarded

variable {T : Type} [DecidableEq T] {s s' s'' : Guarded T} {t : T} {mem : Memory} {arena : Arena} {region node : Ptr}

/-- So many steps of one thread, with nothing in between. -/
def turns (s : Guarded T) (t : T) (region node : Ptr) : Nat → Except Fault (Guarded T)
  | 0 => .ok s
  | n + 1 => do
    let s ← s.advance t region node
    turns s t region node n

/-- The thread comes to a state by its own steps. -/
def Solo (s : Guarded T) (t : T) (region node : Ptr) (s' : Guarded T) : Prop :=
  ∃ n, s.turns t region node n = .ok s'

theorem Solo.trans (first : s.Solo t region node s') (second : s'.Solo t region node s'') :
    s.Solo t region node s'' := by
  obtain ⟨n, first⟩ := first
  obtain ⟨m, second⟩ := second
  refine ⟨n + m, ?_⟩
  induction n generalizing s with
  | zero =>
    obtain rfl : s = s' := Except.ok.inj first
    simpa using second
  | succ n ih =>
    obtain ⟨s₁, step, rest⟩ := bind_eq_ok first
    rw [Nat.succ_add]
    simp only [turns, step, ok_bind]
    exact ih rest

@[simp] theorem site_goto (s : Guarded T) (t : T) (x : Site) : (s.goto t x).site t = x := Function.update_self ..

/-! ## `free` -/

section Free

variable {locked found released result : Bool} {ptr cnk : Addr}

/-- `try_to_free`, up to where its caller goes on. -/
theorem solo_tryToFree (site : s.site t = .testing locked ptr cnk found)
    (run : tryToFree s.mem s.arena ptr (some cnk) = .ok (released, mem, arena)) :
    s.Solo t region node ({ s with mem, arena }.goto t
      (if released || found then .leaving locked true else .looking locked ptr)) := by
  obtain ⟨c, isChunk, run⟩ := bind_eq_ok run
  simp only [nonNull_some, ok_bind, Chunk.release] at run
  by_cases refused : ptr ≤ c.end_ ∧ c.begin ≤ ptr
  · simp only [refused, and_self, if_true, Except.ok.injEq, Prod.mk.injEq] at run
    obtain ⟨rfl, rfl, rfl⟩ := run
    exact ⟨1, by simp [turns, advance, site, isChunk, refused]⟩
  · simp only [refused, if_false, Except.ok.injEq, Prod.mk.injEq] at run
    obtain ⟨rfl, rfl, rfl⟩ := run
    exact ⟨3, by simp [turns, advance, site, isChunk, refused, goto, setChunk]⟩

theorem solo_leave (site : s.site t = .leaving locked result) :
    s.Solo t region node
      ({ s with lock := if locked then s.lock.writeUnlock else s.lock }.answer t (.free result)) :=
  ⟨1, by simp [turns, advance, site]⟩

theorem solo_lookup (site : s.site t = .looking locked ptr)
    (run : lookupChunkAndFree s.mem s.arena ptr = .ok (result, mem, arena)) :
    s.Solo t region node ({ s with mem, arena }.goto t (.leaving locked result)) := by
  obtain ⟨it, find, run⟩ := bind_eq_ok run
  cases it with
  | none =>
    obtain ⟨rfl, rfl, rfl⟩ : false = result ∧ s.mem = mem ∧ s.arena = arena := by simpa using run
    exact ⟨1, by simp [turns, advance, site, find]⟩
  | some it =>
    obtain ⟨n, isNode, run⟩ := bind_eq_ok run
    obtain ⟨⟨released, mem₁, arena₁⟩, tried, run⟩ := bind_eq_ok run
    obtain ⟨rfl, rfl, rfl⟩ : true = result ∧ mem₁ = mem ∧ arena₁ = arena := by simpa using run
    have found : s.Solo t region node (s.goto t (.testing locked ptr n.load.mapped true)) :=
      ⟨1, by simp [turns, advance, site, find, chunkAt, isNode]⟩
    have onward : Solo (s.goto t (.testing locked ptr n.load.mapped true)) t region node _ :=
      solo_tryToFree (site_goto ..) tried
    refine found.trans ?_
    simpa [goto] using onward

/-- `free`, in `synch_free` or outside of it. -/
theorem solo_free (site : s.site t = .freeing locked ptr)
    (run : Arena.free s.mem s.arena ptr = .ok (result, mem, arena)) :
    s.Solo t region node ({ s with
      mem, arena, lock := if locked then s.lock.writeUnlock else s.lock }.answer t (.free result)) := by
  obtain ⟨⟨released, mem₁, arena₁⟩, tried, run⟩ := bind_eq_ok run
  obtain ⟨cnk, current⟩ : ∃ cnk, s.arena.freeCurrent = some cnk := by
    cases current : s.arena.freeCurrent with
    | none => simp [tryToFree, current, deref] at tried
    | some cnk => exact ⟨cnk, rfl⟩
  have start : s.Solo t region node (s.goto t (.testing locked ptr cnk false)) :=
    ⟨1, by simp [turns, advance, site, current]⟩
  have first : s.Solo t region node ({ s with mem := mem₁, arena := arena₁ }.goto t
      (if released then .leaving locked true else .looking locked ptr)) := by
    have onward : Solo (s.goto t (.testing locked ptr cnk false)) t region node _ :=
      solo_tryToFree (site_goto ..) (current ▸ tried)
    simpa [goto] using start.trans onward
  -- the cached chunk takes the block, or the others are looked up
  cases released with
  | true =>
    obtain ⟨rfl, rfl, rfl⟩ : true = result ∧ mem₁ = mem ∧ arena₁ = arena := by simpa using run
    have onward : Solo ({ s with mem := mem₁, arena := arena₁ }.goto t (.leaving locked true)) t region node _ :=
      solo_leave (site_goto ..)
    simpa [goto, answer] using first.trans onward
  | false =>
    have found : Solo ({ s with mem := mem₁, arena := arena₁ }.goto t (.looking locked ptr)) t region node _ :=
      solo_lookup (site_goto ..) run
    have onward : Solo ({ s with mem, arena }.goto t (.leaving locked result)) t region node _ :=
      solo_leave (site_goto ..)
    simp only [goto, answer, Function.update_idem] at first found onward ⊢
    exact first.trans (found.trans onward)

end Free

/-! ## `malloc` -/

section Malloc

variable {cnk p : Addr} {pos it result : Ptr} {reply : Reply}

/-- An attempt that ends the call. -/
theorem solo_tryToAlloc_some (site : s.site t = .trying cnk pos) (vacant : s.lock = .free)
    (run : tryToAlloc s.mem s.arena (some cnk) = .ok (some p, mem, arena)) :
    s.Solo t region node ({ s with mem, arena }.answer t (.malloc (.returned (some p)))) := by
  obtain ⟨c, isChunk, run⟩ := bind_eq_ok run
  obtain ⟨lock, locked, unlocked⟩ := RwLock.readLock_free t
  cases taken : c.allocate s.mem.bytes s.arena.blockSize with
  | mk block c' =>
    cases block with
    | none => simp [taken] at run
    | some block =>
      obtain ⟨rfl, rfl, rfl⟩ : block = p ∧ _ = mem ∧ _ = arena := by simpa [taken] using run
      exact ⟨3, by simp [turns, advance, site, vacant, locked, isChunk, taken, unlocked, goto, setChunk, answer]⟩

/-- An attempt after which the loop goes on. -/
theorem solo_tryToAlloc_none (site : s.site t = .trying cnk pos) (vacant : s.lock = .free)
    (run : tryToAlloc s.mem s.arena (some cnk) = .ok (none, mem, arena)) (next : s.nextPosition pos = .ok it) :
    s.Solo t region node (s.goto t (.searching it)) := by
  obtain ⟨c, isChunk, run⟩ := bind_eq_ok run
  obtain ⟨lock, locked, unlocked⟩ := RwLock.readLock_free t
  have same : ∀ x : Guarded T, x.arena = s.arena → x.nextPosition pos = s.nextPosition pos := by
    intro x sameArena
    cases pos <;> simp [nextPosition, sameArena]
  cases taken : c.allocate s.mem.bytes s.arena.blockSize with
  | mk block c' =>
    cases block with
    | some block => simp [taken] at run
    | none =>
      exact ⟨3, by simp [turns, advance, site, vacant, locked, isChunk, taken, unlocked, goto, same, next]⟩

/-- The loop: an attempt ends the call, or the loop ends. -/
theorem solo_search {fuel : Nat} (site : s.site t = .searching it) (vacant : s.lock = .free)
    (run : search s.mem s.arena fuel it = .ok (result, mem, arena)) :
    match result with
    | some p => s.Solo t region node ({ s with mem, arena }.answer t (.malloc (.returned (some p))))
    | none => s.Solo t region node (s.goto t (.searching none)) := by
  induction fuel generalizing s it with
  | zero =>
    cases it with
    | none =>
      obtain ⟨rfl, _, _⟩ : none = result ∧ s.mem = mem ∧ s.arena = arena := by simpa [search] using run
      exact ⟨0, by simp [turns, goto, ← site]⟩
    | some it => simp [search] at run
  | succ fuel ih =>
    cases it with
    | none =>
      obtain ⟨rfl, _, _⟩ : none = result ∧ s.mem = mem ∧ s.arena = arena := by simpa [search] using run
      exact ⟨0, by simp [turns, goto, ← site]⟩
    | some it =>
      obtain ⟨n, isNode, run⟩ := bind_eq_ok run
      obtain ⟨⟨block, mem₁, arena₁⟩, tried, run⟩ := bind_eq_ok run
      have start : s.Solo t region node (s.goto t (.trying n.load.mapped (some it))) :=
        ⟨1, by simp [turns, advance, site, chunkAt, isNode]⟩
      -- an attempt that fails brings the thread back to the head of the loop
      rcases tryToAlloc_cases tried with ⟨rfl, rfl, rfl⟩ | ⟨p, rfl, _⟩
      · obtain ⟨next, step, run⟩ := bind_eq_ok run
        have failed : Solo (s.goto t (.trying n.load.mapped (some it))) t region node _ :=
          solo_tryToAlloc_none (site_goto ..) vacant tried step
        have rest := ih (s := s.goto t (.searching next)) (site_goto ..) vacant run
        simp only [goto, answer, Function.update_idem] at start failed rest ⊢
        cases result with
        | some p => exact start.trans (failed.trans rest)
        | none => exact start.trans (failed.trans rest)
      · obtain ⟨rfl, rfl, rfl⟩ : some p = result ∧ mem₁ = mem ∧ arena₁ = arena := by simpa using run
        have onward : Solo (s.goto t (.trying n.load.mapped (some it))) t region node _ :=
          solo_tryToAlloc_some (site_goto ..) vacant tried
        simpa [goto, answer] using start.trans onward

theorem solo_grow (site : s.site t = .searching none) (vacant : s.lock = .free)
    (run : Arena.grow s.mem s.arena region node = .ok (reply, mem, arena)) :
    s.Solo t region node ({ s with mem, arena }.answer t (.malloc reply)) := by
  obtain ⟨⟨mem₁, current⟩, created, run⟩ := bind_eq_ok run
  obtain ⟨c, isChunk, run⟩ := bind_eq_ok run
  obtain ⟨lock, locked, unlocked⟩ := RwLock.writeLock_free t
  cases taken : c.allocate mem₁.bytes s.arena.blockSize with
  | mk block c' =>
    simp only [taken] at run
    have there : deref (mem₁.chunks.insert current c') (some current) = .ok c' :=
      deref_of_lookup (AList.lookup_insert _)
    split at run
    next refused =>
      obtain ⟨rfl, rfl, rfl⟩ : Reply.threw = reply ∧ _ = mem ∧ s.arena = arena := by simpa using run
      exact ⟨3, by simp [turns, advance, site, vacant, created, isChunk, taken, locked, unlocked, goto, setChunk,
        answer, there, refused]⟩
    · simp at run
    next chunks inserted entered =>
      obtain ⟨rfl, rfl, rfl⟩ : Reply.returned block = reply ∧ _ = mem ∧ _ = arena := by simpa using run
      exact ⟨4, by simp [turns, advance, site, vacant, created, isChunk, taken, locked, unlocked, goto, setChunk,
        answer, there, entered]⟩

/-- `malloc`, from its first attempt on, when the lock is free. -/
theorem solo_malloc (site : s.site t = .trying cnk none) (current : s.arena.allocCurrent = some cnk)
    (vacant : s.lock = .free) (run : Arena.malloc s.mem s.arena region node = .ok (reply, mem, arena)) :
    s.Solo t region node ({ s with mem, arena }.answer t (.malloc reply)) := by
  obtain ⟨⟨block, mem₁, arena₁⟩, tried, run⟩ := bind_eq_ok run
  rw [current] at tried
  rcases tryToAlloc_cases tried with ⟨rfl, rfl, rfl⟩ | ⟨p, rfl, _⟩
  · obtain ⟨it, begins, run⟩ := bind_eq_ok run
    obtain ⟨⟨result, mem₁, arena₁⟩, searched, run⟩ := bind_eq_ok run
    have failed : s.Solo t region node (s.goto t (.searching it)) := solo_tryToAlloc_none site vacant tried begins
    rcases search_cases searched with ⟨rfl, rfl, rfl⟩ | ⟨p, rfl, _⟩
    · have loop : Solo (s.goto t (.searching it)) t region node _ := solo_search (site_goto ..) vacant searched
      have grown : Solo ((s.goto t (.searching it)).goto t (.searching none)) t region node _ :=
        solo_grow (site_goto ..) vacant run
      simp only [goto, answer, Function.update_idem] at failed loop grown ⊢
      exact failed.trans (loop.trans grown)
    · obtain ⟨rfl, rfl, rfl⟩ : Reply.returned (some p) = reply ∧ mem₁ = mem ∧ arena₁ = arena := by simpa using run
      have loop : Solo (s.goto t (.searching it)) t region node _ := solo_search (site_goto ..) vacant searched
      simp only [goto, answer, Function.update_idem] at failed loop ⊢
      exact failed.trans loop
  · obtain ⟨rfl, rfl, rfl⟩ : Reply.returned (some p) = reply ∧ mem₁ = mem ∧ arena₁ = arena := by simpa using run
    exact solo_tryToAlloc_some site vacant tried

end Malloc

end Arena.Guarded

end SmallObject
