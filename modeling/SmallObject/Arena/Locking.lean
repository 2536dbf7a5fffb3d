import SmallObject.Arena.Ownership
import SmallObject.Library.Execution
import SmallObject.Library.RwLock

/-! The lock of an arena: one thread in `malloc` and `free`, any others in `synch_free`.

The parts of these functions that update what the threads share take two steps of a thread:
in the first one it reads what it is about to update, in the second one it writes. Between
any two steps of a thread the others may take steps of their own. The lock itself is a
correct one.
-/

set_option autoImplicit false

namespace SmallObject

open Linked Locking Execution

namespace Arena

/-- Where a thread is in the code of the arena. The chunk that `malloc` tries is the one at a
position of its loop, or the cached one, at none; a call of `free` is `locked` inside of
`synch_free`. -/
inductive Site where
  | idle
  /-- In `try_to_alloc`, before the read lock. -/
  | trying (cnk : Addr) (pos : Ptr)
  /-- In `chunk::allocate`, with the header that it has read. -/
  | allocating (cnk : Addr) (c : Chunk) (pos : Ptr)
  | allocated (cnk : Addr) (result pos : Ptr)
  /-- At the head of the loop. -/
  | searching (it : Ptr)
  /-- Before the write lock, with a new chunk that no other thread knows. -/
  | grown (cnk : Addr) (result : Ptr)
  /-- In `chunks_.insert`, with the map that it has read. -/
  | inserting (cnk : Addr) (result : Ptr) (chunks : RangeMap Addr Addr)
  | inserted (cnk : Addr) (result : Ptr)
  /-- In `synch_free`, before the write lock. -/
  | waiting (ptr : Addr)
  | freeing (locked : Bool) (ptr : Addr)
  /-- At the guard of `chunk::release`; `found` is a chunk that was looked up. -/
  | testing (locked : Bool) (ptr cnk : Addr) (found : Bool)
  /-- In `chunk::release` after its guard, with the header that it has read. -/
  | returning (locked : Bool) (ptr cnk : Addr) (c : Chunk)
  | returned (locked : Bool) (cnk : Addr)
  | looking (locked : Bool) (ptr : Addr)
  | leaving (locked : Bool) (result : Bool)

namespace Site

/-- How a thread at this site holds the lock. -/
def mode : Site → Mode
  | allocating _ _ _ | allocated _ _ _ => .reading
  | inserting _ _ _ | inserted _ _ => .writing
  | freeing true _ | testing true _ _ _ | returning true _ _ _ | returned true _ | looking true _ | leaving true _ =>
    .writing
  | _ => .outside

/-- The site is in a section that updates what the threads share. -/
def updates : Site → Bool
  | allocating _ _ _ | inserting _ _ _ | returning _ _ _ _ => true
  | _ => false

/-- The site is in such a section without the lock. -/
def bare : Site → Bool
  | returning false _ _ _ => true
  | _ => false

/-- The site is in `malloc`, or in `free` outside of `synch_free`. -/
def unsynchronized : Site → Bool
  | idle | waiting _ => false
  | freeing locked _ | testing locked _ _ _ | returning locked _ _ _ | returned locked _ | looking locked _
  | leaving locked _ => !locked
  | _ => true

/-- The site is in `malloc`. -/
def Allocates : Site → Prop
  | trying _ _ | allocating _ _ _ | allocated _ _ _ | searching _ | grown _ _ | inserting _ _ _ | inserted _ _ => True
  | _ => False

/-- The site is in `free`, inside of `synch_free` or not. -/
def Releases (inside : Bool) : Site → Prop
  | freeing locked _ | testing locked _ _ _ | returning locked _ _ _ | returned locked _ | looking locked _
  | leaving locked _ => locked = inside
  | _ => False

variable {x : Site} {inside : Bool}

theorem Allocates.unsynchronized_eq (allocates : x.Allocates) : x.unsynchronized = true := by
  cases x <;> first | rfl | exact allocates.elim

theorem Releases.mode_eq (releases : x.Releases inside) : x.mode = if inside then .writing else .outside := by
  cases inside <;> cases x <;> simp only [Releases] at releases
  all_goals
    subst releases
    rfl

theorem Releases.unsynchronized_eq (releases : x.Releases inside) : x.unsynchronized = !inside := by
  cases x <;> simp only [Releases] at releases
  all_goals
    subst releases
    rfl

theorem writing_or_unsynchronized (updates : x.updates = true) : x.mode = .writing ∨ x.unsynchronized = true := by
  cases x with
  | allocating => exact .inr rfl
  | inserting => exact .inl rfl
  | returning locked =>
    cases locked with
    | true => exact .inl rfl
    | false => exact .inr rfl
  | _ => simp [Site.updates] at updates

/-- Only the update that needs no lock is made without one. -/
theorem bare_of_outside (updates : x.updates = true) (outside : x.mode = .outside) : x.bare = true := by
  cases x with
  | allocating | inserting => simp [mode] at outside
  | returning locked =>
    cases locked with
    | true => simp [mode] at outside
    | false => rfl
  | _ => simp [Site.updates] at updates

end Site

/-- How a call ended. -/
inductive Answer where
  | malloc (reply : Reply)
  | free (result : Bool)
  deriving DecidableEq, Repr

/-- An arena with its lock, and the threads that use it. -/
structure Guarded (T : Type) where
  mem : Memory
  arena : Arena
  lock : RwLock T
  site : T → Site
  answers : List (T × Answer)

/-- A call begins, or a thread takes its next step, with what `sys::xmalloc` returns in it. -/
inductive Event (T : Type) where
  | malloc
  | free (ptr : Addr)
  | synchFree (t : T) (ptr : Addr)
  | advance (t : T) (region node : Ptr)
  deriving DecidableEq, Repr

namespace Guarded

variable {T : Type}

def setChunk (s : Guarded T) (cnk : Addr) (c : Chunk) : Guarded T :=
  { s with mem := { s.mem with chunks := s.mem.chunks.insert cnk c } }

/-- Where the loop of `malloc` is after an attempt that failed. -/
def nextPosition (s : Guarded T) : Ptr → Except Fault Ptr
  | none => s.arena.chunks.begin
  | some it => s.arena.chunks.increment (some it)

section Steps

variable [DecidableEq T]

def goto (s : Guarded T) (t : T) (site : Site) : Guarded T := { s with site := Function.update s.site t site }

/-- The call of a thread ends. -/
def answer (s : Guarded T) (t : T) (a : Answer) : Guarded T :=
  { s.goto t .idle with answers := (t, a) :: s.answers }

/-- The next step of a thread. One that waits for the lock stays where it is. -/
def advance (s : Guarded T) (t : T) (region node : Ptr) : Except Fault (Guarded T) :=
  match s.site t with
  | .idle => .ok s
  | .trying cnk pos =>
    match s.lock.readLock t with
    | none => .ok s
    | some lock => do
      let c ← deref s.mem.chunks (some cnk)
      .ok ({ s with lock }.goto t (.allocating cnk c pos))
  | .allocating cnk c pos =>
    match c.allocate s.mem.bytes s.arena.blockSize with
    | (none, _) => .ok (s.goto t (.allocated cnk none pos))
    | (some p, c) => .ok ((s.setChunk cnk c).goto t (.allocated cnk (some p) pos))
  | .allocated cnk (some p) _ =>
    .ok ({ s with
      arena := { s.arena with allocCurrent := some cnk }
      lock := s.lock.readUnlock t }.answer t (.malloc (.returned (some p))))
  | .allocated _ none pos => do
    let it ← s.nextPosition pos
    .ok ({ s with lock := s.lock.readUnlock t }.goto t (.searching it))
  | .searching (some it) => do
    let cnk ← chunkAt s.arena.chunks (some it)
    .ok (s.goto t (.trying cnk (some it)))
  | .searching none => do
    let (mem, current) ← createNewChunk s.mem s.arena.blockSize region
    let c ← deref mem.chunks (some current)
    let (result, c) := c.allocate mem.bytes s.arena.blockSize
    .ok (({ s with mem }.setChunk current c).goto t (.grown current result))
  | .grown cnk result =>
    match s.lock.writeLock t with
    | none => .ok s
    | some lock => .ok ({ s with lock }.goto t (.inserting cnk result s.arena.chunks))
  | .inserting cnk result chunks => do
    let c ← deref s.mem.chunks (some cnk)
    match chunks.insert wrapInt8 node c.begin c.end_ cnk with
    | .error .badAlloc => .ok ({ s with lock := s.lock.writeUnlock }.answer t (.malloc .threw))
    | .error e => .error e
    | .ok (chunks, _) => .ok ({ s with arena := { s.arena with chunks } }.goto t (.inserted cnk result))
  | .inserted cnk result =>
    .ok ({ s with
      arena := { s.arena with allocCurrent := some cnk, freeCurrent := some cnk }
      lock := s.lock.writeUnlock }.answer t (.malloc (.returned result)))
  | .waiting ptr =>
    match s.lock.writeLock t with
    | none => .ok s
    | some lock => .ok ({ s with lock }.goto t (.freeing true ptr))
  | .freeing locked ptr => do
    let cnk ← nonNull s.arena.freeCurrent
    .ok (s.goto t (.testing locked ptr cnk false))
  | .testing locked ptr cnk found => do
    let c ← deref s.mem.chunks (some cnk)
    if ptr ≤ c.end_ ∧ c.begin ≤ ptr then
      -- the outcome for a chunk that was looked up is not looked at
      .ok (s.goto t (if found then .leaving locked true else .looking locked ptr))
    else .ok (s.goto t (.returning locked ptr cnk c))
  | .returning locked ptr cnk c =>
    let (c, bytes) := c.returnBlock s.mem.bytes ptr s.arena.blockSize
    .ok (({ s with mem := { s.mem with bytes } }.setChunk cnk c).goto t (.returned locked cnk))
  | .returned locked cnk =>
    .ok ({ s with arena := { s.arena with freeCurrent := some cnk } }.goto t (.leaving locked true))
  | .looking locked ptr => do
    let it ← s.arena.chunks.find ptr
    match it with
    | none => .ok (s.goto t (.leaving locked false))
    | some it => do
      let cnk ← chunkAt s.arena.chunks (some it)
      .ok (s.goto t (.testing locked ptr cnk true))
  | .leaving locked result =>
    .ok ({ s with lock := if locked then s.lock.writeUnlock else s.lock }.answer t (.free result))

/-- Only the owner calls `malloc` and `free`. A thread is in one call at a time; an event that
does not fit leaves the state as it is. -/
def step (owner : T) (s : Guarded T) : Event T → Except Fault (Guarded T)
  | .malloc =>
    match s.site owner with
    | .idle => do
      let cnk ← nonNull s.arena.allocCurrent
      .ok (s.goto owner (.trying cnk none))
    | _ => .ok s
  | .free ptr =>
    match s.site owner with
    | .idle => .ok (s.goto owner (.freeing false ptr))
    | _ => .ok s
  | .synchFree t ptr =>
    match s.site t with
    | .idle => .ok (s.goto t (.waiting ptr))
    | _ => .ok s
  | .advance t region node => s.advance t region node

end Steps

/-- Any arena, with no thread in it. -/
def Quiet (s : Guarded T) : Prop := s.lock = .free ∧ s.site = (fun _ => .idle) ∧ s.answers = []

/-- `sys::xmalloc` does not return a region that a chunk is in. -/
def Admissible (s : Guarded T) : Event T → Prop
  | .advance _ region _ => ∀ r, region = some r → s.mem.chunks.lookup r = none
  | _ => True

instance (s : Guarded T) (e : Event T) : Decidable (s.Admissible e) :=
  match e with
  | .advance _ region _ => inferInstanceAs (Decidable (∀ r ∈ region, s.mem.chunks.lookup r = none))
  | .malloc | .free _ | .synchFree _ _ => isTrue trivial

/-- The owner's `free` comes to the update of a chunk only while no thread has the write lock, and
`synch_free` gets the write lock only while the owner's `free` is not there. -/
def Apart [DecidableEq T] (owner : T) (s : Guarded T) : Event T → Prop
  | .advance t _ _ =>
    match s.site t with
    | .testing false ptr cnk _ =>
      ∀ c, s.mem.chunks.lookup cnk = some c → ¬ (ptr ≤ c.end_ ∧ c.begin ≤ ptr) → s.lock.writer = none
    | .waiting _ => (s.lock.writeLock t).isSome = true → (s.site owner).bare = false
    | _ => True
  | _ => True

/-- What a thread in a section has read is still so. -/
def Current (s : Guarded T) : Site → Prop
  | .allocating cnk c _ | .returning _ _ cnk c => s.mem.chunks.lookup cnk = some c
  | .inserting _ _ chunks => s.arena.chunks = chunks
  | _ => True

/-- The chunks that exist, and the map, are as they were. -/
def Keeps (s s' : Guarded T) : Prop :=
  (∀ a c, s.mem.chunks.lookup a = some c → s'.mem.chunks.lookup a = some c) ∧ s'.arena.chunks = s.arena.chunks

structure Inv (owner : T) (s : Guarded T) : Prop where
  held : Held s.lock fun t => (s.site t).mode
  owned : ∀ t, (s.site t).unsynchronized = true → t = owner
  bare : ∀ t, (s.site t).bare = true → s.lock.writer = none
  current : ∀ t, s.Current (s.site t)

variable {owner : T} {s s' : Guarded T} {t u : T}

theorem Inv.quiet (quiet : s.Quiet) : s.Inv owner := by
  obtain ⟨lock, site, _⟩ := quiet
  constructor
  · simpa [lock, site, Site.mode] using Held.free
  · simp [site, Site.unsynchronized]
  · simp [site, Site.bare]
  · simp [site, Current]

/-- At most one thread is in a section. -/
theorem Inv.exclusive (inv : s.Inv owner) (first : (s.site t).updates = true) (second : (s.site u).updates = true) :
    t = u := by
  -- in a section a thread has the write lock, or it is the owner
  have kinds : ∀ v, (s.site v).updates = true → (s.site v).mode = .writing ∨ v = owner := fun v inside =>
    (Site.writing_or_unsynchronized inside).imp_right (inv.owned v)
  have holds : ∀ v, (s.site v).updates = true → s.lock.writer ≠ none → (s.site v).mode ≠ .outside :=
    fun v inside writer outside => writer (inv.bare v (Site.bare_of_outside inside outside))
  rcases kinds t first with writes | rfl
  · have writer := inv.held.writing t writes
    exact inv.held.alone writes (holds u second (by simp [writer]))
  · rcases kinds u second with writes | same
    · have writer := inv.held.writing u writes
      exact (inv.held.alone writes (holds t first (by simp [writer]))).symm
    · exact same.symm

theorem Keeps.of_eq (mem : s'.mem = s.mem) (chunks : s'.arena.chunks = s.arena.chunks) : s.Keeps s' := by
  refine ⟨fun a c found => ?_, chunks⟩
  rw [mem]
  exact found

theorem Current.keep {x : Site} (current : s.Current x) (keeps : s.Keeps s') : s'.Current x := by
  cases x with
  | allocating | returning => exact keeps.1 _ _ current
  | inserting => exact keeps.2.trans current
  | _ => trivial

theorem current_outside {x : Site} (outside : x.updates = false) : s.Current x := by
  cases x <;> trivial

section Steps

variable [DecidableEq T]

/-- What a step of a thread to a site does. -/
structure Takes (owner : T) (s : Guarded T) (t : T) (x : Site) (s' : Guarded T) : Prop where
  site : s'.site = Function.update s.site t x
  change : Change s.lock t (s.site t).mode x.mode s'.lock
  owned : x.unsynchronized = true → t = owner
  bare : x.bare = true → s.lock.writer = none
  enters : (s.site t).mode = .outside → x.mode = .writing → (s.site owner).bare = false
  keeps : (s.site t).updates = true ∨ s.Keeps s'
  current : s'.Current x

theorem Inv.takes (inv : s.Inv owner) {x : Site} (takes : s.Takes owner t x s') : s'.Inv owner := by
  have bareOwned : ∀ y : Site, y.bare = true → y.unsynchronized = true ∧ y.mode = .outside := by
    intro y isBare
    cases y with
    | returning locked => cases locked <;> simp_all [Site.bare, Site.unsynchronized, Site.mode]
    | _ => simp [Site.bare] at isBare
  constructor
  · have modes : (fun u => (s'.site u).mode) = Function.update (fun u => (s.site u).mode) t x.mode := by
      funext u
      rw [takes.site]
      exact Function.apply_update (fun _ => Site.mode) s.site t x u
    rw [modes]
    exact inv.held.change takes.change
  · intro u unsynchronized
    rw [takes.site] at unsynchronized
    rcases eq_or_ne u t with rfl | other
    · exact takes.owned (by simpa using unsynchronized)
    · exact inv.owned u (by simpa [other] using unsynchronized)
  · intro u isBare
    rw [takes.site] at isBare
    rcases eq_or_ne u t with rfl | other
    · rw [Function.update_self] at isBare
      exact takes.change.no_writer (takes.bare isBare) (by simp [(bareOwned x isBare).2])
    · rw [Function.update_of_ne other] at isBare
      obtain rfl := inv.owned u (bareOwned _ isBare).1
      have vacant := inv.bare u isBare
      apply takes.change.no_writer vacant
      -- a thread that came to write would be in the way of the owner
      intro writes
      cases before : (s.site t).mode with
      | outside => simp [takes.enters before writes] at isBare
      | reading =>
        have change := takes.change
        rw [before, writes] at change
        cases change
      | writing => simp [inv.held.writing t before] at vacant
  · intro u
    rw [takes.site]
    rcases eq_or_ne u t with rfl | other
    · rw [Function.update_self]
      exact takes.current
    · rw [Function.update_of_ne other]
      rcases takes.keeps with updates | keeps
      · apply current_outside
        by_contra inside
        exact other (inv.exclusive (by simpa using inside) updates)
      · exact (inv.current u).keep keeps

theorem Inv.stays (inv : s.Inv owner) (t : T) : s.Takes owner t (s.site t) s where
  site := (Function.update_eq_self ..).symm
  change := .stay _
  owned := inv.owned t
  bare := inv.bare t
  enters outside writes := by simp [outside] at writes
  keeps := .inr ⟨fun _ _ found => found, rfl⟩
  current := inv.current t

/-- A step that only goes to another site, or only reads. -/
theorem Takes.moves {x : Site} (mode : (s.site t).mode = x.mode) (owned : x.unsynchronized = true → t = owner)
    (bare : x.bare = true → s.lock.writer = none) (current : s.Current x) : s.Takes owner t x (s.goto t x) where
  site := rfl
  change := mode ▸ .stay _
  owned := owned
  bare := bare
  enters outside writes := by simp [← mode, outside] at writes
  keeps := .inr ⟨fun _ _ found => found, rfl⟩
  current := current.keep ⟨fun _ _ found => found, rfl⟩

/-- A step that neither begins an update without the lock nor gets the write lock. -/
theorem Takes.safely {x : Site} (site : s'.site = Function.update s.site t x)
    (change : Change s.lock t (s.site t).mode x.mode s'.lock) (owned : x.unsynchronized = true → t = owner)
    (covered : x.bare = false) (before : (s.site t).mode ≠ .outside ∨ x.mode ≠ .writing)
    (keeps : (s.site t).updates = true ∨ s.Keeps s') (current : s'.Current x) : s.Takes owner t x s' where
  site := site
  change := change
  owned := owned
  bare isBare := by simp [covered] at isBare
  enters outside writes := by tauto
  keeps := keeps
  current := current

/-- A step inside of `free` that neither takes nor drops the lock. -/
theorem Inv.releases (inv : s.Inv owner) {x : Site} {inside : Bool} (before : (s.site t).Releases inside)
    (after : x.Releases inside) (site : s'.site = Function.update s.site t x) (lock : s'.lock = s.lock)
    (bare : x.bare = true → s.lock.writer = none) (keeps : (s.site t).updates = true ∨ s.Keeps s')
    (current : s'.Current x) : s.Takes owner t x s' where
  site := site
  change := by
    rw [lock, before.mode_eq, after.mode_eq]
    exact .stay _
  owned unsynchronized := by
    rw [after.unsynchronized_eq, ← before.unsynchronized_eq] at unsynchronized
    exact inv.owned t unsynchronized
  bare := bare
  enters outside writes := by simp [before.mode_eq, ← after.mode_eq, writes] at outside
  keeps := keeps
  current := current

/-- A step of `malloc`, which only the owner calls. -/
theorem Inv.advance_allocates (inv : s.Inv owner) (here : (s.site t).Allocates) {region node : Ptr}
    (admissible : s.Admissible (.advance t region node)) (run : s.advance t region node = .ok s') :
    ∃ x, s.Takes owner t x s' := by
  have isOwner : t = owner := inv.owned t here.unsynchronized_eq
  unfold Guarded.advance at run
  cases site : s.site t with
  | trying cnk pos =>
    simp only [site] at run
    split at run
    · obtain rfl := Except.ok.inj run
      exact ⟨_, inv.stays t⟩
    next lock locked =>
      obtain ⟨c, found, run⟩ := bind_eq_ok run
      obtain rfl := Except.ok.inj run
      exact ⟨.allocating cnk c pos, .safely rfl (site ▸ .readLock locked) (fun _ => isOwner) rfl
        (.inr (by simp [Site.mode])) (.inr (.of_eq rfl rfl)) (lookup_of_deref found)⟩
  | allocating cnk c pos =>
    have updates : (s.site t).updates = true := by simp [site, Site.updates]
    simp only [site] at run
    -- the chunk gives a block or not; what it writes then, only this thread reads
    split at run <;> obtain rfl := Except.ok.inj run
    · exact ⟨.allocated cnk none pos, .safely rfl (site ▸ .stay _) (fun _ => isOwner) rfl
        (.inr (by simp [Site.mode])) (.inl updates) trivial⟩
    · exact ⟨.allocated cnk (some _) pos, .safely rfl (site ▸ .stay _) (fun _ => isOwner) rfl
        (.inr (by simp [Site.mode])) (.inl updates) trivial⟩
  | allocated cnk result pos =>
    cases result with
    | some p =>
      simp only [site] at run
      obtain rfl := Except.ok.inj run
      exact ⟨.idle, .safely rfl (site ▸ .readUnlock) (fun _ => isOwner) rfl (.inr (by simp [Site.mode]))
        (.inr (.of_eq rfl rfl)) trivial⟩
    | none =>
      simp only [site] at run
      obtain ⟨it, _, run⟩ := bind_eq_ok run
      obtain rfl := Except.ok.inj run
      exact ⟨.searching it, .safely rfl (site ▸ .readUnlock) (fun _ => isOwner) rfl (.inr (by simp [Site.mode]))
        (.inr (.of_eq rfl rfl)) trivial⟩
  | searching it =>
    cases it with
    | some it =>
      simp only [site] at run
      obtain ⟨cnk, _, run⟩ := bind_eq_ok run
      obtain rfl := Except.ok.inj run
      exact ⟨.trying cnk (some it), .moves (by simp [site, Site.mode]) (fun _ => isOwner) (by simp [Site.bare]) trivial⟩
    | none =>
      simp only [site] at run
      obtain ⟨⟨mem, current⟩, created, run⟩ := bind_eq_ok run
      obtain ⟨c, _, run⟩ := bind_eq_ok run
      obtain rfl := Except.ok.inj run
      obtain ⟨r, isRegion, made⟩ := bind_eq_ok created
      obtain ⟨rfl, rfl⟩ := Prod.mk.inj (Except.ok.inj made)
      have unused := admissible r (nonNull_eq_ok isRegion)
      refine ⟨.grown r _, .safely rfl (site ▸ .stay _) (fun _ => isOwner) rfl (.inr (by simp [Site.mode]))
        (.inr ⟨fun a c' found => ?_, rfl⟩) trivial⟩
      -- the new chunk is at an address that no chunk had
      have other : a ≠ r := by
        rintro rfl
        simp [unused] at found
      simpa [setChunk, goto, other] using found
  | grown cnk result =>
    simp only [site] at run
    split at run
    · obtain rfl := Except.ok.inj run
      exact ⟨_, inv.stays t⟩
    next lock locked =>
      obtain rfl := Except.ok.inj run
      refine ⟨.inserting cnk result s.arena.chunks, rfl, site ▸ .writeLock locked, fun _ => isOwner, ?_, ?_,
        .inr (.of_eq rfl rfl), rfl⟩
      · simp [Site.bare]
      · simp [← isOwner, site, Site.bare]
  | inserting cnk result chunks =>
    have updates : (s.site t).updates = true := by simp [site, Site.updates]
    simp only [site] at run
    obtain ⟨c, _, run⟩ := bind_eq_ok run
    split at run
    · obtain rfl := Except.ok.inj run
      exact ⟨.idle, .safely rfl (site ▸ .writeUnlock) (fun _ => isOwner) rfl (.inr (by simp [Site.mode]))
        (.inl updates) trivial⟩
    · simp at run
    · obtain rfl := Except.ok.inj run
      exact ⟨.inserted cnk result, .safely rfl (site ▸ .stay _) (fun _ => isOwner) rfl
        (.inl (by simp [site, Site.mode])) (.inl updates) trivial⟩
  | inserted cnk result =>
    simp only [site] at run
    obtain rfl := Except.ok.inj run
    exact ⟨.idle, .safely rfl (site ▸ .writeUnlock) (by simp [Site.unsynchronized]) rfl (.inr (by simp [Site.mode]))
      (.inr (.of_eq rfl rfl)) trivial⟩
  | _ => simp [site, Site.Allocates] at here

/-- A step of `free`, inside of `synch_free` or not. -/
theorem Inv.advance_releases (inv : s.Inv owner) {inside : Bool} (here : (s.site t).Releases inside) {region node : Ptr}
    (apart : s.Apart owner (.advance t region node)) (run : s.advance t region node = .ok s') :
    ∃ x, s.Takes owner t x s' := by
  unfold Guarded.advance at run
  cases site : s.site t with
  | freeing locked ptr =>
    simp only [site] at run
    obtain ⟨cnk, _, run⟩ := bind_eq_ok run
    obtain rfl := Except.ok.inj run
    exact ⟨.testing locked ptr cnk false, inv.releases (site ▸ rfl) rfl rfl rfl (by simp [Site.bare])
      (.inr (.of_eq rfl rfl)) trivial⟩
  | testing locked ptr cnk found =>
    simp only [site] at run
    obtain ⟨c, isChunk, run⟩ := bind_eq_ok run
    have stored := lookup_of_deref isChunk
    split at run
    · obtain rfl := Except.ok.inj run
      have before : (s.site t).Releases locked := site ▸ rfl
      cases found with
      | false =>
        exact ⟨.looking locked ptr, inv.releases before rfl rfl rfl (by simp [Site.bare]) (.inr (.of_eq rfl rfl)) trivial⟩
      | true =>
        exact ⟨.leaving locked true, inv.releases before rfl rfl rfl (by simp [Site.bare]) (.inr (.of_eq rfl rfl)) trivial⟩
    next outside =>
      obtain rfl := Except.ok.inj run
      refine ⟨.returning locked ptr cnk c, inv.releases (site ▸ rfl) rfl rfl rfl ?_ (.inr (.of_eq rfl rfl)) stored⟩
      -- without the lock the guard of the run keeps writers out
      intro isBare
      obtain rfl : locked = false := by cases locked <;> simp_all [Site.bare]
      simp only [Apart, site] at apart
      exact apart c stored outside
  | returning locked ptr cnk c =>
    simp only [site] at run
    obtain rfl := Except.ok.inj run
    exact ⟨.returned locked cnk, inv.releases (site ▸ rfl) rfl rfl rfl (by simp [Site.bare])
      (.inl (site ▸ rfl)) trivial⟩
  | returned locked cnk =>
    simp only [site] at run
    obtain rfl := Except.ok.inj run
    exact ⟨.leaving locked true, inv.releases (site ▸ rfl) rfl rfl rfl (by simp [Site.bare])
      (.inr (.of_eq rfl rfl)) trivial⟩
  | looking locked ptr =>
    simp only [site] at run
    obtain ⟨it, _, run⟩ := bind_eq_ok run
    cases it with
    | none =>
      obtain rfl := Except.ok.inj run
      exact ⟨.leaving locked false, inv.releases (site ▸ rfl) rfl rfl rfl (by simp [Site.bare])
        (.inr (.of_eq rfl rfl)) trivial⟩
    | some it =>
      obtain ⟨cnk, _, run⟩ := bind_eq_ok run
      obtain rfl := Except.ok.inj run
      exact ⟨.testing locked ptr cnk true, inv.releases (site ▸ rfl) rfl rfl rfl (by simp [Site.bare])
        (.inr (.of_eq rfl rfl)) trivial⟩
  | leaving locked result =>
    simp only [site] at run
    obtain rfl := Except.ok.inj run
    refine ⟨.idle, .safely rfl ?_ (by simp [Site.unsynchronized]) rfl (.inr (by simp [Site.mode]))
      (.inr (.of_eq rfl rfl)) trivial⟩
    cases locked
    · exact site ▸ .stay _
    · exact site ▸ .writeUnlock
  | _ => simp [site, Site.Releases] at here

/-- Which site a thread comes to, and what it does on the way. -/
theorem Inv.advance (inv : s.Inv owner) {region node : Ptr} (admissible : s.Admissible (.advance t region node))
    (apart : s.Apart owner (.advance t region node)) (run : s.advance t region node = .ok s') :
    ∃ x, s.Takes owner t x s' := by
  cases site : s.site t with
  | idle =>
    simp only [Guarded.advance, site, Except.ok.injEq] at run
    subst run
    exact ⟨_, inv.stays t⟩
  | waiting ptr =>
    simp only [Guarded.advance, site] at run
    split at run
    · obtain rfl := Except.ok.inj run
      exact ⟨_, inv.stays t⟩
    next lock locked =>
      obtain rfl := Except.ok.inj run
      refine ⟨.freeing true ptr, rfl, site ▸ .writeLock locked, ?_, ?_, ?_, .inr (.of_eq rfl rfl), trivial⟩
      · simp [Site.unsynchronized]
      · simp [Site.bare]
      · intro _ _
        simpa [Apart, site, locked] using apart
  | trying | allocating | allocated | searching | grown | inserting | inserted =>
    exact inv.advance_allocates (by simp [site, Site.Allocates]) admissible run
  | freeing locked | testing locked | returning locked | returned locked | looking locked | leaving locked =>
    have here : (s.site t).Releases locked := site ▸ rfl
    exact inv.advance_releases here apart run

theorem Inv.step (inv : s.Inv owner) {e : Event T} (admissible : s.Admissible e) (apart : s.Apart owner e)
    (run : s.step owner e = .ok s') : s'.Inv owner := by
  cases e with
  | malloc =>
    simp only [Guarded.step] at run
    split at run
    next idle =>
      obtain ⟨cnk, _, run⟩ := bind_eq_ok run
      obtain rfl := Except.ok.inj run
      have mode : (s.site owner).mode = .outside := by simp [idle, Site.mode]
      exact inv.takes (.moves (x := .trying cnk none) mode (fun _ => rfl) (by simp [Site.bare]) trivial)
    next => exact Except.ok.inj run ▸ inv
  | free ptr =>
    simp only [Guarded.step] at run
    split at run
    next idle =>
      obtain rfl := Except.ok.inj run
      have mode : (s.site owner).mode = .outside := by simp [idle, Site.mode]
      exact inv.takes (.moves (x := .freeing false ptr) mode (fun _ => rfl) (by simp [Site.bare]) trivial)
    next => exact Except.ok.inj run ▸ inv
  | synchFree t ptr =>
    simp only [Guarded.step] at run
    split at run
    next idle =>
      obtain rfl := Except.ok.inj run
      have mode : (s.site t).mode = .outside := by simp [idle, Site.mode]
      exact inv.takes (.moves (x := .waiting ptr) mode (by simp [Site.unsynchronized]) (by simp [Site.bare]) trivial)
    next => exact Except.ok.inj run ▸ inv
  | advance t region node =>
    obtain ⟨x, takes⟩ := inv.advance admissible apart run
    exact inv.takes takes

/-- While the owner's `free` keeps out of the way of those who have the write lock, and they out of
its way, no two threads are in sections that update the arena; what a thread has read there is
still so when it writes, and no update overwrites another one. -/
theorem run_exclusive
    (run : Runs Quiet (fun s e => Admissible s e ∧ Apart owner s e) (Guarded.step owner) s) :
    (∀ t u, (s.site t).updates = true → (s.site u).updates = true → t = u) ∧ ∀ t, s.Current (s.site t) := by
  have inv : s.Inv owner := by
    apply run.invariant
    · exact fun s quiet => Inv.quiet quiet
    · exact fun s e s' inv kind stepped => inv.step kind.1 kind.2 stepped
  exact ⟨fun t u first second => inv.exclusive first second, inv.current⟩

end Steps

instance [DecidableEq T] (owner : T) (s : Guarded T) (e : Event T) : Decidable (s.Apart owner e) :=
  match e with
  | .malloc | .free _ | .synchFree _ _ => isTrue trivial
  | .advance t _ _ =>
    match site : s.site t with
    | .testing false ptr cnk _ =>
      decidable_of_iff (∀ c ∈ s.mem.chunks.lookup cnk, ¬ (ptr ≤ c.end_ ∧ c.begin ≤ ptr) → s.lock.writer = none)
        (by simp [Apart, site])
    | .waiting _ =>
      decidable_of_iff ((s.lock.writeLock t).isSome = true → (s.site owner).bare = false) (by simp [Apart, site])
    | .idle | .trying _ _ | .allocating _ _ _ | .allocated _ _ _ | .searching _ | .grown _ _ | .inserting _ _ _
    | .inserted _ _ | .freeing _ _ | .testing true _ _ _ | .returning _ _ _ _ | .returned _ _ | .looking _ _
    | .leaving _ _ => isTrue (by simp [Apart, site])

/-! ## Runs that can be computed -/

/-- A new arena, with its first chunk at 16384. -/
def new : Except Fault (Guarded Bool) := do
  let (mem, arena) ← Arena.init .unallocated 16 (some 16384) (some 1)
  .ok { mem, arena, lock := .free, site := fun _ => .idle, answers := [] }

theorem quiet_new {s : Guarded Bool} (made : new.toOption = some s) : s.Quiet := by
  cases init : Arena.init .unallocated 16 (some 16384) (some 1) with
  | error e => simp [new, init, Except.toOption] at made
  | ok first =>
    simp only [new, init, ok_bind, Except.toOption, Option.some.injEq] at made
    subst made
    exact ⟨rfl, rfl, rfl⟩

/-- `synch_free` has the write lock when the owner allocates: the owner waits. -/
theorem run_exclusive_waiting : ∃ s : Guarded Bool, (s.site true).updates = true ∧
    (s.site false).unsynchronized = true ∧
      (∀ t u, (s.site t).updates = true → (s.site u).updates = true → t = u) ∧ ∀ t, s.Current (s.site t) := by
  have computed : (new.toOption.bind fun s =>
      (replay (fun s e => Admissible s e ∧ Apart false s e) (Guarded.step false) s
        [.synchFree true 32792, .malloc, .advance true none none, .advance false none none, .advance true none none,
          .advance true none none, .advance false none none]).map fun s =>
        ((s.site true).updates, (s.site false).unsynchronized)) = some (true, true) := by decide +kernel
  obtain ⟨s₀, made, rest⟩ := Option.bind_eq_some_iff.mp computed
  obtain ⟨s, replayed, reached⟩ := Option.map_eq_some_iff.mp rest
  obtain ⟨updates, waits⟩ := Prod.mk.inj reached
  exact ⟨s, updates, waits, run_exclusive (replay_runs _ (.start (quiet_new made)) replayed)⟩

/-- The owner's `free` and a `synch_free` are in one chunk at once, and two blocks that are given back
count as one. -/
theorem update_overwritten : ∃ s s' : Guarded Bool, Runs Quiet Admissible (Guarded.step false) s ∧
    (s.site false).updates = true ∧ (s.site true).updates = true ∧
    (s.mem.chunks.lookup 16384).map Chunk.freeBlocks = some 253 ∧
    replay Admissible (Guarded.step false) s [.advance false none none, .advance true none none] = some s' ∧
    (s'.mem.chunks.lookup 16384).map Chunk.freeBlocks = some 254 := by
  have computed : (new.toOption.bind fun s =>
      (replay Admissible (Guarded.step false) s
        [.malloc, .advance false none none, .advance false none none, .advance false none none,
          .malloc, .advance false none none, .advance false none none, .advance false none none,
          .free 32792, .synchFree true 32808, .advance false none none, .advance false none none,
          .advance true none none, .advance true none none, .advance true none none]).bind fun s =>
      (replay Admissible (Guarded.step false) s [.advance false none none, .advance true none none]).map fun s' =>
        ((s.site false).updates, (s.site true).updates, (s.mem.chunks.lookup 16384).map Chunk.freeBlocks,
          (s'.mem.chunks.lookup 16384).map Chunk.freeBlocks)) = some (true, true, some 253, some 254) := by
    decide +kernel
  obtain ⟨s₀, made, rest⟩ := Option.bind_eq_some_iff.mp computed
  obtain ⟨s, replayed, later⟩ := Option.bind_eq_some_iff.mp rest
  obtain ⟨s', replayed', reached⟩ := Option.map_eq_some_iff.mp later
  simp only [Prod.mk.injEq] at reached
  obtain ⟨first, second, before, after⟩ := reached
  exact ⟨s, s', replay_runs _ (.start (quiet_new made)) replayed, first, second, before, replayed', after⟩

end Guarded

end Arena

end SmallObject
