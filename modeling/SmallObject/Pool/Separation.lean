import SmallObject.Arena.Possession
import SmallObject.Pool.Threads

/-! The blocks that the threads of a process have in use, in all its pools.

Calls of any number of threads go on step by step, and between the steps the threads write into
their blocks. No two blocks share a byte, every block stays in its chunk, and no step of the pools
changes a byte of one. A pointer is only given to `free` where `chunk::release` refuses it, in the
range of the chunk that the arena of the thread has cached.
-/

set_option autoImplicit false

namespace SmallObject

open Linked Execution

/-- Every arena has chunks of its own. -/
def Process.Possesses (d : Deeds) (process : Process) : Prop :=
  ∀ ar arena, process.objects.lookup ar = some arena → ∃ t, arena.Possesses d process.mem ar t

/-- What a thread does: a call of the pools goes on, or a byte is written. -/
inductive Use (I T : Type) where
  | act (action : Action I T)
  | write (a : Addr) (v : UInt8)

/-- The size that an arena made in this stage has. -/
def Stage.asks {I : Type} : Stage I → Option Nat
  | .scanning _ size _ | .won _ size _ | .scanned _ size => some size
  | _ => none

def Event.block : Event → Ptr
  | .served _ _ p => some p
  | .constructed _ _ => none

namespace Threads

variable {I T : Type}

def write (s : Threads I T) (a : Addr) (v : UInt8) : Threads I T :=
  { s with process.mem.bytes := Function.update s.process.mem.bytes a v }

/-- The block size of an arena. -/
def blockSize (s : Threads I T) (ar : Addr) : Nat := ((s.process.objects.lookup ar).map Arena.blockSize).getD 0

/-- What was handed out, each block with its length. -/
def blocks (s : Threads I T) : List (Addr × Nat) :=
  s.log.filterMap fun e => match e with
    | .served ar _ p => some (p, s.blockSize ar)
    | .constructed _ _ => none

/-- The pointer is in the closed range of the chunk that `free` tries first. -/
def InCached (s : Threads I T) (ar ptr : Addr) : Prop :=
  ∀ arena ∈ s.process.objects.lookup ar, ∀ r ∈ arena.freeCurrent, ∀ c ∈ s.process.mem.chunks.lookup r,
    c.begin ≤ ptr ∧ ptr ≤ c.end_

/-- What the system returns to a thread is not in use. -/
def Supplies (s : Threads I T) (t : T) (supply : Supply) (nodes : List Ptr) : Prop :=
  match s.stage t with
  | .scanned _ size => ∀ r ∈ supply.first, s.process.mem.Clear size r
  | .serving i _ => ∀ ar ∈ (s.pools i).arena t, ∀ arena ∈ s.process.objects.lookup ar,
      (∀ r ∈ supply.region, s.process.mem.Clear arena.blockSize r) ∧
        ∀ n ∈ supply.node, arena.chunks.nodes.lookup n = none
  | .leaving ar => ∀ arena ∈ s.process.objects.lookup ar,
      arena.Regains s.process.mem nodes supply.region supply.node
  | _ => True

/-- The sizes are those of a byte, only blocks in use are written, and `free` gets pointers of the
cached chunk. -/
def Orderly (s : Threads I T) : Use I T → Prop
  | .write a _ => ∃ b ∈ s.blocks, b.1 ≤ a ∧ a < b.1 + b.2
  | .act (.malloc _ _ size) => 0 < size ∧ size ≤ 255
  | .act (.free t i ptr) => ∀ ar ∈ (s.pools i).arena t, s.InCached ar ptr
  | .act (.exit _ _) => True
  | .act (.advance t supply nodes) =>
      s.Admissible (.advance t supply nodes) ∧ s.Supplies t supply nodes

instance (s : Threads I T) (ar ptr : Addr) : Decidable (s.InCached ar ptr) := by
  unfold InCached
  infer_instance

instance (s : Threads I T) (t : T) (supply : Supply) (nodes : List Ptr) : Decidable (s.Supplies t supply nodes) := by
  unfold Supplies
  split <;> infer_instance

instance (s : Threads I T) (u : Use I T) : Decidable (s.Orderly u) :=
  match u with
  | .write a _ => inferInstanceAs (Decidable (∃ b ∈ s.blocks, b.1 ≤ a ∧ a < b.1 + b.2))
  | .act (.malloc _ _ size) => inferInstanceAs (Decidable (0 < size ∧ size ≤ 255))
  | .act (.free t i ptr) => inferInstanceAs (Decidable (∀ ar ∈ (s.pools i).arena t, s.InCached ar ptr))
  | .act (.exit _ _) => isTrue trivial
  | .act (.advance t supply nodes) =>
      inferInstanceAs (Decidable (s.Admissible (.advance t supply nodes) ∧ s.Supplies t supply nodes))

theorem Orderly.admissible {s : Threads I T} {action : Action I T} (orderly : s.Orderly (.act action)) :
    s.Admissible action := by
  cases action with
  | advance t supply nodes => exact orderly.1
  | malloc _ _ _ | free _ _ _ | exit _ _ => trivial

def use [DecidableEq I] [DecidableEq T] (s : Threads I T) : Use I T → Except Fault (Threads I T)
  | .act action => s.step action
  | .write a v => .ok (s.write a v)

def Uses [DecidableEq I] [DecidableEq T] : Threads I T → Prop := Runs Fresh Orderly use

/-! ## The invariant -/

/-- The memory is divided among the arenas that exist, and every block that was handed out is in
use in a chunk of its size. -/
structure Separated (s : Threads I T) (d : Deeds) : Prop where
  divided : s.process.mem.Divided d
  possesses : s.process.Possesses d
  asks : ∀ t size, (s.stage t).asks = some size → 0 < size ∧ size ≤ 255
  served : ∀ ar size p, .served ar size p ∈ s.log → ∃ arena, s.process.objects.lookup ar = some arena ∧
    ∃ r c, s.process.mem.chunks.lookup r = some c ∧ (d r).size = arena.blockSize ∧ p ∈ (d r).issued
  distinct : (s.log.filterMap Event.block).Nodup

/-- A step leaves the memory divided, and does nothing to chunks that have a block in use. -/
def Respects (s : Threads I T) (d : Deeds) (s' : Threads I T) : Prop :=
  ∃ d' ar, s'.Separated d' ∧ Leaves ar d d' s.process.mem s'.process.mem

variable {s s' : Threads I T} {d d' : Deeds} {t : T} {i : I} {ar p : Addr} {mem : Memory} {arena arena' : Arena}
  {size : Nat}

namespace Separated

theorem block (separated : s.Separated d) {b : Addr × Nat} (member : b ∈ s.blocks) :
    ∃ r c, s.process.mem.chunks.lookup r = some c ∧ (d r).size = b.2 ∧ b.1 ∈ (d r).issued := by
  obtain ⟨e, logged, same⟩ := List.mem_filterMap.mp member
  cases e with
  | constructed ar size => simp at same
  | served ar size p =>
    obtain rfl := Option.some.inj same
    obtain ⟨arena, found, r, c, stored, length, used⟩ := separated.served ar size p logged
    exact ⟨r, c, stored, by simp [blockSize, found, length], used⟩

theorem fresh (fresh : s.Fresh) : s.Separated fun _ => ⟨0, 0, []⟩ := by
  obtain ⟨objects, chunks, _, stage, log⟩ := fresh
  exact ⟨⟨by simp [chunks], by simp [chunks]⟩, by simp [Process.Possesses, objects], by simp [stage, Stage.asks],
    by simp [log], by simp [log]⟩

/-- One arena has made a call. -/
theorem proceed (separated : s.Separated d) (proceeds : Arena.Proceeds ar d d' s.process.mem mem arena')
    (alike : ∀ arena, s.process.objects.lookup ar = some arena → arena'.blockSize = arena.blockSize) :
    (s.store mem ar arena').Separated d' := by
  refine ⟨proceeds.divided, fun other arena found => ?_, separated.asks, fun other size p logged => ?_,
    separated.distinct⟩
  · by_cases same : other = ar
    · subst same
      obtain rfl : arena' = arena := by simpa [store] using found
      exact proceeds.possesses
    · obtain ⟨t, possesses⟩ :=
        separated.possesses other arena (by simpa [store, AList.lookup_insert_ne same] using found)
      exact ⟨t, possesses.beside proceeds.leaves same⟩
  · obtain ⟨arena, found, r, c, stored, length, used⟩ := separated.served other size p logged
    obtain ⟨kept, more, c', stored'⟩ := proceeds.leaves.used r c stored (List.ne_nil_of_mem used)
    by_cases same : other = ar
    · subst same
      exact ⟨arena', AList.lookup_insert _, r, c', stored', (kept.trans length).trans (alike arena found).symm,
        more used⟩
    · exact ⟨arena, (AList.lookup_insert_ne same).trans found, r, c', stored', kept.trans length, more used⟩

/-- A chunk is left over by an arena that does not exist. -/
theorem leftover (separated : s.Separated d) (absent : s.process.objects.lookup ar = none)
    (divided : mem.Divided d') (leaves : Leaves ar d d' s.process.mem mem) :
    Separated { s with process := { s.process with mem } } d' := by
  refine ⟨divided, fun other arena found => ?_, separated.asks, fun other size p logged => ?_, separated.distinct⟩
  · have different : other ≠ ar := by
      rintro rfl
      simp [absent] at found
    obtain ⟨tree, possesses⟩ := separated.possesses other arena found
    exact ⟨tree, possesses.beside leaves different⟩
  · obtain ⟨arena, found, r, c, stored, length, used⟩ := separated.served other size p logged
    obtain ⟨kept, more, c', stored'⟩ := leaves.used r c stored (List.ne_nil_of_mem used)
    exact ⟨arena, found, r, c', stored', kept.trans length, more used⟩

/-- The flag of an arena changes. -/
theorem flag (separated : s.Separated d) (found : s.process.objects.lookup ar = some arena) (reserved : Bool) :
    (s.store s.process.mem ar { arena with reserved }).Separated d := by
  obtain ⟨t, possesses⟩ := separated.possesses ar arena found
  refine separated.proceed ⟨separated.divided, ⟨t, possesses.flag reserved⟩, .refl ..⟩ fun arena₁ found₁ => ?_
  obtain rfl := Option.some.inj (found.symm.trans found₁)
  rfl

theorem constructed (separated : s.Separated d) (ar : Addr) (size : Nat) :
    (s.record (.constructed ar size)).Separated d := by
  refine ⟨separated.divided, separated.possesses, separated.asks, fun other n p logged => ?_, ?_⟩
  · rcases List.mem_cons.mp logged with same | old
    · simp at same
    · exact separated.served other n p old
  · exact separated.distinct

/-- A block is handed out that is none of those in use. -/
theorem hand (separated : s.Separated d) (proceeds : Arena.Proceeds ar d d' s.process.mem mem arena')
    (found : s.process.objects.lookup ar = some arena) (alike : arena'.blockSize = arena.blockSize)
    (handsOut : HandsOut d d' s.process.mem mem arena.blockSize p) (size : Nat) :
    ((s.store mem ar arena').record (.served ar size p)).Separated d' := by
  have after : (s.store mem ar arena').Separated d' := separated.proceed proceeds fun arena₁ found₁ => by
    obtain rfl := Option.some.inj (found.symm.trans found₁)
    exact alike
  refine ⟨after.divided, after.possesses, after.asks, fun other n q logged => ?_, ?_⟩
  · rcases List.mem_cons.mp logged with same | old
    · simp only [Event.served.injEq] at same
      obtain ⟨rfl, rfl, rfl⟩ := same
      obtain ⟨r, c, stored, length, used⟩ := handsOut.issued
      exact ⟨arena', AList.lookup_insert _, r, c, stored, length.trans alike.symm, used⟩
    · exact after.served other n q old
  · have new : p ∉ s.log.filterMap Event.block := by
      intro used
      obtain ⟨e, logged, same⟩ := List.mem_filterMap.mp used
      cases e with
      | constructed ar size => simp [Event.block] at same
      | served other n q =>
        obtain rfl := Option.some.inj same
        obtain ⟨_, _, r, c, stored, _, issued⟩ := separated.served other n q logged
        exact handsOut.before r c stored issued
    have all : ((s.store mem ar arena').record (.served ar size p)).log.filterMap Event.block =
        p :: s.log.filterMap Event.block := rfl
    rw [all]
    exact List.nodup_cons.mpr ⟨new, separated.distinct⟩

/-! ## The steps -/

/-- Without a change of memory. -/
theorem respects (separated : s'.Separated d) (same : s'.process.mem = s.process.mem) : s.Respects d s' :=
  ⟨d, 0, separated, same ▸ .refl ..⟩

/-- The cached chunk refuses the pointer, and the lookup reports it as released. -/
theorem free_eq (separated : s.Separated d) (holds : (s.pools i).arena t = some ar)
    (found : s.process.objects.lookup ar = some arena) (cached : s.InCached ar p) :
    (s.pools i).free s.process t p = .ok { s.process with objects := s.process.objects.insert ar arena } := by
  obtain ⟨tree, possesses⟩ := separated.possesses ar arena found
  obtain ⟨r, member, current⟩ := possesses.free
  obtain ⟨c, stored⟩ := possesses.maps.mapped_chunk member
  obtain ⟨low, high⟩ := cached arena found r current c stored
  simp only [Pool.free, Pool.freeIn, holds, nonNull_some, deref_of_lookup found,
    possesses.free_cached current stored low high, ok_bind, if_true]

theorem free_cached {process : Process} (separated : s.Separated d)
    (cached : ∀ ar ∈ (s.pools i).arena t, s.InCached ar p) (run : (s.pools i).free s.process t p = .ok process) :
    ∃ ar arena, s.process.objects.lookup ar = some arena ∧
      process = { s.process with objects := s.process.objects.insert ar arena } := by
  obtain ⟨ar, holds, rest⟩ := bind_eq_ok run
  obtain ⟨⟨released, process₁⟩, here, _⟩ := bind_eq_ok rest
  obtain ⟨arena, found, _⟩ := bind_eq_ok here
  have holds := nonNull_eq_ok holds
  have found := lookup_of_deref found
  exact ⟨ar, arena, found, Except.ok.inj (run.symm.trans (separated.free_eq holds found (cached ar holds)))⟩

theorem free {process : Process} (separated : s.Separated d) (cached : ∀ ar ∈ (s.pools i).arena t, s.InCached ar p)
    (run : (s.pools i).free s.process t p = .ok process) : s.Respects d { s with process } := by
  obtain ⟨ar, arena, found, rfl⟩ := separated.free_cached cached run
  exact (separated.flag found arena.reserved).respects rfl

theorem write {a : Addr} (separated : s.Separated d) (inUse : ∃ b ∈ s.blocks, b.1 ≤ a ∧ a < b.1 + b.2) (v : UInt8) :
    (s.write a v).Separated d := by
  obtain ⟨b, member, low, high⟩ := inUse
  obtain ⟨r, c, stored, length, used⟩ := separated.block member
  refine ⟨separated.divided.write stored used low (length ▸ high) v, fun ar arena found => ?_, separated.asks,
    separated.served, separated.distinct⟩
  obtain ⟨tree, possesses⟩ := separated.possesses ar arena found
  exact ⟨tree, possesses.bytes⟩

theorem pushFront [DecidableEq I] (separated : s.Separated d) (i : I) (ar : Addr) : (s.pushFront i ar).Separated d :=
  ⟨separated.divided, separated.possesses, separated.asks, separated.served, separated.distinct⟩

variable [DecidableEq T]

/-- Only the stage of one thread changes. -/
theorem goto (separated : s.Separated d) (t : T) (stage : Stage I)
    (asks : ∀ size, stage.asks = some size → 0 < size ∧ size ≤ 255) : (s.goto t stage).Separated d := by
  refine ⟨separated.divided, separated.possesses, fun u size asked => ?_, separated.served, separated.distinct⟩
  by_cases same : u = t
  · subst same
    rw [stage_goto] at asked
    exact asks size asked
  · rw [stage_goto_ne same] at asked
    exact separated.asks u size asked

theorem construct (separated : s.Separated d) {supply : Supply} (asks : 0 < size ∧ size ≤ 255)
    (absent : ∀ ar, supply.object = some ar → s.process.objects.lookup ar = none)
    (clear : ∀ r, supply.first = some r → s.process.mem.Clear size r)
    (run : s.construct t i size supply = .ok s') : s.Respects d s' := by
  unfold Threads.construct at run
  split at run
  · obtain rfl := Except.ok.inj run
    exact (separated.goto t .idle (by simp [Stage.asks])).respects rfl
  next ar object =>
    have absent := absent ar object
    split at run
    -- the chunk of the arena that was not constructed stays
    · obtain ⟨⟨mem, first⟩, created, rest⟩ := bind_eq_ok run
      obtain rfl := Except.ok.inj rest
      obtain ⟨d', divided, leaves, _⟩ := Arena.createNewChunk_divided ar separated.divided asks.1 asks.2 clear created
      have after := separated.leftover absent divided leaves
      exact ⟨d', ar, after.goto t .idle (by simp [Stage.asks]), leaves⟩
    · cases run
    next mem arena made =>
      obtain rfl := Except.ok.inj run
      obtain ⟨d', proceeds, _⟩ := Arena.init_proceeds ar separated.divided asks.1 asks.2 clear made
      have after := separated.proceed proceeds fun arena found => by simp [absent] at found
      exact ⟨d', ar, (after.constructed ar size).goto t _ (by simp [Stage.asks]), proceeds.leaves⟩

theorem serve (separated : s.Separated d) {supply : Supply}
    (fresh : ∀ arena, s.process.objects.lookup ar = some arena →
      (∀ r, supply.region = some r → s.process.mem.Clear arena.blockSize r) ∧
        ∀ n, supply.node = some n → arena.chunks.nodes.lookup n = none)
    (run : s.serve t ar size supply = .ok s') : s.Respects d s' := by
  obtain ⟨arena, found, run⟩ := bind_eq_ok run
  obtain ⟨⟨reply, mem, arena'⟩, called, run⟩ := bind_eq_ok run
  have found := lookup_of_deref found
  obtain ⟨tree, possesses⟩ := separated.possesses ar arena found
  obtain ⟨d', proceeds, handsOut, -⟩ :=
    possesses.malloc separated.divided (fresh arena found).1 (fresh arena found).2 called
  have alike := (Arena.malloc_alike called).1
  simp only at run
  split at run
  next p =>
    obtain rfl := Except.ok.inj run
    exact ⟨d', ar, (separated.hand proceeds found alike (handsOut p rfl) size).goto t .idle (by simp [Stage.asks]),
      proceeds.leaves⟩
  next =>
    obtain rfl := Except.ok.inj run
    have after := separated.proceed proceeds fun arena₁ found₁ => by
      obtain rfl := Option.some.inj (found.symm.trans found₁)
      exact alike
    exact ⟨d', ar, after.goto t .idle (by simp [Stage.asks]), proceeds.leaves⟩

variable [DecidableEq I]

theorem reset (separated : s.Separated d) (i : I) (t : T) (p : Ptr) : (s.reset i t p).Separated d :=
  ⟨separated.divided, separated.possesses, separated.asks, separated.served, separated.distinct⟩

/-- One case for each stage, in the order of the code. -/
theorem advance (separated : s.Separated d) {supply : Supply} {nodes : List Ptr}
    (orderly : s.Orderly (.act (.advance t supply nodes))) (run : s.advance t supply nodes = .ok s') :
    s.Respects d s' := by
  obtain ⟨admissible, supplies⟩ := orderly
  have asks := separated.asks t
  unfold Threads.advance at run
  unfold Supplies at supplies
  cases stage : s.stage t with
  | idle =>
    simp only [stage] at run
    obtain rfl := Except.ok.inj run
    exact separated.respects rfl
  | scanning i size rest =>
    have keeps := asks size (by rw [stage]; rfl)
    cases rest with
    | nil =>
      simp only [stage] at run
      obtain rfl := Except.ok.inj run
      exact (separated.goto t _ (by simp [Stage.asks, keeps])).respects rfl
    | cons it rest =>
      simp only [stage] at run
      obtain ⟨arena, found, run⟩ := bind_eq_ok run
      have marked := separated.flag (lookup_of_deref found) true
      cases flag : arena.reserved with
      | false =>
        simp only [Arena.reserve, flag, Bool.not_false, if_true] at run
        obtain rfl := Except.ok.inj run
        exact (marked.goto t _ (by simp [Stage.asks, keeps])).respects rfl
      | true =>
        simp only [Arena.reserve, flag, Bool.not_true, Bool.false_eq_true, if_false] at run
        obtain rfl := Except.ok.inj run
        exact (marked.goto t _ (by simp [Stage.asks, keeps])).respects rfl
  | won i size ar =>
    have keeps := asks size (by rw [stage]; rfl)
    simp only [stage] at run
    obtain rfl := Except.ok.inj run
    exact ((separated.reset i t _).goto t _ (by simp [Stage.asks, keeps])).respects rfl
  | scanned i size =>
    simp only [stage] at run supplies
    split at run
    · obtain rfl := Except.ok.inj run
      exact (separated.goto t _ (by simp [Stage.asks])).respects rfl
    · exact separated.construct (asks size (by rw [stage]; rfl)) admissible supplies run
  | built i size ar =>
    simp only [stage] at run
    obtain rfl := Except.ok.inj run
    exact ((separated.reset i t _).goto t _ (by simp [Stage.asks])).respects rfl
  | stored i size =>
    simp only [stage] at run
    obtain ⟨ar, _, run⟩ := bind_eq_ok run
    split at run
    · obtain rfl := Except.ok.inj run
      exact (separated.goto t _ (by simp [Stage.asks])).respects rfl
    · obtain rfl := Except.ok.inj run
      exact ((separated.pushFront i ar).goto t _ (by simp [Stage.asks])).respects rfl
  | serving i size =>
    simp only [stage] at run supplies
    obtain ⟨ar, holds, run⟩ := bind_eq_ok run
    exact separated.serve (supplies ar (nonNull_eq_ok holds)) run
  | leaving ar =>
    simp only [stage] at run supplies
    obtain ⟨arena, found, run⟩ := bind_eq_ok run
    have found := lookup_of_deref found
    obtain ⟨⟨mem, arena'⟩, shrunk, run⟩ := bind_eq_ok run
    obtain rfl := Except.ok.inj run
    obtain ⟨tree, possesses⟩ := separated.possesses ar arena found
    obtain ⟨d', proceeds, _⟩ := possesses.shrink separated.divided (supplies arena found) shrunk
    have after := separated.proceed proceeds fun arena₁ found₁ => by
      obtain rfl := Option.some.inj (found.symm.trans found₁)
      exact (Arena.shrink_alike shrunk).1
    exact ⟨d', ar, after.goto t _ (by simp [Stage.asks]), proceeds.leaves⟩
  | releasing ar =>
    simp only [stage] at run
    obtain ⟨arena, found, run⟩ := bind_eq_ok run
    obtain rfl := Except.ok.inj run
    exact ((separated.flag (lookup_of_deref found) false).goto t _ (by simp [Stage.asks])).respects rfl

theorem step {action : Action I T} (separated : s.Separated d) (orderly : s.Orderly (.act action))
    (run : s.step action = .ok s') : s.Respects d s' := by
  cases action with
  | malloc t i size =>
    simp only [Threads.step] at run
    split at run
    · obtain rfl := Except.ok.inj run
      refine (separated.goto t _ fun n same => ?_).respects rfl
      obtain rfl := Option.some.inj same
      exact orderly
    · obtain rfl := Except.ok.inj run
      exact (separated.goto t _ (by simp [Stage.asks])).respects rfl
    · obtain rfl := Except.ok.inj run
      exact separated.respects rfl
  | free t i ptr =>
    simp only [Threads.step] at run
    split at run
    · obtain ⟨process, freed, run⟩ := bind_eq_ok run
      obtain rfl := Except.ok.inj run
      exact separated.free orderly freed
    · obtain rfl := Except.ok.inj run
      exact separated.respects rfl
  | exit t i =>
    simp only [Threads.step] at run
    split at run
    · obtain rfl := Except.ok.inj run
      exact ((separated.reset i t none).goto t _ (by simp [Stage.asks])).respects rfl
    · obtain rfl := Except.ok.inj run
      exact separated.respects rfl
  | advance t supply nodes => exact separated.advance orderly run

end Separated

theorem Uses.separated [DecidableEq I] [DecidableEq T] (run : s.Uses) : ∃ d, s.Separated d := by
  apply Runs.invariant _ _ run
  · exact fun s fresh => ⟨_, Separated.fresh fresh⟩
  · rintro s use s' ⟨d, separated⟩ orderly stepped
    cases use with
    | act action =>
      obtain ⟨d', _, separated', _⟩ := separated.step orderly stepped
      exact ⟨d', separated'⟩
    | write a v =>
      obtain rfl := Except.ok.inj stepped
      exact ⟨d, separated.write orderly v⟩

/-- In every run the blocks in use are in chunks that exist, no two of them have a byte in common,
and no step of a call changes a byte of one. -/
theorem run_apart [DecidableEq I] [DecidableEq T] (run : s.Uses) :
    (∀ b ∈ s.blocks, ∃ r c, s.process.mem.chunks.lookup r = some c ∧ c.begin ≤ b.1 ∧ b.1 + b.2 ≤ c.end_) ∧
      s.blocks.Pairwise (fun b b' => b.1 + b.2 ≤ b'.1 ∨ b'.1 + b'.2 ≤ b.1) ∧
      ∀ action s', s.Orderly (.act action) → s.step action = .ok s' → ∀ b ∈ s.blocks, ∀ a, b.1 ≤ a →
        a < b.1 + b.2 → s'.process.mem.bytes a = s.process.mem.bytes a := by
  obtain ⟨d, separated⟩ := run.separated
  refine ⟨fun b member => ?_, ?_, fun action s' orderly stepped b member a low high => ?_⟩
  · obtain ⟨r, c, stored, length, used⟩ := separated.block member
    exact ⟨r, c, stored, length ▸ (separated.divided.chunk r c stored).block used⟩
  · have distinct : (s.blocks.map Prod.fst).Nodup := by
      have all : s.blocks.map Prod.fst = s.log.filterMap Event.block := by
        rw [blocks, List.map_filterMap]
        exact List.filterMap_congr fun e _ => by cases e <;> rfl
      exact all ▸ separated.distinct
    refine (List.pairwise_map.mp distinct).imp_of_mem fun member member' different => ?_
    obtain ⟨r, c, stored, length, used⟩ := separated.block member
    obtain ⟨r', c', stored', length', used'⟩ := separated.block member'
    have apart := separated.divided.separate stored stored' used used' different
    rwa [length, length'] at apart
  · obtain ⟨r, c, stored, length, used⟩ := separated.block member
    obtain ⟨_, ar, _, leaves⟩ := separated.step orderly stepped
    have describes := separated.divided.chunk r c stored
    have inside := describes.block used
    have begin := describes.begin
    have end_ := describes.end_
    exact leaves.bytes r c stored (List.ne_nil_of_mem used) a (by lia) (by lia)

/-- Two threads in two pools; a block is written and freed, and the thread that had it ends. -/
theorem run_apart_handed : ∃ s : Threads Bool Bool, s.blocks = [(16408, 8), (8216, 16)] ∧
    (∀ b ∈ s.blocks, ∃ r c, s.process.mem.chunks.lookup r = some c ∧ c.begin ≤ b.1 ∧ b.1 + b.2 ≤ c.end_) ∧
      s.blocks.Pairwise (fun b b' => b.1 + b.2 ≤ b'.1 ∨ b'.1 + b'.2 ≤ b.1) ∧
      ∀ action s', s.Orderly (.act action) → s.step action = .ok s' → ∀ b ∈ s.blocks, ∀ a, b.1 ≤ a →
        a < b.1 + b.2 → s'.process.mem.bytes a = s.process.mem.bytes a := by
  have computed : (replay Orderly use (unused : Threads Bool Bool)
      [.act (.malloc false false 16), .act (.malloc true true 8),
        .act (.advance false ⟨none, none, none, none, none, none, 0⟩ []),
        .act (.advance true ⟨none, none, none, none, none, none, 0⟩ []),
        .act (.advance false ⟨some 1, some 8192, some 1, none, none, none, 0⟩ []),
        .act (.advance true ⟨some 2, some 16384, some 1, none, none, none, 0⟩ []),
        .act (.advance false ⟨none, none, none, none, none, none, 0⟩ []),
        .act (.advance true ⟨none, none, none, none, none, none, 0⟩ []),
        .act (.advance false ⟨none, none, none, some 3, none, none, 0⟩ []),
        .act (.advance false ⟨none, none, none, none, none, none, 0⟩ []),
        .act (.advance true ⟨none, none, none, some 4, none, none, 0⟩ []),
        .act (.advance true ⟨none, none, none, none, none, none, 0⟩ []),
        .write 8216 7, .act (.free false false 8216), .act (.exit false false),
        .act (.advance false ⟨none, none, none, none, none, none, 1⟩ [some 5])]).map blocks =
      some [(16408, 8), (8216, 16)] := by decide +kernel
  obtain ⟨s, replayed, blocks⟩ := Option.map_eq_some_iff.mp computed
  exact ⟨s, blocks, run_apart (replay_runs _ (.start ⟨rfl, rfl, rfl, rfl, rfl⟩) replayed)⟩

end Threads

end SmallObject
