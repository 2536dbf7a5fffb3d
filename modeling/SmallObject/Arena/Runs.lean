import SmallObject.Arena.Free
import SmallObject.Library.Execution

/-! Runs of one arena by the thread that owns it.

A run makes calls and writes into live blocks. Live blocks stay apart as long as every
block that is freed belongs to the chunk that is cached for freeing at that time: such
a call changes nothing. A block of another chunk breaks the cached free list.
-/

set_option autoImplicit false

namespace SmallObject

open Linked AvlTree Threaded Execution

/-- A step of the owning thread. The region is what `sys::xmalloc` returns for a chunk when
the call asks for one, and the node what it returns for a node of the map. -/
inductive Call where
  | malloc (region : Addr) (node : Ptr)
  | free (p : Addr)
  | write (a : Addr) (v : UInt8)
  deriving DecidableEq, Repr

/-- The block that a reply hands out. -/
def Reply.block : Reply → List Addr
  | .returned result => result.toList
  | .threw => []

/-- An arena in memory, with the blocks that are in use, the latest first. -/
structure Session where
  mem : Memory
  arena : Arena
  live : List Addr

namespace Session

def step (s : Session) : Call → Except Fault Session
  | .malloc region node => do
    let (reply, mem, arena) ← s.arena.malloc s.mem (some region) node
    .ok { mem, arena, live := reply.block ++ s.live }
  | .free p => do
    let (_, mem, arena) ← s.arena.free s.mem p
    .ok { mem, arena, live := s.live.erase p }
  | .write a v => .ok { s with mem := { s.mem with bytes := Function.update s.mem.bytes a v } }

/-- What users of the arena and the system allocator are held to. -/
def Admissible (blockSize : Nat) (s : Session) : Call → Prop
  | .malloc region node =>
    s.mem.Fresh blockSize region ∧ ∀ n, node = some n → s.arena.chunks.nodes.lookup n = none
  | .free p => p ∈ s.live
  | .write a _ => ∃ p ∈ s.live, p ≤ a ∧ a < p + blockSize

/-- A new arena that is alone in its memory or beside other chunks. -/
def Opens (blockSize : Nat) (s : Session) : Prop :=
  ∃ (mem : Memory) (r n : Addr), mem.Placed blockSize ∧ mem.Fresh blockSize r ∧
    Arena.init mem blockSize (some r) (some n) = .ok (s.mem, s.arena) ∧ s.live = []

/-- The sessions of a new arena, all of whose steps are of a certain kind. -/
def Run (blockSize : Nat) (kind : Session → Call → Prop) : Session → Prop :=
  Runs (Opens blockSize) (fun s call => s.Admissible blockSize call ∧ kind s call) step

/-- Every live block lies inside the block area of a chunk of the arena, and no two share a byte. -/
structure Separate (blockSize : Nat) (s : Session) : Prop where
  inside : ∀ p ∈ s.live, ∃ t r c, s.arena.chunks.Stores t ∧ r ∈ t.mapped ∧ s.mem.chunks.lookup r = some c ∧
    c.begin ≤ p ∧ p + blockSize ≤ c.end_
  apart : s.live.Pairwise fun p q => p + blockSize ≤ q ∨ q + blockSize ≤ p

/-- A block that is freed is in the chunk that `free_current_` names. -/
def FreesCached (s : Session) : Call → Prop
  | .free p => ∃ r c, s.arena.freeCurrent = some r ∧ s.mem.chunks.lookup r = some c ∧ c.begin ≤ p ∧ p < c.end_
  | _ => True

/-- The invariant of such runs: every live block was issued, and none twice. -/
structure Issued (blockSize : Nat) (s : Session) (t : AvlTree Addr Addr) (issued : Addr → List Addr) : Prop where
  sound : s.arena.Sound blockSize s.mem t issued
  nodup : s.live.Nodup
  issued : ∀ p ∈ s.live, ∃ r ∈ t.mapped, p ∈ issued r

variable {blockSize : Nat} {s s' : Session} {t : AvlTree Addr Addr} {issued : Addr → List Addr}

theorem Issued.separate (inv : s.Issued blockSize t issued) : s.Separate blockSize := by
  refine ⟨fun p member => ?_, List.Pairwise.imp_of_mem ?_ inv.nodup⟩
  · obtain ⟨r, inMap, used⟩ := inv.issued p member
    obtain ⟨c, found⟩ := inv.sound.maps.mapped_chunk inMap
    exact ⟨t, r, c, inv.sound.maps.stores, inMap, found, inv.sound.in_chunk inMap found used⟩
  · intro p q member member' different
    obtain ⟨r, inMap, used⟩ := inv.issued p member
    obtain ⟨r', inMap', used'⟩ := inv.issued q member'
    exact inv.sound.disjoint inMap inMap' used used' different

theorem Issued.malloc (inv : s.Issued blockSize t issued) (positive : 0 < blockSize) (small : blockSize ≤ 255)
    {region : Addr} {node : Ptr} (admissible : s.Admissible blockSize (.malloc region node))
    (run : s.step (.malloc region node) = .ok s') : ∃ t' issued', s'.Issued blockSize t' issued' := by
  obtain ⟨⟨reply, mem, arena⟩, called, rest⟩ := bind_eq_ok run
  obtain rfl := Except.ok.inj rest
  rcases inv.sound.malloc positive small admissible.1 admissible.2 called with
    ⟨p, t', issued', rfl, sound, issues⟩ | ⟨rfl, sound⟩
  · refine ⟨t', issued', sound, List.nodup_cons.mpr ⟨fun member => ?_, inv.nodup⟩, fun q member => ?_⟩
    · obtain ⟨r, inMap, used⟩ := inv.issued p member
      exact issues.unused r inMap used
    · rcases List.mem_cons.mp member with rfl | old
      · exact issues.new
      · obtain ⟨r, inMap, used⟩ := inv.issued q old
        exact ⟨r, (issues.kept r inMap).1, (issues.kept r inMap).2 used⟩
  · exact ⟨t, issued, sound, inv.nodup, inv.issued⟩

/-- A block of the cached chunk is not given back at all. -/
theorem Issued.free (inv : s.Issued blockSize t issued) {p : Addr} (cached : s.FreesCached (.free p))
    (run : s.step (.free p) = .ok s') : s'.Issued blockSize t issued := by
  obtain ⟨r, c, current, found, low, high⟩ := cached
  obtain ⟨r', inMap, current'⟩ := inv.sound.free
  obtain rfl : r' = r := Option.some.inj (current'.symm.trans current)
  have kept := Arena.free_cached inv.sound.placed inv.sound.maps inMap current found low (Nat.le_of_lt high)
  simp only [step, kept, ok_bind, Except.ok.injEq] at run
  obtain rfl := run
  exact ⟨inv.sound, inv.nodup.erase p, fun q member => inv.issued q (List.mem_of_mem_erase member)⟩

theorem Issued.write (inv : s.Issued blockSize t issued) (positive : 0 < blockSize) {a : Addr} {v : UInt8}
    (admissible : s.Admissible blockSize (.write a v)) (run : s.step (.write a v) = .ok s') :
    s'.Issued blockSize t issued := by
  obtain ⟨p, member, low, high⟩ := admissible
  obtain ⟨r, inMap, used⟩ := inv.issued p member
  obtain rfl := Except.ok.inj run
  refine ⟨⟨⟨inv.sound.size, inv.sound.placed.bytes,
    ⟨inv.sound.maps.stores, inv.sound.maps.ordered, inv.sound.maps.chunk⟩,
    fun r' inMap' d stored => ?_⟩, inv.sound.alloc, inv.sound.free⟩, inv.nodup, inv.issued⟩
  obtain ⟨free, owns⟩ := inv.sound.owns r' inMap' d stored
  refine ⟨free, ?_⟩
  -- the write is in an issued block: a free one of the same chunk is another block, and another chunk elsewhere
  by_cases same : r' = r
  · subst same
    exact owns.write positive used low high
  · refine owns.congr fun i inFree => Function.update_of_ne (fun here => same ?_) _ _
    obtain ⟨c, found⟩ := inv.sound.maps.mapped_chunk inMap
    have inside := inv.sound.in_chunk inMap found used
    have bound := Nat.mul_le_mul_right blockSize (Nat.le_of_lt (owns.free_block positive inFree))
    obtain ⟨begin, end_, _⟩ := inv.sound.placed.shape r' d stored
    refine inv.sound.placed.same_chunk stored found (p := a) ?_ ?_ ?_ ?_
    all_goals
      simp only [Chunk.blockAt] at here
      unfold regionSize sizeofChunk at *
      lia

def Tracked (blockSize : Nat) (s : Session) : Prop := ∃ t issued, s.Issued blockSize t issued

/-- Live blocks stay apart in every run that frees blocks of the cached chunk only. -/
theorem run_separate (positive : 0 < blockSize) (small : blockSize ≤ 128) (run : Run blockSize FreesCached s) :
    s.Separate blockSize := by
  have byte : blockSize ≤ 255 := by omega
  have tracked : s.Tracked blockSize := by
    refine Runs.invariant (fun s opens => ?_) (fun s call s' inv allowed stepped => ?_) run
    · obtain ⟨mem, r, n, placed, fresh, made, none⟩ := opens
      obtain ⟨t, sound, _⟩ := Arena.init_sound placed positive byte fresh made
      exact ⟨t, _, sound, by simp [none], by simp [none]⟩
    · obtain ⟨t, issued, inv⟩ := inv
      cases call with
      | malloc region node => exact inv.malloc positive byte allowed.1 stepped
      | free p => exact ⟨t, issued, inv.free allowed.2 stepped⟩
      | write a v => exact ⟨t, issued, inv.write positive allowed.1 stepped⟩
  obtain ⟨t, issued, inv⟩ := tracked
  exact inv.separate

/-! ## Runs that can be computed -/

instance (node : Ptr) : Decidable (∀ n, node = some n → s.arena.chunks.nodes.lookup n = none) :=
  match node with
  | none => isTrue (by simp)
  | some n => decidable_of_iff (s.arena.chunks.nodes.lookup n = none) (by simp)

instance (call : Call) : Decidable (s.Admissible blockSize call) :=
  match call with
  | .malloc _ _ => inferInstanceAs (Decidable (_ ∧ _))
  | .free _ => inferInstanceAs (Decidable (_ ∈ _))
  | .write _ _ => inferInstanceAs (Decidable (∃ p ∈ s.live, _))

instance (call : Call) : Decidable (s.FreesCached call) :=
  match call with
  | .malloc _ _ => isTrue trivial
  | .write _ _ => isTrue trivial
  | .free p => decidable_of_iff
      (((s.arena.freeCurrent.bind fun r => s.mem.chunks.lookup r).any fun c => c.begin ≤ p ∧ p < c.end_) = true) <| by
    simp only [FreesCached, Option.any_eq_true, Option.bind_eq_some_iff, decide_eq_true_eq]
    exact ⟨fun ⟨c, ⟨r, cached, found⟩, inside⟩ => ⟨r, c, cached, found, inside⟩,
      fun ⟨r, c, cached, found, inside⟩ => ⟨c, ⟨r, cached, found⟩, inside⟩⟩

/-- A session of a new arena in memory without chunks, with its first chunk at an address. -/
def opened (blockSize : Nat) (r n : Addr) : Option Session :=
  match Arena.init .unallocated blockSize (some r) (some n) with
  | .ok (mem, arena) => some { mem, arena, live := [] }
  | .error _ => none

theorem opened_opens {r n : Addr} (inside : r + regionSize blockSize ≤ sizeRange)
    (run : opened blockSize r n = some s) : Opens blockSize s := by
  unfold opened at run
  split at run
  next mem arena made =>
    obtain rfl := Option.some.inj run
    exact ⟨.unallocated, r, n, Memory.placed_unallocated, Memory.fresh_unallocated inside, made, rfl⟩
  next => simp at run

/-- The run of a new arena through some calls, and what it comes to. -/
theorem session_run {kind : Session → Call → Prop} [∀ s call, Decidable (kind s call)] (r n : Addr)
    (calls : List Call) {live : List Addr} (inside : r + regionSize blockSize ≤ sizeRange)
    (computed : ((opened blockSize r n).bind fun s =>
      replay (fun s call => s.Admissible blockSize call ∧ kind s call) step s calls).map Session.live = some live) :
    ∃ s, Run blockSize kind s ∧ s.live = live := by
  obtain ⟨s, replayed, rfl⟩ := Option.map_eq_some_iff.mp computed
  obtain ⟨s₀, made, rest⟩ := Option.bind_eq_some_iff.mp replayed
  exact ⟨s, replay_runs calls (.start (opened_opens inside made)) rest, rfl⟩

/-- A block is taken, written over, and freed; the next one is another block. -/
theorem run_separate_reuse : ∃ s, Run 16 FreesCached s ∧ s.live = [16424] ∧ s.Separate 16 := by
  obtain ⟨s, run, live⟩ : ∃ s, Run 16 FreesCached s ∧ s.live = [16424] :=
    session_run 16384 1 [.malloc 8192 (some 2), .write 16410 7, .free 16408, .malloc 8192 (some 2)]
      (by decide) (by decide +kernel)
  exact ⟨s, run, live, run_separate (by decide) (by decide) run⟩

/-- Two chunks are made; a block of the first is freed while the second one is cached, and
the next call returns the only live block of the second chunk once more. -/
theorem live_block_issued_again :
    ∃ s, Run 16 (fun _ _ => True) s ∧ s.live.take 2 = [8216, 8216] ∧ ¬ s.Separate 16 := by
  obtain ⟨s, run, live⟩ : ∃ s, Run 16 (fun _ _ => True) s ∧
      s.live = [8216, 8216] ++ (List.range' 1 254).reverse.map fun i => 16408 + 16 * i :=
    session_run 16384 1 (List.replicate 256 (.malloc 8192 (some 2)) ++ [.free 16408, .malloc 32768 (some 3)])
      (by decide) (by decide +kernel)
  refine ⟨s, run, by rw [live]; rfl, fun separate => ?_⟩
  have apart := separate.apart
  rw [live] at apart
  have := (List.pairwise_cons.mp apart).1 8216 (by simp)
  omega

end Session

end SmallObject
