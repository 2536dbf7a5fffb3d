import SmallObject.Pool.Teardown

/-! What gets lost: chunks that are in the map of no arena, and arenas that are on no list.

No other chunk or arena stays behind when the pools end. A step loses a chunk when a constructor or
a call of `malloc` throws after it has made one, and when the iteration of `shrink` ends before it
comes to it; it loses an arena when `push_front` throws. There is no other way.
-/

set_option autoImplicit false

namespace SmallObject

open Linked Custody Execution AvlTree

namespace Process

/-- The chunk exists, and no map has it. -/
def Lost (process : Process) (r : Addr) : Prop :=
  process.mem.Has r ∧ ∀ ar arena, process.objects.lookup ar = some arena →
    ∀ tree, arena.chunks.Stores tree → r ∉ tree.mapped

/-- The chunk is in the map of the arena, and an iteration does not come to it. -/
def Missed (process : Process) (ar r : Addr) : Prop :=
  ∃ arena tree, process.objects.lookup ar = some arena ∧ arena.chunks.Stores tree ∧ r ∈ tree.mapped ∧ r ∉ arena.reached

/-- What the map of an arena has, before the arena exists too. -/
inductive Entered (process : Process) (ar : Addr) : List Addr → Prop where
  | new : process.objects.lookup ar = none → Entered process ar []
  | old {arena : Arena} {tree : AvlTree Addr Addr} : process.objects.lookup ar = some arena →
      arena.chunks.Stores tree → Entered process ar tree.mapped

variable {process : Process} {d d' : Deeds} {ar other r : Addr} {mem : Memory} {arena arena' : Arena}
  {tree : AvlTree Addr Addr} {rs : List Addr} {lost : Addr → Prop}

theorem missed_iff (found : process.objects.lookup ar = some arena) (stores : arena.chunks.Stores tree) :
    process.Missed ar r ↔ r ∈ tree.mapped ∧ r ∉ arena.reached := by
  constructor
  · rintro ⟨arena₁, tree₁, found₁, stores₁, missed⟩
    obtain rfl := Option.some.inj (found.symm.trans found₁)
    obtain rfl := stores.unique stores₁
    exact missed
  · exact fun missed => ⟨arena, tree, found, stores, missed⟩

theorem Lost.notEntered (gone : process.Lost r) (entered : process.Entered ar rs) : r ∉ rs := by
  cases entered with
  | new _ => simp
  | old found stores => exact gone.2 ar _ found _ stores

namespace Possesses

/-- The maps of two arenas have no chunk in common. -/
theorem entered_once (all : process.Possesses d) (entered : process.Entered ar rs) (different : other ≠ ar)
    (found : process.objects.lookup other = some arena) (stores : arena.chunks.Stores tree)
    (member : r ∈ tree.mapped) : r ∉ rs ∧ process.mem.Has r := by
  obtain ⟨tree', possesses⟩ := all other arena found
  obtain rfl := stores.unique possesses.maps.stores
  refine ⟨fun inside => ?_, possesses.maps.mapped_chunk member⟩
  cases entered with
  | new _ => simp at inside
  | @old arena' tree' found' stores' =>
    obtain ⟨tree₁, possesses'⟩ := all ar arena' found'
    obtain rfl := stores'.unique possesses'.maps.stores
    exact different ((possesses.own r member).1.symm.trans (possesses'.own r inside).1)

/-- An arena has made a call. -/
theorem lost_insert (all : process.Possesses d) (entered : process.Entered ar rs)
    (proceeds : Arena.Proceeds ar d d' process.mem mem arena')
    (accounts : ∀ tree', arena'.chunks.Stores tree' → Accounts process.mem mem rs tree'.mapped lost) :
    Lost { mem, objects := process.objects.insert ar arena' } r ↔ process.Lost r ∨ lost r := by
  obtain ⟨tree', possesses'⟩ := proceeds.possesses
  have accounts := accounts tree' possesses'.maps.stores
  have others : ∀ other, other ≠ ar → (process.objects.insert ar arena').lookup other = process.objects.lookup other :=
    fun other different => AList.lookup_insert_ne different
  have mine : (process.objects.insert ar arena').lookup ar = some arena' := AList.lookup_insert _
  constructor
  · rintro ⟨here, unmapped⟩
    rcases accounts.rest r here with member | gone | ⟨before, away⟩
    · exact absurd member (unmapped ar arena' mine tree' possesses'.maps.stores)
    · exact .inr gone
    · refine .inl ⟨before, fun other arena found tree stores => ?_⟩
      by_cases same : other = ar
      · subst same
        cases entered with
        | new absent => simp [absent] at found
        | old found' stores' =>
          obtain rfl := Option.some.inj (found'.symm.trans found)
          obtain rfl := stores'.unique stores
          exact away
      · exact unmapped other arena ((others other same).trans found) tree stores
  · have after : mem.Has r → r ∉ tree'.mapped → (∀ other arena, other ≠ ar →
        process.objects.lookup other = some arena → ∀ tree, arena.chunks.Stores tree → r ∉ tree.mapped) →
        Lost { mem, objects := process.objects.insert ar arena' } r := by
      intro here away unmapped
      refine ⟨here, fun other arena found tree stores => ?_⟩
      by_cases same : other = ar
      · subst same
        obtain rfl := Option.some.inj (mine.symm.trans found)
        obtain rfl := possesses'.maps.stores.unique stores
        exact away
      · exact unmapped other arena same ((others other same).symm.trans found) tree stores
    rintro (gone | gone)
    · obtain ⟨here, away⟩ := accounts.apart r gone.1 (gone.notEntered entered)
      exact after here away fun other arena _ => gone.2 other arena
    -- a chunk that is lost was in this map, or is new
    · obtain ⟨here, away, old⟩ := accounts.lost r gone
      refine after here away fun other arena different found tree stores member => ?_
      obtain ⟨notMine, before⟩ := all.entered_once entered different found stores member
      exact notMine (old before)

/-- A chunk is made for no arena. -/
theorem lost_leftover {r₀ : Addr} (all : process.Possesses d) (absent : ¬ process.mem.Has r₀)
    (has : ∀ s, mem.Has s ↔ s = r₀ ∨ process.mem.Has s) :
    Lost { process with mem } r ↔ process.Lost r ∨ r = r₀ := by
  constructor
  · rintro ⟨here, unmapped⟩
    rcases (has r).mp here with same | before
    · exact .inr same
    · exact .inl ⟨before, unmapped⟩
  · rintro (gone | rfl)
    · exact ⟨(has r).mpr (.inr gone.1), gone.2⟩
    · refine ⟨(has r).mpr (.inl rfl), fun ar arena found tree stores member => absent ?_⟩
      obtain ⟨tree', possesses⟩ := all ar arena found
      obtain rfl := stores.unique possesses.maps.stores
      exact possesses.maps.mapped_chunk member

/-- The flag of an arena changes. -/
theorem lost_flag (all : process.Possesses d) (divided : process.mem.Divided d)
    (found : process.objects.lookup ar = some arena) (reserved : Bool) :
    Lost { process with objects := process.objects.insert ar { arena with reserved } } r ↔ process.Lost r := by
  obtain ⟨tree, possesses⟩ := all ar arena found
  have kept : _ ↔ process.Lost r ∨ False := all.lost_insert (.old found possesses.maps.stores)
    ⟨divided, ⟨tree, possesses.flag reserved⟩, .refl ..⟩ fun tree' stores => by
      obtain rfl := stores.unique possesses.maps.stores
      exact .stay (fun _ => Iff.rfl) fun _ => id
  rw [kept, or_false]

/-- `shrink` loses what its iteration does not come to. -/
theorem lost_shrink {room : Nat} {nodes : List Ptr} {region node : Ptr} (all : process.Possesses d)
    (divided : process.mem.Divided d) (found : process.objects.lookup ar = some arena)
    (regains : arena.Regains process.mem nodes region node)
    (run : arena.shrink process.mem room nodes region node = .ok (mem, arena')) :
    Lost { mem, objects := process.objects.insert ar arena' } r ↔ process.Lost r ∨ process.Missed ar r := by
  obtain ⟨tree, possesses⟩ := all ar arena found
  obtain ⟨d', proceeds, accounts⟩ := possesses.shrink divided regains run
  rw [missed_iff found possesses.maps.stores]
  exact all.lost_insert (.old found possesses.maps.stores) proceeds accounts

end Possesses

end Process

namespace Threads

variable {I T : Type}

/-- The step loses the chunk: a constructor or a call of `malloc` throws that has made it, or the
iteration of `shrink` does not come to it. -/
def Loses (s : Threads I T) : Action I T → Addr → Prop
  | .advance t supply _, r =>
    match s.stage t with
    | .scanned i size => (s.pools i).arena t = none ∧ supply.object ≠ none ∧ supply.first = some r ∧
        Arena.init s.process.mem size supply.first supply.firstNode = .error .badAlloc
    | .serving i _ => ∃ ar arena mem arena', (s.pools i).arena t = some ar ∧
        s.process.objects.lookup ar = some arena ∧ supply.region = some r ∧
        arena.malloc s.process.mem supply.region supply.node = .ok (.threw, mem, arena')
    | .leaving ar => s.process.Missed ar r
    | _ => False
  | _, _ => False

/-- The arena is made, and on no list yet. -/
def Publishes (s : Threads I T) (t : T) (ar : Addr) : Prop :=
  ∃ i size, s.stage t = .built i size ar ∨ s.stage t = .stored i size ∧ (s.pools i).arena t = some ar

/-- The arena exists, and no list has it or will have it. -/
def Astray (s : Threads I T) (ar : Addr) : Prop :=
  (∃ arena, s.process.objects.lookup ar = some arena) ∧ (∀ i, ar ∉ (s.pools i).arenas) ∧ ∀ t, ¬ s.Publishes t ar

/-- The step loses the arena: `push_front` throws. -/
def Strays (s : Threads I T) : Action I T → Addr → Prop
  | .advance t supply _, ar =>
    match s.stage t with
    | .stored i _ => (s.pools i).arena t = some ar ∧ supply.link = none
    | _ => False
  | _, _ => False

variable {s s' : Threads I T} {d d' : Deeds} {t : T} {i : I} {ar r : Addr} {mem : Memory} {arena arena' : Arena}
  {size : Nat}

/-! ## Chunks -/

theorem Separated.lost_free {process : Process} {p : Addr} (separated : s.Separated d)
    (cached : ∀ ar ∈ (s.pools i).arena t, s.InCached ar p) (run : (s.pools i).free s.process t p = .ok process) :
    process.Lost r ↔ s.process.Lost r := by
  obtain ⟨ar, arena, found, rfl⟩ := separated.free_cached cached run
  exact separated.possesses.lost_flag separated.divided found arena.reserved

variable [DecidableEq T]

theorem Separated.lost_construct {supply : Supply} (separated : s.Separated d) (asks : 0 < size ∧ size ≤ 255)
    (absent : ∀ ar, supply.object = some ar → s.process.objects.lookup ar = none)
    (clear : ∀ r, supply.first = some r → s.process.mem.Clear size r)
    (run : s.construct t i size supply = .ok s') :
    s'.process.Lost r ↔ s.process.Lost r ∨ supply.object ≠ none ∧ supply.first = some r ∧
      Arena.init s.process.mem size supply.first supply.firstNode = .error .badAlloc := by
  unfold Threads.construct at run
  split at run
  next object =>
    obtain rfl := Except.ok.inj run
    simp only [object, ne_eq, not_true_eq_false, false_and, or_false]
    exact Iff.rfl
  next ar object =>
    split at run
    next threw =>
      obtain ⟨⟨mem, first⟩, created, rest⟩ := bind_eq_ok run
      obtain rfl := Except.ok.inj rest
      obtain ⟨_, _, _, same, absent, has⟩ :=
        Arena.createNewChunk_divided ar separated.divided asks.1 asks.2 clear created
      have loses : supply.object ≠ none ∧ supply.first = some r ∧
          Arena.init s.process.mem size supply.first supply.firstNode = .error .badAlloc ↔ r = first := by
        constructor
        · rintro ⟨_, here, _⟩
          exact Option.some.inj (here.symm.trans same)
        · rintro rfl
          exact ⟨by simp [object], same, threw⟩
      rw [loses]
      exact separated.possesses.lost_leftover absent has
    · cases run
    next mem arena made =>
      obtain rfl := Except.ok.inj run
      obtain ⟨d', proceeds, accounts⟩ := Arena.init_proceeds ar separated.divided asks.1 asks.2 clear made
      simp only [made, reduceCtorEq, and_false]
      exact separated.possesses.lost_insert (.new (absent ar object)) proceeds accounts

theorem Separated.lost_serve {supply : Supply} (separated : s.Separated d)
    (fresh : ∀ arena, s.process.objects.lookup ar = some arena →
      (∀ r, supply.region = some r → s.process.mem.Clear arena.blockSize r) ∧
        ∀ n, supply.node = some n → arena.chunks.nodes.lookup n = none)
    (run : s.serve t ar size supply = .ok s') :
    s'.process.Lost r ↔ s.process.Lost r ∨
      ∃ arena mem arena', s.process.objects.lookup ar = some arena ∧ supply.region = some r ∧
      arena.malloc s.process.mem supply.region supply.node = .ok (.threw, mem, arena') := by
  obtain ⟨arena, found, run⟩ := bind_eq_ok run
  obtain ⟨⟨reply, mem, arena'⟩, called, run⟩ := bind_eq_ok run
  have found := lookup_of_deref found
  obtain ⟨tree, possesses⟩ := separated.possesses ar arena found
  obtain ⟨d', proceeds, -, accounts⟩ :=
    possesses.malloc separated.divided (fresh arena found).1 (fresh arena found).2 called
  have loses : (∃ arena mem arena', s.process.objects.lookup ar = some arena ∧ supply.region = some r ∧
      arena.malloc s.process.mem supply.region supply.node = .ok (.threw, mem, arena')) ↔
      reply = .threw ∧ supply.region = some r := by
    constructor
    · rintro ⟨arena₁, mem₁, arena₂, found₁, region, threw⟩
      obtain rfl := Option.some.inj (found.symm.trans found₁)
      obtain ⟨rfl, _⟩ : reply = .threw ∧ _ := by simpa [called] using threw
      exact ⟨rfl, region⟩
    · rintro ⟨rfl, region⟩
      exact ⟨arena, mem, arena', found, region, called⟩
  have after := separated.possesses.lost_insert (r := r) (.old found possesses.maps.stores) proceeds accounts
  rw [loses, ← after]
  simp only at run
  split at run
  all_goals
    obtain rfl := Except.ok.inj run
    exact Iff.rfl

variable [DecidableEq I]

/-- One case for each stage, in the order of the code. -/
theorem Separated.lost_advance {supply : Supply} {nodes : List Ptr} (separated : s.Separated d)
    (orderly : s.Orderly (.act (.advance t supply nodes))) (run : s.advance t supply nodes = .ok s') :
    s'.process.Lost r ↔ s.process.Lost r ∨ s.Loses (.advance t supply nodes) r := by
  obtain ⟨admissible, supplies⟩ := orderly
  have asks := separated.asks t
  unfold Threads.advance at run
  unfold Supplies at supplies
  unfold Loses
  cases stage : s.stage t with
  | idle =>
    simp only [stage] at run ⊢
    obtain rfl := Except.ok.inj run
    exact (or_iff_left id).symm
  | scanning i size rest =>
    cases rest with
    | nil =>
      simp only [stage] at run ⊢
      obtain rfl := Except.ok.inj run
      exact (or_iff_left id).symm
    | cons it rest =>
      simp only [stage] at run ⊢
      obtain ⟨arena, found, run⟩ := bind_eq_ok run
      have marked := separated.possesses.lost_flag (r := r) separated.divided (lookup_of_deref found) true
      cases flag : arena.reserved with
      | false =>
        simp only [Arena.reserve, flag, Bool.not_false, if_true] at run
        obtain rfl := Except.ok.inj run
        exact marked.trans (or_iff_left id).symm
      | true =>
        simp only [Arena.reserve, flag, Bool.not_true, Bool.false_eq_true, if_false] at run
        obtain rfl := Except.ok.inj run
        exact marked.trans (or_iff_left id).symm
  | won i size ar =>
    simp only [stage] at run ⊢
    obtain rfl := Except.ok.inj run
    exact (or_iff_left id).symm
  | scanned i size =>
    simp only [stage] at run supplies ⊢
    split at run
    next ar holds =>
      obtain rfl := Except.ok.inj run
      simp only [holds, reduceCtorEq, false_and, or_false]
      exact Iff.rfl
    next without =>
      simp only [without, true_and]
      exact separated.lost_construct (asks size (by rw [stage]; rfl)) admissible supplies run
  | built i size ar =>
    simp only [stage] at run ⊢
    obtain rfl := Except.ok.inj run
    exact (or_iff_left id).symm
  | stored i size =>
    simp only [stage] at run ⊢
    obtain ⟨ar, _, run⟩ := bind_eq_ok run
    split at run
    all_goals
      obtain rfl := Except.ok.inj run
      exact (or_iff_left id).symm
  | serving i size =>
    simp only [stage] at run supplies ⊢
    obtain ⟨ar, holds, run⟩ := bind_eq_ok run
    have holds := nonNull_eq_ok holds
    simp only [holds, Option.some.injEq, exists_and_left, exists_eq_left']
    simpa only [exists_and_left] using separated.lost_serve (supplies ar holds) run
  | leaving ar =>
    simp only [stage] at run supplies ⊢
    obtain ⟨arena, found, run⟩ := bind_eq_ok run
    have found := lookup_of_deref found
    obtain ⟨⟨mem, arena'⟩, shrunk, run⟩ := bind_eq_ok run
    obtain rfl := Except.ok.inj run
    exact separated.possesses.lost_shrink separated.divided found (supplies arena found) shrunk
  | releasing ar =>
    simp only [stage] at run ⊢
    obtain ⟨arena, found, run⟩ := bind_eq_ok run
    obtain rfl := Except.ok.inj run
    exact (separated.possesses.lost_flag separated.divided (lookup_of_deref found) false).trans (or_iff_left id).symm

theorem Separated.lost_step {action : Action I T} (separated : s.Separated d) (orderly : s.Orderly (.act action))
    (run : s.step action = .ok s') : s'.process.Lost r ↔ s.process.Lost r ∨ s.Loses action r := by
  cases action with
  | malloc t i size =>
    simp only [Threads.step] at run
    split at run
    all_goals
      obtain rfl := Except.ok.inj run
      exact (or_iff_left id).symm
  | free t i p =>
    simp only [Threads.step] at run
    split at run
    · obtain ⟨process, freed, run⟩ := bind_eq_ok run
      obtain rfl := Except.ok.inj run
      exact (separated.lost_free orderly freed).trans (or_iff_left id).symm
    · obtain rfl := Except.ok.inj run
      exact (or_iff_left id).symm
  | exit t i =>
    simp only [Threads.step] at run
    split at run
    all_goals
      obtain rfl := Except.ok.inj run
      exact (or_iff_left id).symm
  | advance t supply nodes => exact separated.lost_advance orderly run

/-! ## Arenas -/

/-- A thread that makes no arena, and publishes none, does not change what is astray. -/
theorem Moves.astray_quiet (moves : Moves s t s') (before : ∀ a, ¬ s.Publishes t a) (after : ∀ a, ¬ s'.Publishes t a)
    (lists : ∀ i, (s'.pools i).arenas = (s.pools i).arenas)
    (exist : ∀ a, (∃ arena, s'.process.objects.lookup a = some arena) ↔
      ∃ arena, s.process.objects.lookup a = some arena) :
    s'.Astray ar ↔ s.Astray ar := by
  unfold Astray
  simp only [exist, lists]
  refine and_congr_right fun _ => and_congr_right fun _ => forall_congr' fun u => not_congr ?_
  by_cases same : u = t
  · subst same
    exact iff_of_false (after ar) (before ar)
  · obtain ⟨stage, arena⟩ := moves.others same
    simp only [Publishes, stage, arena]

omit [DecidableEq I] [DecidableEq T] in
theorem exist_store (found : s.process.objects.lookup ar = some arena) (a : Addr) :
    (∃ arena, (s.store mem ar arena').process.objects.lookup a = some arena) ↔
      ∃ arena, s.process.objects.lookup a = some arena := by
  by_cases same : a = ar
  · subst same
    exact iff_of_true ⟨arena', AList.lookup_insert _⟩ ⟨arena, found⟩
  · exact iff_of_eq (congrArg (fun x => ∃ arena, x = some arena) (AList.lookup_insert_ne same))

/-- As long as no arena is published, none goes astray. -/
theorem Moves.astray (moves : Moves s t s') (notStored : ∀ i size, s.stage t ≠ .stored i size) :
    s'.Astray ar ↔ s.Astray ar := by
  have all := moves
  have quiet : ∀ {stage}, s.stage t = stage → (∀ i size a, stage ≠ .built i size a) → ∀ a, ¬ s.Publishes t a := by
    rintro _ rfl notBuilt a ⟨i, size, built | ⟨stored, _⟩⟩
    · exact notBuilt i size a built
    · exact notStored i size stored
  cases moves with
  | stays => exact Iff.rfl
  | @frees process alike =>
    have exist : ∀ a, (∃ arena, process.objects.lookup a = some arena) ↔
        ∃ arena, s.process.objects.lookup a = some arena := fun a => by
      have same := alike a
      cases lookup : s.process.objects.lookup a <;> cases lookup' : process.objects.lookup a <;>
        simp_all
    simp only [Astray, exist]
    exact Iff.rfl
  | starts stage _ => exact all.astray_quiet (quiet stage (by simp)) (by simp [Publishes]) (by simp) fun _ => Iff.rfl
  | resumes stage => exact all.astray_quiet (quiet stage (by simp)) (by simp [Publishes]) (by simp) fun _ => Iff.rfl
  | exits stage _ => exact all.astray_quiet (quiet stage (by simp)) (by simp [Publishes]) (by simp) fun _ => Iff.rfl
  | ends stage => exact all.astray_quiet (quiet stage (by simp)) (by simp [Publishes]) (by simp) fun _ => Iff.rfl
  | wins stage found _ =>
    exact all.astray_quiet (quiet stage (by simp)) (by simp [Publishes]) (by simp) (exist_store found)
  | loses stage found _ =>
    exact all.astray_quiet (quiet stage (by simp)) (by simp [Publishes]) (by simp) (exist_store found)
  | keeps stage => exact all.astray_quiet (quiet stage (by simp)) (by simp [Publishes]) (by simp) fun _ => Iff.rfl
  | finds stage => exact all.astray_quiet (quiet stage (by simp)) (by simp [Publishes]) (by simp) fun _ => Iff.rfl
  | @builds i size mem a arena stage _ absent _ _ =>
    have mine : Publishes (((s.store mem a arena).record (.constructed a size)).goto t (.built i size a)) t a :=
      ⟨i, size, .inl (stage_goto ..)⟩
    by_cases same : ar = a
    · subst same
      exact iff_of_false (fun astray => astray.2.2 t mine) fun astray => by simpa [absent] using astray.1
    · refine and_congr (iff_of_eq (congrArg (fun x => ∃ arena, x = some arena) (AList.lookup_insert_ne same)))
        (and_congr (by simp) (forall_congr' fun u => not_congr ?_))
      by_cases here : u = t
      · subst here
        exact iff_of_false (by simp [Publishes, Ne.symm same]) (quiet stage (by simp) ar)
      · obtain ⟨stage', arena'⟩ := all.others here
        simp only [Publishes, stage', arena']
  | @stores i size a stage =>
    refine and_congr Iff.rfl (and_congr (by simp) (forall_congr' fun u => not_congr ?_))
    by_cases here : u = t
    · subst here
      simp [Publishes, stage, arena_reset, eq_comm]
    · obtain ⟨stage', arena'⟩ := all.others here
      simp only [Publishes, stage', arena']
  | publishes stage => exact absurd stage (notStored _ _)
  | throws mem hand =>
    have notBuilt : ∀ i size a, s.stage t ≠ .built i size a := fun i size a stage => by simp [stage, Stage.hand] at hand
    exact all.astray_quiet (quiet rfl notBuilt) (by simp [Publishes]) (by simp) fun _ => Iff.rfl
  | serves stage _ found _ =>
    exact all.astray_quiet (quiet stage (by simp)) (by simp [Publishes]) (by simp) (exist_store found)
  | fails stage found _ =>
    exact all.astray_quiet (quiet stage (by simp)) (by simp [Publishes]) (by simp) (exist_store found)
  | shrinks stage found _ =>
    exact all.astray_quiet (quiet stage (by simp)) (by simp [Publishes]) (by simp) (exist_store found)
  | clears stage found =>
    exact all.astray_quiet (quiet stage (by simp)) (by simp [Publishes]) (by simp) (exist_store found)

omit [DecidableEq I] [DecidableEq T] in
/-- The arena that a thread is about to publish is on no list, and no other thread has it. -/
theorem Housed.publisher (housed : s.Housed) (stage : s.stage t = .stored i size)
    (holds : (s.pools i).arena t = some ar) :
    (∃ arena, s.process.objects.lookup ar = some arena) ∧ (∀ j, ar ∉ (s.pools j).arenas) ∧
      ∀ u, u ≠ t → ¬ s.Publishes u ar := by
  obtain ⟨home, homes⟩ := housed.homes
  have here := (homes.settled t).held i ar holds
  have mine : s.ledger.held (t, some i) = some ar := holds
  refine ⟨homes.made ar i here, fun j listed => ?_, fun u other ⟨j, n, publishes⟩ => ?_⟩
  · obtain rfl : i = j := Option.some.inj (here.symm.trans (homes.listed j ar listed))
    exact (homes.settled t).stored i size ar stage holds listed
  · rcases publishes with built | ⟨_, holds'⟩
    · have hand : s.ledger.held (u, none) = some ar := congrArg Stage.hand built
      simpa using housed.exclusive.alone _ _ ar hand mine
    · exact other (congrArg Prod.fst (housed.exclusive.alone (u, some j) (t, some i) ar holds' mine))

theorem Housed.astray_stored {supply : Supply} {nodes : List Ptr} (housed : s.Housed)
    (stage : s.stage t = .stored i size) (run : s.advance t supply nodes = .ok s') :
    s'.Astray ar ↔ s.Astray ar ∨ (s.pools i).arena t = some ar ∧ supply.link = none := by
  simp only [Threads.advance, stage] at run
  obtain ⟨a, holds, run⟩ := bind_eq_ok run
  have holds := nonNull_eq_ok holds
  obtain ⟨exist, unlisted, alone⟩ := housed.publisher stage holds
  have before : s.Publishes t a := ⟨i, size, .inr ⟨stage, holds⟩⟩
  -- only this thread has the arena, and it has no other one
  have others : ∀ b, b ≠ a → ¬ s.Publishes t b := by
    rintro b other ⟨j, n, built | ⟨stored, holds'⟩⟩
    · simp [stage] at built
    · obtain ⟨rfl, rfl⟩ : i = j ∧ size = n := by simpa [stage] using stored
      exact other (Option.some.inj (holds'.symm.trans holds))
  split at run
  next link =>
    obtain rfl := Except.ok.inj run
    by_cases same : ar = a
    · subst same
      refine iff_of_true ⟨exist, unlisted, fun u => ?_⟩ (.inr ⟨holds, link⟩)
      by_cases mine : u = t
      · subst mine
        simp [Publishes]
      · simpa [Publishes, stage_goto_ne mine] using alone u mine
    · have notMine : ¬ ((s.pools i).arena t = some ar ∧ supply.link = none) := fun mine =>
        same (Option.some.inj (mine.1.symm.trans holds))
      rw [or_iff_left notMine]
      refine and_congr Iff.rfl (and_congr Iff.rfl (forall_congr' fun u => not_congr ?_))
      by_cases mine : u = t
      · subst mine
        exact iff_of_false (by simp [Publishes]) (others ar same)
      · simp only [Publishes, stage_goto_ne mine, pools_goto]
  next link =>
    obtain rfl := Except.ok.inj run
    have linked : ¬ ((s.pools i).arena t = some ar ∧ supply.link = none) := by simp [link]
    rw [or_iff_left linked]
    by_cases same : ar = a
    · subst same
      refine iff_of_false (fun astray => astray.2.1 i ?_) fun astray => astray.2.2 t before
      simp [arenas_pushFront]
    · refine and_congr Iff.rfl (and_congr (forall_congr' fun j => not_congr ?_) (forall_congr' fun u => not_congr ?_))
      · rw [arenas_goto, arenas_pushFront]
        split <;> simp [same]
      · by_cases mine : u = t
        · subst mine
          exact iff_of_false (by simp [Publishes]) (others ar same)
        · simp only [Publishes, stage_goto_ne mine, pools_goto, stage_pushFront, arena_pushFront]

theorem Housed.astray_step {action : Action I T} (housed : s.Housed) (admissible : s.Admissible action)
    (run : s.step action = .ok s') : s'.Astray ar ↔ s.Astray ar ∨ s.Strays action ar := by
  by_cases stored : ∃ i size, s.stage action.thread = .stored i size
  · obtain ⟨i, size, stage⟩ := stored
    cases action with
    | advance t supply nodes =>
      have stage : s.stage t = .stored i size := stage
      simp only [Strays, stage]
      exact housed.astray_stored stage run
    -- the thread is in a call already
    | malloc t _ _ | free t _ _ | exit t _ =>
      simp only [Action.thread] at stage
      simp only [Threads.step, stage] at run
      obtain rfl := Except.ok.inj run
      exact (or_iff_left id).symm
  · have notStored : ∀ i size, s.stage action.thread ≠ .stored i size := fun i size stage => stored ⟨i, size, stage⟩
    have notStrays : ¬ s.Strays action ar := by
      cases action with
      | advance t supply nodes =>
        cases stage : s.stage t with
        | stored i size => exact absurd stage (notStored i size)
        | _ => simp [Strays, stage]
      | malloc _ _ _ | free _ _ _ | exit _ _ => exact id
    rw [or_iff_left notStrays]
    exact (step_moves admissible run).astray notStored

/-! ## Runs -/

end Threads

end SmallObject
