import SmallObject.Library.Execution
import SmallObject.ObjectAllocator

/-! `object_allocator::instance`, step by step, by any number of threads.

The first load of `_instance` takes no lock; the second load and all that follows it are
made by the one thread that holds `_smtx`. Between any two steps of a thread the others
may take steps of their own. `release`, which runs at exit, is no step.
-/

set_option autoImplicit false

namespace SmallObject

open Linked Execution

namespace ObjectAllocator

/-- `pools_`, and the pools that have been constructed there. -/
structure Members (T : Type) where
  memory : Ptr
  pools : List (Pool T)

/-- Where a thread is in `instance`. -/
inductive Site where
  | idle
  /-- Before the first load. -/
  | loading
  /-- The first load has returned null. -/
  | locking
  /-- The lock is held, before the second load. -/
  | checking
  | allocating
  /-- In the constructor of the object at an address, before `sys::xmalloc`. -/
  | reserving (object : Addr)
  /-- In the loop of the constructor. -/
  | building (object : Addr) (i : UInt8)
  /-- The constructor has returned. -/
  | storing (object : Addr)
  | registering (object : Addr)
  /-- Before the destructor of the lock, and then `return tmp`. -/
  | unlocking (tmp : Ptr)
  /-- The same, when an exception leaves the function. -/
  | throwing
  deriving DecidableEq, Repr

/-- The lock is held. -/
def Site.Inside : Site → Prop
  | .idle | .loading | .locking => False
  | _ => True

/-- What the threads share. What has been constructed, the calls of `atexit` and what the
calls have returned are recorded. -/
structure Singleton (T : Type) where
  instance_ : Ptr
  smtx : Option T
  objects : Heap (Members T)
  site : T → Site
  constructed : List Addr
  registered : Nat
  returned : List (T × Ptr)

/-- What the system and the constructor of a pool answer in a step that asks them. -/
structure Answer where
  object : Ptr
  memory : Ptr
  throws : Bool
  deriving DecidableEq, Repr

inductive Move (T : Type) where
  | call (t : T)
  | advance (t : T) (answer : Answer)

namespace Singleton

variable {T : Type}

def init : Singleton T :=
  { instance_ := none, smtx := none, objects := ∅, site := fun _ => .idle, constructed := [], registered := 0,
    returned := [] }

section Steps

variable [DecidableEq T] (k : Nat)

def goto (s : Singleton T) (t : T) (site : Site) : Singleton T :=
  { s with site := Function.update s.site t site }

/-- The call returns. -/
def answer (s : Singleton T) (t : T) (tmp : Ptr) : Singleton T :=
  { s with returned := (t, tmp) :: s.returned }.goto t .idle

/-- One round of the constructor's loop, or its end. -/
def build (s : Singleton T) (t : T) (object : Addr) (i : UInt8) (throws : Bool) : Except Fault (Singleton T) := do
  let members ← deref s.objects (some object)
  if i.toNat < (poolsCount (2 ^ k)).toNat then do
    let _ ← nonNull members.memory
    -- the object is not constructed then, and its memory is given back
    if throws then .ok ({ s with objects := s.objects.erase object }.goto t .throwing)
    else
      .ok ({ s with objects := s.objects.insert object { members with pools := members.pools ++ [Pool.init] } }.goto t
        (.building object (i + 1)))
  else .ok ({ s with constructed := object :: s.constructed }.goto t (.storing object))

/-- The next step of a thread; a thread that finds the lock taken stays where it is. -/
def advance (s : Singleton T) (t : T) (reply : Answer) : Except Fault (Singleton T) :=
  match s.site t with
  | .idle => .ok s
  | .loading =>
    match s.instance_ with
    | some object => .ok (s.answer t (some object))
    | none => .ok (s.goto t .locking)
  | .locking =>
    match s.smtx with
    | some _ => .ok s
    | none => .ok ({ s with smtx := some t }.goto t .checking)
  | .checking =>
    match s.instance_ with
    | some object => .ok (s.goto t (.unlocking (some object)))
    | none => .ok (s.goto t .allocating)
  | .allocating =>
    match reply.object with
    | none => .ok (s.goto t .throwing)
    | some object => .ok ({ s with objects := s.objects.insert object ⟨none, []⟩ }.goto t (.reserving object))
  | .reserving object => do
    let members ← deref s.objects (some object)
    .ok ({ s with objects := s.objects.insert object { members with memory := reply.memory } }.goto t
      (.building object 0))
  | .building object i => s.build k t object i reply.throws
  -- `atexit` is called after the store
  | .storing object => .ok ({ s with instance_ := some object }.goto t (.registering object))
  | .registering object => .ok ({ s with registered := s.registered + 1 }.goto t (.unlocking (some object)))
  | .unlocking tmp => .ok ({ s with smtx := none }.answer t tmp)
  | .throwing => .ok ({ s with smtx := none }.goto t .idle)

def step (s : Singleton T) : Move T → Except Fault (Singleton T)
  | .call t =>
    match s.site t with
    | .idle => .ok (s.goto t .loading)
    | _ => .ok s
  | .advance t reply => s.advance k t reply

end Steps

/-- The runs from the state before any call. -/
def Run [DecidableEq T] (k : Nat) : Singleton T → Prop := Runs (· = init) (fun _ _ => True) (step k)

/-! ## What holds at every step -/

/-- No allocator has been constructed. -/
def Blank (s : Singleton T) : Prop := s.instance_ = none ∧ s.constructed = [] ∧ s.registered = 0

/-- The constructor has built all pools of the object. -/
def Complete (k : Nat) (s : Singleton T) (object : Addr) : Prop :=
  ∃ p pools, s.objects.lookup object = some ⟨some p, pools⟩ ∧ ObjectAllocator.init T (2 ^ k) = .ok pools

/-- What the place of a thread says about what is shared. -/
def Claim (k : Nat) (s : Singleton T) : Site → Prop
  | .allocating => s.Blank
  | .reserving object => s.Blank ∧ s.objects.lookup object = some ⟨none, []⟩
  | .building object i => s.Blank ∧ i.toNat ≤ 14 ∧
    ∃ p, s.objects.lookup object = some ⟨p, List.replicate i.toNat Pool.init⟩ ∧ (0 < i.toNat → p ≠ none)
  | .storing object => s.instance_ = none ∧ s.constructed = [object] ∧ s.registered = 0 ∧ s.Complete k object
  | .registering object => s.instance_ = some object ∧ s.registered = 0
  | .unlocking tmp => tmp ≠ none ∧ s.instance_ = tmp
  | _ => True

structure Sound (k : Nat) (s : Singleton T) : Prop where
  held : ∀ t, (s.site t).Inside → s.smtx = some t
  claims : ∀ t, s.Claim k (s.site t)
  returned : ∀ x ∈ s.returned, x.2 ≠ none ∧ s.instance_ = x.2
  published : ∀ object, s.instance_ = some object →
    s.constructed = [object] ∧ s.Complete k object ∧ s.registered ≤ 1
  vacant : s.instance_ = none → s.registered = 0 ∧ (s.constructed = [] ∨ ∃ t object, s.site t = .storing object)

theorem sound_init (k : Nat) : (init : Singleton T).Sound k := by
  constructor <;> simp [init, Site.Inside, Claim]

section Keep

variable {k : Nat} {s s₁ : Singleton T} {t u : T} {site : Site} {tmp : Ptr}

/-- A thread that does not hold the lock says nothing. -/
theorem claim_outside (outside : ¬ site.Inside) : s.Claim k site := by
  cases site <;> simp_all [Site.Inside, Claim]

/-- The lock is held by one thread. -/
theorem Sound.alone (sound : s.Sound k) (here : (s.site t).Inside) (other : u ≠ t) : ¬ (s.site u).Inside :=
  fun inside => other (Option.some.inj ((sound.held u inside).symm.trans (sound.held t here)))

/-- The holder of the lock finds no allocator, and is not about to publish one. -/
theorem Sound.blank (sound : s.Sound k) (here : (s.site t).Inside) (none : s.instance_ = none)
    (notStoring : ∀ object, s.site t ≠ .storing object) : s.Blank := by
  obtain ⟨unregistered, empty | ⟨u, object, storing⟩⟩ := sound.vacant none
  · exact ⟨none, empty, unregistered⟩
  · have same : u = t := by
      by_contra other
      exact sound.alone here other (by simp [storing, Site.Inside])
    exact absurd (same ▸ storing) (notStoring object)

variable [DecidableEq T]

@[simp] theorem site_goto_self : (s.goto t site).site t = site := Function.update_self ..

theorem site_goto_of_ne (other : u ≠ t) : (s.goto t site).site u = s.site u := Function.update_of_ne other ..

/-- The thread stays inside, and the others are outside. -/
theorem Sound.inside (sound : s.Sound k) (here : (s.site t).Inside) (sites : s₁.site = s.site)
    (lock : s₁.smtx = s.smtx) (returned : s₁.returned = s.returned)
    (kept : s.instance_ ≠ none → s₁.instance_ = s.instance_) (own : s₁.Claim k site)
    (published : ∀ object, s₁.instance_ = some object →
      s₁.constructed = [object] ∧ s₁.Complete k object ∧ s₁.registered ≤ 1)
    (vacant : s₁.instance_ = none → s₁.registered = 0 ∧ (s₁.constructed = [] ∨ ∃ object, site = .storing object)) :
    (s₁.goto t site).Sound k := by
  constructor
  · intro u inside
    rcases eq_or_ne u t with rfl | other
    · exact lock.trans (sound.held u here)
    · rw [site_goto_of_ne other, sites] at inside
      exact absurd inside (sound.alone here other)
  · intro u
    rcases eq_or_ne u t with rfl | other
    · rw [site_goto_self]
      exact own
    · rw [site_goto_of_ne other, sites]
      -- the others are outside, where nothing is claimed
      exact claim_outside (sound.alone here other)
  · intro x member
    obtain ⟨some, same⟩ := sound.returned x (returned ▸ member)
    exact ⟨some, (kept (same ▸ some)).trans same⟩
  · exact published
  · intro none
    obtain ⟨unregistered, rest⟩ := vacant none
    refine ⟨unregistered, rest.imp_right fun ⟨object, storing⟩ => ⟨t, object, ?_⟩⟩
    rw [site_goto_self, storing]

/-- The thread stays inside, with nothing constructed before or after. -/
theorem Sound.unpublished (sound : s.Sound k) (here : (s.site t).Inside) (before : s.Blank) (after : s₁.Blank)
    (sites : s₁.site = s.site) (lock : s₁.smtx = s.smtx) (returned : s₁.returned = s.returned)
    (own : s₁.Claim k site) : (s₁.goto t site).Sound k := by
  apply sound.inside here sites lock returned
  · intro some
    exact absurd before.1 some
  · exact own
  · simp [after.1]
  · intro _
    exact ⟨after.2.2, .inl after.2.1⟩

/-- A step that changes the lock only. -/
theorem Sound.relock (sound : s.Sound k) {lock : Option T} (notStoring : ∀ object, s.site t ≠ .storing object)
    (own : s.Claim k site) (held : ∀ u, ((s.goto t site).site u).Inside → lock = some u) :
    ({ s with smtx := lock }.goto t site).Sound k := by
  constructor
  · exact held
  · intro u
    rcases eq_or_ne u t with rfl | other
    · rw [site_goto_self]
      exact own
    · rw [site_goto_of_ne other]
      exact sound.claims u
  · exact sound.returned
  · exact sound.published
  · intro none
    obtain ⟨unregistered, rest⟩ := sound.vacant none
    refine ⟨unregistered, rest.imp_right ?_⟩
    rintro ⟨u, object, storing⟩
    have other : u ≠ t := by
      rintro rfl
      exact notStoring object storing
    exact ⟨u, object, (site_goto_of_ne other).trans storing⟩

/-- A thread that is outside stays outside. -/
theorem Sound.outside (sound : s.Sound k) (here : ¬ (s.site t).Inside) (still : ¬ site.Inside) :
    (s.goto t site).Sound k := by
  have notStoring : ∀ object, s.site t ≠ .storing object := by
    intro object storing
    exact here (by simp [storing, Site.Inside])
  apply sound.relock notStoring (claim_outside still)
  intro u inside
  rcases eq_or_ne u t with rfl | other
  · rw [site_goto_self] at inside
    exact absurd inside still
  · rw [site_goto_of_ne other] at inside
    exact sound.held u inside

theorem Sound.acquire (sound : s.Sound k) (free : s.smtx = none) :
    ({ s with smtx := some t }.goto t .checking).Sound k := by
  have nobody : ∀ u, ¬ (s.site u).Inside := fun u inside => by simpa [free] using sound.held u inside
  have notStoring : ∀ object, s.site t ≠ .storing object := by
    intro object storing
    exact nobody t (by simp [storing, Site.Inside])
  have own : s.Claim k .checking := trivial
  apply sound.relock notStoring own
  intro u inside
  rcases eq_or_ne u t with rfl | other
  · rfl
  · rw [site_goto_of_ne other] at inside
    exact absurd inside (nobody u)

theorem Sound.release (sound : s.Sound k) (here : (s.site t).Inside)
    (notStoring : ∀ object, s.site t ≠ .storing object) : ({ s with smtx := none }.goto t .idle).Sound k := by
  have own : s.Claim k .idle := trivial
  apply sound.relock notStoring own
  intro u inside
  rcases eq_or_ne u t with rfl | other
  · rw [site_goto_self] at inside
    exact inside.elim
  · rw [site_goto_of_ne other] at inside
    exact absurd inside (sound.alone here other)

omit [DecidableEq T] in
/-- A call may return what is published. -/
theorem Sound.record (sound : s.Sound k) (some : tmp ≠ none) (same : s.instance_ = tmp) :
    ({ s with returned := (t, tmp) :: s.returned }).Sound k := by
  refine ⟨sound.held, sound.claims, fun x member => ?_, sound.published, sound.vacant⟩
  rcases List.mem_cons.mp member with rfl | before
  · exact ⟨some, same⟩
  · exact sound.returned x before

theorem Sound.build (sound : s.Sound k) {object : Addr} {i : UInt8} {throws : Bool} {s' : Singleton T}
    (here : s.site t = .building object i) (run : s.build k t object i throws = .ok s') : s'.Sound k := by
  have inside : (s.site t).Inside := by simp [here, Site.Inside]
  obtain ⟨blank, few, p, found, stored⟩ : s.Claim k (.building object i) := here ▸ sound.claims t
  simp only [Singleton.build, deref_of_lookup found, ok_bind, poolsCount_toNat] at run
  split at run
  next more =>
    obtain ⟨q, nonNull, run⟩ := bind_eq_ok run
    split at run
    next =>
      obtain rfl := Except.ok.inj run
      exact sound.unpublished inside blank blank rfl rfl rfl trivial
    next =>
      obtain rfl := Except.ok.inj run
      -- one more pool, and the counter is in the range of its type
      have next : (i + 1).toNat = i.toNat + 1 := by
        rw [UInt8.toNat_add, show (1 : UInt8).toNat = 1 from rfl, Nat.mod_eq_of_lt (by omega)]
      refine sound.unpublished inside blank blank rfl rfl rfl ⟨blank, by omega, p, ?_, ?_⟩
      · rw [AList.lookup_insert, next, List.replicate_succ']
      · intro _
        have := nonNull_eq_ok nonNull
        simp [this]
  next done =>
    obtain rfl := Except.ok.inj run
    have all : i.toNat = 14 := by omega
    have complete : s.Complete k object := by
      obtain ⟨q, rfl⟩ := Option.ne_none_iff_exists'.mp (stored (by omega))
      exact ⟨q, _, found, by rw [init_eq, all]⟩
    obtain ⟨none, empty, unregistered⟩ := blank
    exact sound.inside inside rfl rfl rfl (fun some => absurd none some)
      ⟨none, by simp [empty], unregistered, complete⟩ (by simp [none]) (fun _ => ⟨unregistered, .inr ⟨object, rfl⟩⟩)

/-- One case for each place. -/
theorem Sound.advance (sound : s.Sound k) {reply : Answer} {s' : Singleton T} (run : s.advance k t reply = .ok s') :
    s'.Sound k := by
  have claim := sound.claims t
  unfold Singleton.advance at run
  cases here : s.site t with
  | idle =>
    simp only [here] at run
    obtain rfl := Except.ok.inj run
    exact sound
  | loading =>
    simp only [here] at run
    have outside : ¬ (s.site t).Inside := by simp [here, Site.Inside]
    cases loaded : s.instance_ with
    | none =>
      simp only [loaded] at run
      obtain rfl := Except.ok.inj run
      exact sound.outside outside id
    | some object =>
      simp only [loaded] at run
      obtain rfl := Except.ok.inj run
      exact (sound.record (by simp) loaded).outside outside id
  | locking =>
    simp only [here] at run
    cases free : s.smtx with
    | none =>
      simp only [free] at run
      obtain rfl := Except.ok.inj run
      exact sound.acquire free
    | some u =>
      simp only [free] at run
      obtain rfl := Except.ok.inj run
      exact sound
  | checking =>
    simp only [here] at run
    have inside : (s.site t).Inside := by simp [here, Site.Inside]
    cases loaded : s.instance_ with
    | none =>
      simp only [loaded] at run
      obtain rfl := Except.ok.inj run
      have blank := sound.blank inside loaded (by simp [here])
      exact sound.unpublished inside blank blank rfl rfl rfl blank
    | some object =>
      simp only [loaded] at run
      obtain rfl := Except.ok.inj run
      exact sound.inside inside rfl rfl rfl (fun _ => rfl) ⟨by simp, loaded⟩ sound.published (by simp [loaded])
  | allocating =>
    rw [here] at claim
    simp only [here] at run
    have inside : (s.site t).Inside := by simp [here, Site.Inside]
    have blank : s.Blank := claim
    cases answered : reply.object with
    | none =>
      simp only [answered] at run
      obtain rfl := Except.ok.inj run
      exact sound.unpublished inside blank blank rfl rfl rfl trivial
    | some object =>
      simp only [answered] at run
      obtain rfl := Except.ok.inj run
      exact sound.unpublished inside blank blank rfl rfl rfl ⟨blank, AList.lookup_insert _⟩
  | reserving object =>
    rw [here] at claim
    have inside : (s.site t).Inside := by simp [here, Site.Inside]
    obtain ⟨blank, found⟩ := claim
    simp only [here, deref_of_lookup found, ok_bind] at run
    obtain rfl := Except.ok.inj run
    refine sound.unpublished inside blank blank rfl rfl rfl ⟨blank, by decide, reply.memory, AList.lookup_insert _, ?_⟩
    intro positive
    exact absurd positive (by decide)
  | building object i =>
    simp only [here] at run
    exact sound.build here run
  -- this store publishes the allocator, which is complete by now
  | storing object =>
    rw [here] at claim
    simp only [here] at run
    obtain rfl := Except.ok.inj run
    have inside : (s.site t).Inside := by simp [here, Site.Inside]
    obtain ⟨none, one, unregistered, complete⟩ := claim
    refine sound.inside inside rfl rfl rfl (fun some => absurd none some) ⟨rfl, unregistered⟩ ?_ (by simp)
    rintro _ ⟨⟩
    exact ⟨one, complete, by simp [unregistered]⟩
  | registering object =>
    rw [here] at claim
    simp only [here] at run
    obtain rfl := Except.ok.inj run
    have inside : (s.site t).Inside := by simp [here, Site.Inside]
    obtain ⟨stored, unregistered⟩ := claim
    refine sound.inside inside rfl rfl rfl (fun _ => rfl) ⟨by simp, stored⟩ (fun other published => ?_)
      (by simp [stored])
    obtain ⟨one, complete, _⟩ := sound.published other published
    exact ⟨one, complete, by simp [unregistered]⟩
  | unlocking tmp =>
    rw [here] at claim
    simp only [here] at run
    obtain rfl := Except.ok.inj run
    obtain ⟨some, same⟩ := claim
    exact (sound.record some same).release (by simp [here, Site.Inside]) (by simp [here])
  | throwing =>
    simp only [here] at run
    obtain rfl := Except.ok.inj run
    exact sound.release (by simp [here, Site.Inside]) (by simp [here])

theorem Sound.step (sound : s.Sound k) {move : Move T} {s' : Singleton T} (run : s.step k move = .ok s') :
    s'.Sound k := by
  cases move with
  | call t =>
    simp only [Singleton.step] at run
    split at run
    next here =>
      obtain rfl := Except.ok.inj run
      exact sound.outside (by simp [here, Site.Inside]) id
    next =>
      obtain rfl := Except.ok.inj run
      exact sound
  | advance t reply => exact sound.advance run

/-- However many threads call `instance`, and in whatever order they take their steps: at most one
allocator is constructed, `atexit` is called at most once, and every call that returns gives the
same allocator, which is complete. -/
theorem run_one (run : Run k s) : s.constructed.length ≤ 1 ∧ s.registered ≤ 1 ∧
    (∀ x ∈ s.returned, ∃ object, x.2 = some object ∧ s.constructed = [object] ∧ s.Complete k object) ∧
    ∀ x ∈ s.returned, ∀ y ∈ s.returned, x.2 = y.2 := by
  have sound : s.Sound k := by
    apply run.invariant
    · rintro s rfl
      exact sound_init k
    · exact fun s move s' sound _ stepped => sound.step stepped
  have few : s.constructed.length ≤ 1 ∧ s.registered ≤ 1 := by
    cases loaded : s.instance_ with
    | none =>
      -- before the store nothing is constructed, or a thread is about to store the one that is
      obtain ⟨unregistered, empty | ⟨u, object, storing⟩⟩ := sound.vacant loaded
      · simp [empty, unregistered]
      · have claim := sound.claims u
        rw [storing] at claim
        obtain ⟨_, one, _⟩ := claim
        simp [one, unregistered]
    | some object =>
      obtain ⟨one, _, once⟩ := sound.published object loaded
      simp [one, once]
  refine ⟨few.1, few.2, fun x member => ?_, fun x member y member' => ?_⟩
  · obtain ⟨some, same⟩ := sound.returned x member
    obtain ⟨object, returned⟩ := Option.ne_none_iff_exists'.mp some
    obtain ⟨one, complete, _⟩ := sound.published object (same.trans returned)
    exact ⟨object, returned, one, complete⟩
  · exact (sound.returned x member).2.symm.trans (sound.returned y member').2

/-- Both threads load null. The second one constructs the allocator while the first one waits, and
then calls once more. -/
theorem run_one_two : ∃ s : Singleton Bool, s.returned = [(true, some 64), (false, some 64), (true, some 64)] ∧
    s.constructed = [64] ∧ s.Complete 3 64 := by
  let next (t : Bool) : Move Bool := .advance t ⟨some 64, some 128, false⟩
  have computed : (replay (fun _ _ => True) (step 3) (init : Singleton Bool)
      ([.call false, .call true, next false, next true, next true, next false] ++ List.replicate 21 (next true) ++
        [next false, next false, next false, .call true, next true])).map (fun s => s.returned) =
      some [(true, some 64), (false, some 64), (true, some 64)] := by decide +kernel
  obtain ⟨s, replayed, returned⟩ := Option.map_eq_some_iff.mp computed
  obtain ⟨_, _, all, _⟩ := run_one (replay_runs _ (.start rfl) replayed)
  obtain ⟨object, same, one, complete⟩ := all (true, some 64) (by simp [returned])
  obtain rfl : 64 = object := Option.some.inj same
  exact ⟨s, returned, one, complete⟩

end Keep

end Singleton

end ObjectAllocator

end SmallObject
