import SmallObject.ObjectAllocator.Instance

/-! `object_allocator::release`, which runs at exit, and calls of `instance` that do not wait for it.

`release` takes no lock. It loads `_instance`, deletes the allocator and stores null, and the threads
may take steps of their own in between. A call of `instance` that finds null constructs another
allocator, with a function at exit of its own.
-/

set_option autoImplicit false

namespace SmallObject

open Linked Execution

namespace ObjectAllocator

section Destroy

variable {T : Type} (k : Nat)

/-- The loop of the destructor, from a pool on. The counter is a `uint8_t`. -/
def destroyFrom (members : Members T) : Nat → UInt8 → Except Fault Unit
  | fuel, i =>
    if i.toNat < (poolsCount (2 ^ k)).toNat then
      match fuel with
      | 0 => .error .endless
      | fuel + 1 => do
        let _ ← nonNull members.memory
        match members.pools[i.toNat]? with
        | none => .error .null
        | some _ => destroyFrom members fuel (i + 1)
    else .ok ()

def destroy (members : Members T) : Except Fault Unit := destroyFrom k members 256 0

/-- The counter stays in the range of its type. -/
theorem toNat_next {i : UInt8} (few : i.toNat < 255) : (i + 1).toNat = i.toNat + 1 := by
  rw [UInt8.toNat_add, show (1 : UInt8).toNat = 1 from rfl, Nat.mod_eq_of_lt (by omega)]

variable {k} {members : Members T} {p : Addr}

theorem destroyFrom_eq {n fuel : Nat} {i : UInt8} (stored : members.memory = some p)
    (all : members.pools.length = (poolsCount (2 ^ k)).toNat) (left : i.toNat + n = (poolsCount (2 ^ k)).toNat)
    (enough : n ≤ fuel) : destroyFrom k members fuel i = .ok () := by
  have few := poolsCount_toNat k
  induction n generalizing i fuel with
  | zero =>
    have done : ¬ i.toNat < (poolsCount (2 ^ k)).toNat := by omega
    unfold destroyFrom
    simp only [done, if_false]
  | succ n ih =>
    have more : i.toNat < (poolsCount (2 ^ k)).toNat := by omega
    obtain ⟨fuel, rfl⟩ : ∃ f, fuel = f + 1 := ⟨fuel - 1, by omega⟩
    have next := toNat_next (i := i) (by omega)
    unfold destroyFrom
    simp only [more, if_true, stored, nonNull_some, ok_bind, List.getElem?_eq_getElem (all ▸ more)]
    exact ih (by omega) (by omega)

/-- The destructor of a complete allocator ends each of its pools. -/
theorem destroy_eq {pools : List (Pool T)} (built : ObjectAllocator.init T (2 ^ k) = .ok pools) :
    destroy k (⟨some p, pools⟩ : Members T) = .ok () := by
  have few := poolsCount_toNat k
  rw [init_eq] at built
  obtain rfl := Except.ok.inj built
  exact destroyFrom_eq rfl (by simp [few]) (show (0 : UInt8).toNat + 14 = _ by rw [few]; rfl) (by omega)

end Destroy

/-- Where the functions that run at exit are. -/
inductive Release where
  | idle
  /-- `_instance` has been loaded. -/
  | deleting (instance_ : Ptr)
  /-- Before null is stored. -/
  | clearing
  deriving DecidableEq, Repr

/-- The functions at exit run one after another; how many of them have begun, and which allocators
they have deleted, is recorded. -/
structure Lifetime (T : Type) extends Singleton T where
  release : Release
  begun : Nat
  deleted : List Addr

inductive Motion (T : Type) where
  | instance_ (move : Move T)
  | release

namespace Lifetime

variable {T : Type}

def init : Lifetime T := { Singleton.init with release := .idle, begun := 0, deleted := [] }

/-- A call of `instance` has taken a step. -/
def adopt (s : Lifetime T) (next : Singleton T) : Lifetime T := { s with toSingleton := next }

section Steps

variable [DecidableEq T] (k : Nat)

/-- The next step of a function at exit; there are as many as were registered. -/
def advanceRelease (s : Lifetime T) : Except Fault (Lifetime T) :=
  match s.release with
  | .idle =>
    if s.begun < s.registered then .ok { s with begun := s.begun + 1, release := .deleting s.instance_ } else .ok s
  | .deleting none => .ok { s with release := .clearing }
  | .deleting (some object) => do
    let members ← deref s.objects (some object)
    let _ ← destroy k members
    .ok { s with objects := s.objects.erase object, deleted := object :: s.deleted, release := .clearing }
  | .clearing => .ok { s with instance_ := none, release := .idle }

def step (s : Lifetime T) : Motion T → Except Fault (Lifetime T)
  | .instance_ move => do
    let next ← s.toSingleton.step k move
    .ok (s.adopt next)
  | .release => s.advanceRelease k

end Steps

def Run [DecidableEq T] (k : Nat) : Lifetime T → Prop := Runs (· = init) (fun _ _ => True) (step k)

/-! ## What holds at every step -/

/-- The object that a thread in this place constructs, or is about to publish. -/
def makes : Site → Ptr
  | .reserving object | .building object _ | .storing object => some object
  | _ => none

/-- No allocator stands, and no function at exit is left to run. -/
def Blank (s : Lifetime T) : Prop :=
  s.instance_ = none ∧ s.release = .idle ∧ s.begun = s.registered ∧ s.begun = s.deleted.length

/-- What the place of a thread says about what is shared. -/
def Claim (k : Nat) (s : Lifetime T) : Site → Prop
  | .allocating => s.Blank ∧ s.constructed.Perm s.deleted
  | .reserving object => s.Blank ∧ s.constructed.Perm s.deleted ∧ s.objects.lookup object = some ⟨none, []⟩
  | .building object i => s.Blank ∧ s.constructed.Perm s.deleted ∧ i.toNat ≤ 14 ∧
    ∃ p, s.objects.lookup object = some ⟨p, List.replicate i.toNat Pool.init⟩ ∧ (0 < i.toNat → p ≠ none)
  | .storing object => s.Blank ∧ s.constructed.Perm (object :: s.deleted) ∧ s.Complete k object
  | .registering object => s.instance_ = some object ∧ s.release = .idle ∧ s.begun = s.registered
  | .unlocking tmp => tmp ≠ none ∧ (s.instance_ = tmp ∨ s.instance_ = none)
  | _ => True

/-- What is published, and what the functions at exit have done about it. -/
def Phase (k : Nat) (s : Lifetime T) : Ptr → Release → Prop
  | none, _ => s.Blank ∧ (s.constructed.Perm s.deleted ∨ ∃ t object, s.site t = .storing object)
  | some object, .idle => s.Complete k object ∧ s.constructed.Perm (object :: s.deleted) ∧
    s.begun = s.deleted.length ∧
      (s.begun + 1 = s.registered ∨ s.begun = s.registered ∧ ∃ t, s.site t = .registering object)
  | some object, .deleting p => p = some object ∧ s.Complete k object ∧
    s.constructed.Perm (object :: s.deleted) ∧ s.begun = s.deleted.length + 1 ∧ s.begun = s.registered
  | some object, .clearing => s.objects.lookup object = none ∧ s.constructed.Perm s.deleted ∧
    s.begun = s.deleted.length ∧ s.begun = s.registered

/-- The allocator at this address is published and not deleted, or about to be published. -/
def Stands (s : Lifetime T) (object : Addr) : Prop :=
  s.instance_ = some object ∧ s.release ≠ .clearing ∨ ∃ t, makes (s.site t) = some object

structure Sound (k : Nat) (s : Lifetime T) : Prop where
  held : ∀ t, (s.site t).Inside → s.smtx = some t
  claims : ∀ t, s.Claim k (s.site t)
  phase : ∀ p r, s.instance_ = p → s.release = r → s.Phase k p r
  stands : ∀ object members, s.objects.lookup object = some members → s.Stands object

theorem sound_init (k : Nat) : (init : Lifetime T).Sound k := by
  constructor
  · simp [init, Singleton.init, Site.Inside]
  · simp [init, Singleton.init, Claim]
  · rintro _ _ rfl rfl
    exact ⟨⟨rfl, rfl, rfl, rfl⟩, .inl (.refl _)⟩
  · simp [init, Singleton.init]

section Keep

variable {k : Nat} {s : Lifetime T} {t u : T} {site : Site}

/-- A thread that does not hold the lock says nothing. -/
theorem claim_outside (outside : ¬ site.Inside) : s.Claim k site := by
  cases site <;> simp_all [Site.Inside, Claim]

/-- The lock is held by one thread. -/
theorem Sound.alone (sound : s.Sound k) (here : (s.site t).Inside) (other : u ≠ t) : ¬ (s.site u).Inside :=
  fun inside => other (Option.some.inj ((sound.held u inside).symm.trans (sound.held t here)))

/-- What a thread inside is not at is nobody at. -/
theorem Sound.nowhere (sound : s.Sound k) (here : (s.site t).Inside) (inside : site.Inside) (away : s.site t ≠ site) :
    ∀ u, s.site u ≠ site := by
  intro u there
  by_cases same : u = t
  · exact away (same ▸ there)
  · exact sound.alone here same (there ▸ inside)

theorem inside_of_makes {object : Addr} (makes : makes site = some object) : site.Inside := by
  cases site <;> simp_all [Lifetime.makes, Site.Inside]

/-- The holder of the lock finds no allocator, and is not about to publish one. -/
theorem Sound.blank (sound : s.Sound k) (here : (s.site t).Inside) (null : s.instance_ = none)
    (notStoring : ∀ object, s.site t ≠ .storing object) : s.Blank ∧ s.constructed.Perm s.deleted := by
  obtain ⟨blank, all | ⟨u, object, storing⟩⟩ := sound.phase none s.release null rfl
  · exact ⟨blank, all⟩
  · have inside : (Site.storing object).Inside := trivial
    exact absurd storing (sound.nowhere here inside (notStoring object) u)

variable [DecidableEq T]

theorem makes_goto (s : Lifetime T) (next : Singleton T) (t : T) (site : Site) :
    makes ((s.adopt (next.goto t site)).site t) = makes site := congrArg makes (Function.update_self ..)

/-- A step that changes the lock only, or what was returned. -/
theorem Sound.relock (sound : s.Sound k) {lock : Option T} {returned : List (T × Ptr)}
    (nothing : makes (s.site t) = none) (notRegistering : ∀ object, s.site t ≠ .registering object)
    (own : s.Claim k site) (held : ∀ u, (Function.update s.site t site u).Inside → lock = some u) :
    (s.adopt ({ s.toSingleton with smtx := lock, returned }.goto t site)).Sound k := by
  have away : ∀ {there : Site}, s.site t ≠ there → (∃ u, s.site u = there) →
      ∃ u, Function.update s.site t site u = there := by
    rintro there notHere ⟨u, same⟩
    have other : u ≠ t := by
      rintro rfl
      exact notHere same
    exact ⟨u, (Function.update_of_ne other ..).trans same⟩
  have notStoring : ∀ object, s.site t ≠ .storing object := by
    intro object storing
    simp [storing, makes] at nothing
  have sites : (s.adopt ({ s.toSingleton with smtx := lock, returned }.goto t site)).site =
      Function.update s.site t site := rfl
  refine ⟨held, fun u => ?_, ?_, fun object members found => ?_⟩
  · rw [sites]
    by_cases same : u = t
    · subst same
      rw [Function.update_self]
      exact own
    · rw [Function.update_of_ne same]
      exact sound.claims u
  · intro p r published release
    have phase := sound.phase p r published release
    cases p with
    | none =>
      obtain ⟨blank, rest⟩ := phase
      refine ⟨blank, rest.imp_right ?_⟩
      rintro ⟨u, object, storing⟩
      obtain ⟨u, storing⟩ := away (notStoring object) ⟨u, storing⟩
      exact ⟨u, object, storing⟩
    | some object =>
      cases r with
      | idle =>
        obtain ⟨complete, all, each, rest⟩ := phase
        exact ⟨complete, all, each, rest.imp_right fun registering =>
          ⟨registering.1, away (notRegistering object) registering.2⟩⟩
      | deleting q => exact phase
      | clearing => exact phase
  · refine (sound.stands object members found).imp_right ?_
    rintro ⟨u, makes⟩
    have other : u ≠ t := by
      rintro rfl
      simp [nothing] at makes
    refine ⟨u, ?_⟩
    rw [sites, Function.update_of_ne other]
    exact makes

/-- A step of the thread that holds the lock, and keeps it. -/
theorem Sound.inside (sound : s.Sound k) (here : (s.site t).Inside) {next : Singleton T} (lock : next.smtx = s.smtx)
    (sites : next.site = s.site) (own : (s.adopt (next.goto t site)).Claim k site)
    (phase : ∀ p r, next.instance_ = p → s.release = r → (s.adopt (next.goto t site)).Phase k p r)
    (stands : ∀ object members, next.objects.lookup object = some members →
      (s.adopt (next.goto t site)).Stands object) : (s.adopt (next.goto t site)).Sound k := by
  have moved : (s.adopt (next.goto t site)).site = Function.update s.site t site := by rw [← sites]; rfl
  refine ⟨fun u inside => ?_, fun u => ?_, phase, stands⟩
  · rw [moved] at inside
    by_cases same : u = t
    · subst same
      exact lock.trans (sound.held u here)
    · rw [Function.update_of_ne same] at inside
      exact absurd inside (sound.alone here same)
  · rw [moved]
    by_cases same : u = t
    · subst same
      rw [Function.update_self]
      exact own
    · rw [Function.update_of_ne same]
      -- the others are outside, where nothing is claimed
      exact claim_outside (sound.alone here same)

/-- The same before anything is published. -/
theorem Sound.unpublished (sound : s.Sound k) (here : (s.site t).Inside) {next : Singleton T}
    (lock : next.smtx = s.smtx) (sites : next.site = s.site) (blank : s.Blank) (all : s.constructed.Perm s.deleted)
    (null : next.instance_ = none) (registered : next.registered = s.registered)
    (constructed : next.constructed = s.constructed) (own : (s.adopt (next.goto t site)).Claim k site)
    (only : ∀ object members, next.objects.lookup object = some members → makes site = some object) :
    (s.adopt (next.goto t site)).Sound k := by
  refine sound.inside here lock sites own (fun p r published release => ?_) fun object members found => ?_
  · obtain rfl := null.symm.trans published
    obtain ⟨_, idle, none, each⟩ := blank
    exact ⟨⟨null, idle, none.trans registered.symm, each⟩, .inl (constructed ▸ all)⟩
  · exact .inr ⟨t, (makes_goto ..).trans (only object members found)⟩

omit [DecidableEq T] in
/-- Before anything is published, only the thread that holds the lock has an object. -/
theorem Sound.only (sound : s.Sound k) (here : (s.site t).Inside) (null : s.instance_ = none) {object : Addr}
    {members : Members T} (found : s.objects.lookup object = some members) : makes (s.site t) = some object := by
  obtain ⟨published, _⟩ | ⟨u, making⟩ := sound.stands object members found
  · simp [null] at published
  · by_cases same : u = t
    · exact same ▸ making
    · exact absurd (inside_of_makes making) (sound.alone here same)

theorem Sound.build (sound : s.Sound k) {object : Addr} {i : UInt8} {throws : Bool} {next : Singleton T}
    (here : s.site t = .building object i) (run : s.toSingleton.build k t object i throws = .ok next) :
    (s.adopt next).Sound k := by
  have inside : (s.site t).Inside := by simp [here, Site.Inside]
  obtain ⟨blank, all, few, p, found, stored⟩ : s.Claim k (.building object i) := here ▸ sound.claims t
  have only : ∀ b members, s.objects.lookup b = some members → b = object := fun b members there => by
    simpa [here, makes, eq_comm] using sound.only inside blank.1 there
  simp only [Singleton.build, deref_of_lookup found, ok_bind, poolsCount_toNat] at run
  split at run
  next more =>
    obtain ⟨q, nonNull, run⟩ := bind_eq_ok run
    split at run
    next =>
      obtain rfl := Except.ok.inj run
      refine sound.unpublished inside rfl rfl blank all blank.1 rfl rfl trivial fun b members there => ?_
      by_cases same : b = object
      · subst same
        simp at there
      · exact absurd (only b members (by simpa [AList.lookup_erase_ne same] using there)) same
    next =>
      obtain rfl := Except.ok.inj run
      have next := toNat_next (i := i) (by omega)
      refine sound.unpublished inside rfl rfl blank all blank.1 rfl rfl ⟨blank, all, by omega, p, ?_, ?_⟩
        fun b members there => ?_
      · simp [adopt, Singleton.goto, next, List.replicate_succ']
      · intro _
        have := nonNull_eq_ok nonNull
        simp [this]
      · by_cases same : b = object
        · exact congrArg some same.symm
        · exact absurd (only b members (by simpa [AList.lookup_insert_ne same] using there)) same
  next done =>
    obtain rfl := Except.ok.inj run
    have last : i.toNat = 14 := by omega
    have complete : s.Complete k object := by
      obtain ⟨q, rfl⟩ := Option.ne_none_iff_exists'.mp (stored (by omega))
      exact ⟨q, _, found, by rw [init_eq, last]⟩
    refine sound.inside inside rfl rfl ⟨blank, all.cons object, complete⟩ (fun p r published _ => ?_)
      fun b members there => ?_
    · obtain rfl := blank.1.symm.trans published
      exact ⟨blank, .inr ⟨t, object, Function.update_self ..⟩⟩
    · obtain rfl := only b members there
      exact .inr ⟨t, makes_goto ..⟩

/-- A thread that is outside stays outside. -/
theorem Sound.outside (sound : s.Sound k) {returned : List (T × Ptr)} (here : ¬ (s.site t).Inside)
    (still : ¬ site.Inside) : (s.adopt ({ s.toSingleton with returned }.goto t site)).Sound k := by
  have nothing : makes (s.site t) = none := by
    by_contra making
    obtain ⟨object, making⟩ := Option.ne_none_iff_exists'.mp making
    exact here (inside_of_makes making)
  refine sound.relock nothing (fun object same => ?_) (claim_outside still) fun u inside => ?_
  · simp [same, Site.Inside] at here
  · by_cases same : u = t
    · subst same
      rw [Function.update_self] at inside
      exact absurd inside still
    · rw [Function.update_of_ne same] at inside
      exact sound.held u inside

theorem Sound.acquire (sound : s.Sound k) (here : s.site t = .locking) (free : s.smtx = none) :
    (s.adopt ({ s.toSingleton with smtx := some t }.goto t .checking)).Sound k := by
  have nobody : ∀ u, ¬ (s.site u).Inside := fun u inside => by simpa [free] using sound.held u inside
  refine sound.relock (by simp [here, makes]) (by simp [here]) trivial fun u inside => ?_
  by_cases same : u = t
  · rw [same]
  · rw [Function.update_of_ne same] at inside
    exact absurd inside (nobody u)

/-- The lock is given back. -/
theorem Sound.leave (sound : s.Sound k) {returned : List (T × Ptr)} (here : (s.site t).Inside)
    (nothing : makes (s.site t) = none) (notRegistering : ∀ object, s.site t ≠ .registering object) :
    (s.adopt ({ s.toSingleton with smtx := none, returned }.goto t .idle)).Sound k := by
  refine sound.relock nothing notRegistering trivial fun u inside => ?_
  by_cases same : u = t
  · subst same
    rw [Function.update_self] at inside
    exact inside.elim
  · rw [Function.update_of_ne same] at inside
    exact absurd inside (sound.alone here same)

/-- One case for each place. -/
theorem Sound.advance (sound : s.Sound k) {reply : Answer} {next : Singleton T}
    (run : s.toSingleton.advance k t reply = .ok next) : (s.adopt next).Sound k := by
  have claim := sound.claims t
  unfold Singleton.advance at run
  cases here : s.site t with
  | idle =>
    simp only [here] at run
    obtain rfl := Except.ok.inj run
    exact sound
  | loading =>
    simp only [here] at run
    have outside : ¬ (s.site t).Inside := by simp [here, Site.Inside]
    cases loaded : s.instance_ with
    | none =>
      simp only [loaded] at run
      obtain rfl := Except.ok.inj run
      exact sound.outside outside id
    | some object =>
      simp only [loaded] at run
      obtain rfl := Except.ok.inj run
      exact sound.outside outside id
  | locking =>
    simp only [here] at run
    cases free : s.smtx with
    | none =>
      simp only [free] at run
      obtain rfl := Except.ok.inj run
      exact sound.acquire here free
    | some u =>
      simp only [free] at run
      obtain rfl := Except.ok.inj run
      exact sound
  | checking =>
    simp only [here] at run
    have inside : (s.site t).Inside := by simp [here, Site.Inside]
    cases loaded : s.instance_ with
    | none =>
      simp only [loaded] at run
      obtain rfl := Except.ok.inj run
      obtain ⟨blank, all⟩ := sound.blank inside loaded (by simp [here])
      refine sound.unpublished inside rfl rfl blank all loaded rfl rfl ⟨blank, all⟩ fun object members found => ?_
      simpa [here, makes] using sound.only inside loaded found
    | some object =>
      simp only [loaded] at run
      obtain rfl := Except.ok.inj run
      refine sound.relock (by simp [here, makes]) (by simp [here]) ⟨by simp, .inl loaded⟩ fun u inside' => ?_
      by_cases same : u = t
      · exact same ▸ sound.held t inside
      · rw [Function.update_of_ne same] at inside'
        exact sound.held u inside'
  | allocating =>
    rw [here] at claim
    simp only [here] at run
    have inside : (s.site t).Inside := by simp [here, Site.Inside]
    obtain ⟨blank, all⟩ := claim
    have only : ∀ object members, s.objects.lookup object ≠ some members := fun object members found => by
      simpa [here, makes] using sound.only inside blank.1 found
    cases answered : reply.object with
    | none =>
      simp only [answered] at run
      obtain rfl := Except.ok.inj run
      exact sound.unpublished inside rfl rfl blank all blank.1 rfl rfl trivial fun object members found =>
        absurd found (only object members)
    | some object =>
      simp only [answered] at run
      obtain rfl := Except.ok.inj run
      refine sound.unpublished inside rfl rfl blank all blank.1 rfl rfl ⟨blank, all, AList.lookup_insert _⟩
        fun b members found => ?_
      by_cases same : b = object
      · exact congrArg some same.symm
      · exact absurd (by simpa [AList.lookup_insert_ne same] using found) (only b members)
  | reserving object =>
    rw [here] at claim
    have inside : (s.site t).Inside := by simp [here, Site.Inside]
    obtain ⟨blank, all, found⟩ := claim
    simp only [here, deref_of_lookup found, ok_bind] at run
    obtain rfl := Except.ok.inj run
    refine sound.unpublished inside rfl rfl blank all blank.1 rfl rfl
      ⟨blank, all, by decide, reply.memory, AList.lookup_insert _, fun positive => absurd positive (by decide)⟩
      fun b members there => ?_
    by_cases same : b = object
    · exact congrArg some same.symm
    · have old : s.objects.lookup b = some members := by simpa [AList.lookup_insert_ne same] using there
      simpa [here, makes] using sound.only inside blank.1 old
  | building object i =>
    simp only [here] at run
    exact sound.build here run
  | storing object =>
    rw [here] at claim
    simp only [here] at run
    obtain rfl := Except.ok.inj run
    have inside : (s.site t).Inside := by simp [here, Site.Inside]
    obtain ⟨⟨null, idle, none, each⟩, all, complete⟩ := claim
    refine sound.inside inside rfl rfl ⟨rfl, idle, none⟩ (fun p r published release => ?_)
      fun b members found => ?_
    · obtain rfl := published
      obtain rfl := idle.symm.trans release
      exact ⟨complete, all, each, .inr ⟨none, t, Function.update_self ..⟩⟩
    · obtain rfl : object = b := by simpa [here, makes] using sound.only inside null found
      exact .inl ⟨rfl, by simp [adopt, idle]⟩
  | registering object =>
    rw [here] at claim
    simp only [here] at run
    obtain rfl := Except.ok.inj run
    have inside : (s.site t).Inside := by simp [here, Site.Inside]
    obtain ⟨stored, idle, none⟩ := claim
    obtain ⟨complete, all, each, _⟩ := sound.phase (some object) .idle stored idle
    refine sound.inside inside rfl rfl ⟨by simp, .inl stored⟩ (fun p r published release => ?_)
      fun b members found => ?_
    · obtain rfl := stored.symm.trans published
      obtain rfl := idle.symm.trans release
      exact ⟨complete, all, each, .inl (congrArg (· + 1) none)⟩
    · refine (sound.stands b members found).imp_right ?_
      rintro ⟨u, making⟩
      by_cases same : u = t
      · simp [same, here, makes] at making
      · exact absurd (inside_of_makes making) (sound.alone inside same)
  | unlocking tmp =>
    rw [here] at claim
    simp only [here] at run
    obtain rfl := Except.ok.inj run
    exact sound.leave (by simp [here, Site.Inside]) (by simp [here, makes]) (by simp [here])
  | throwing =>
    simp only [here] at run
    obtain rfl := Except.ok.inj run
    exact sound.leave (by simp [here, Site.Inside]) (by simp [here, makes]) (by simp [here])

omit [DecidableEq T] in
/-- While an allocator is deleted, or is about to be, no thread constructs one. -/
theorem Sound.settled (sound : s.Sound k) (busy : ¬ (s.release = .idle ∧ s.begun = s.registered)) (u : T) :
    makes (s.site u) = none ∧ ∀ s' : Lifetime T, s'.instance_ = s.instance_ ∨ s'.instance_ = none →
      s'.Claim k (s.site u) := by
  have claim := sound.claims u
  cases there : s.site u with
  | allocating | reserving object | building object i | storing object =>
    rw [there] at claim
    obtain ⟨⟨_, idle, none, _⟩, _⟩ := claim
    exact absurd ⟨idle, none⟩ busy
  | registering object =>
    rw [there] at claim
    exact absurd claim.2 busy
  | unlocking tmp =>
    rw [there] at claim
    obtain ⟨returned, published⟩ := claim
    refine ⟨rfl, fun s' kept => ⟨returned, ?_⟩⟩
    rcases kept with same | null
    · rwa [same]
    · exact .inr null
  | idle | loading | locking | checking | throwing => exact ⟨rfl, fun _ _ => trivial⟩

omit [DecidableEq T] in
/-- A function at exit goes on, and what it deletes is there and complete. -/
theorem Sound.advanceRelease (sound : s.Sound k) : ∃ s', s.advanceRelease k = .ok s' ∧ s'.Sound k := by
  have phase := fun p r => sound.phase p r
  unfold Lifetime.advanceRelease
  cases release : s.release with
  | idle =>
    by_cases left : s.begun < s.registered
    · simp only [left, if_true]
      have busy : ¬ (s.release = .idle ∧ s.begun = s.registered) := fun both => absurd both.2 (by omega)
      have settled := sound.settled busy
      refine ⟨_, rfl, sound.held, fun u => (settled u).2 _ (.inl rfl), fun p r published release' => ?_,
        fun object members found => ?_⟩
      · have before := sound.phase p .idle published release
        cases p with
        | none =>
          obtain ⟨⟨_, _, none, _⟩, _⟩ := before
          omega
        | some object =>
          obtain ⟨complete, all, each, rest⟩ := before
          obtain rfl : .deleting (some object) = r := published ▸ release'
          exact ⟨rfl, complete, all, congrArg (· + 1) each, rest.resolve_right fun registering => by omega⟩
      · obtain ⟨published, _⟩ | ⟨u, making⟩ := sound.stands object members found
        · exact .inl ⟨published, by simp⟩
        · simp [(settled u).1] at making
    · simp only [left, if_false]
      exact ⟨s, rfl, sound⟩
  | deleting p =>
    have busy : ¬ (s.release = .idle ∧ s.begun = s.registered) := fun both => by simp [release] at both
    have settled := sound.settled busy
    cases published : s.instance_ with
    | none =>
      obtain ⟨⟨_, idle, _⟩, _⟩ := sound.phase none _ published release
      cases idle.symm.trans release
    | some object =>
      obtain ⟨rfl, ⟨q, pools, found, built⟩, all, each, none⟩ := sound.phase (some object) _ published release
      simp only [deref_of_lookup found, destroy_eq built, ok_bind]
      refine ⟨_, rfl, sound.held, fun u => (settled u).2 _ (.inl published.symm), fun p r published' release' => ?_,
        fun b members there => ?_⟩
      · obtain rfl : some object = p := published'
        obtain rfl : Release.clearing = r := release'
        exact ⟨AList.lookup_erase .., all, each, none⟩
      · by_cases same : b = object
        · subst same
          simp at there
        · have there : s.objects.lookup b = some members := by simpa [AList.lookup_erase_ne same] using there
          obtain ⟨published', _⟩ | ⟨u, making⟩ := sound.stands b members there
          · exact absurd (Option.some.inj (published'.symm.trans published)) same
          · simp [(settled u).1] at making
  | clearing =>
    have busy : ¬ (s.release = .idle ∧ s.begun = s.registered) := fun both => by simp [release] at both
    have settled := sound.settled busy
    cases published : s.instance_ with
    | none =>
      obtain ⟨⟨_, idle, _⟩, _⟩ := sound.phase none _ published release
      cases idle.symm.trans release
    | some object =>
      obtain ⟨gone, all, each, none⟩ := sound.phase (some object) _ published release
      refine ⟨_, rfl, sound.held, fun u => (settled u).2 _ (.inr rfl), fun p r published' release' => ?_,
        fun b members there => ?_⟩
      · obtain rfl : Option.none = p := published'
        exact ⟨⟨rfl, rfl, none, each⟩, .inl all⟩
      · obtain ⟨_, standing⟩ | ⟨u, making⟩ := sound.stands b members there
        · exact absurd release standing
        · simp [(settled u).1] at making

theorem Sound.step (sound : s.Sound k) {motion : Motion T} {s' : Lifetime T} (run : s.step k motion = .ok s') :
    s'.Sound k := by
  cases motion with
  | release =>
    obtain ⟨s₁, same, sound'⟩ := sound.advanceRelease
    obtain rfl := Except.ok.inj (same.symm.trans run)
    exact sound'
  | instance_ move =>
    obtain ⟨next, stepped, rest⟩ := bind_eq_ok run
    obtain rfl := Except.ok.inj rest
    cases move with
    | advance t reply => exact sound.advance stepped
    | call t =>
      simp only [Singleton.step] at stepped
      split at stepped
      next here =>
        obtain rfl := Except.ok.inj stepped
        exact sound.outside (by simp [here, Site.Inside]) id
      next =>
        obtain rfl := Except.ok.inj stepped
        exact sound

/-! ## What has been deleted, and what calls return -/

omit [DecidableEq T] in
/-- There are no two allocators at a time. -/
theorem Sound.single (sound : s.Sound k) {a b : Addr} (first : s.Stands a) (second : s.Stands b) : a = b := by
  have blank : ∀ u object, makes (s.site u) = some object → s.instance_ = none := by
    intro u object making
    have claim := sound.claims u
    cases there : s.site u with
    | reserving _ | building _ _ | storing _ =>
      rw [there] at claim
      exact claim.1.1
    | _ => simp [there, makes] at making
  rcases first with ⟨published, _⟩ | ⟨u, making⟩
  · rcases second with ⟨published', _⟩ | ⟨v, making'⟩
    · exact Option.some.inj (published.symm.trans published')
    · cases (blank v b making').symm.trans published
  · rcases second with ⟨published', _⟩ | ⟨v, making'⟩
    · cases (blank u a making).symm.trans published'
    · by_cases same : v = u
      · subst same
        exact Option.some.inj (making.symm.trans making')
      · exact absurd (inside_of_makes making') (sound.alone (inside_of_makes making) same)

omit [DecidableEq T] in
/-- After the last function at exit, and with no call in progress, nothing is left. -/
theorem Sound.finished (sound : s.Sound k) (still : ∀ t, s.site t = .idle) (idle : s.release = .idle)
    (ran : s.begun = s.registered) : s.constructed.Perm s.deleted ∧ ∀ object, s.objects.lookup object = none := by
  have null : s.instance_ = none := by
    cases published : s.instance_ with
    | none => rfl
    | some object =>
      obtain ⟨_, _, _, left | ⟨_, u, registering⟩⟩ := sound.phase (some object) .idle published idle
      · omega
      · simp [still u] at registering
  obtain ⟨_, all | ⟨u, object, storing⟩⟩ := sound.phase none .idle null idle
  · refine ⟨all, fun object => ?_⟩
    by_contra there
    obtain ⟨members, found⟩ := Option.ne_none_iff_exists'.mp there
    rcases sound.stands object members found with ⟨published, _⟩ | ⟨u, making⟩
    · cases null.symm.trans published
    · simp [still u, makes] at making
  · simp [still u] at storing

end Keep

end Lifetime

end ObjectAllocator

end SmallObject
