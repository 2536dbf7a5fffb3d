import Mathlib.Data.Fintype.Basic
import SmallObject.Library.Execution
import SmallObject.Library.Sharing
import SmallObject.ObjectAllocator

/-! `object`: the references to an object are counted, and the last one deletes it.

The functions that `boost::intrusive_ptr` calls are taken step by step, by any number of
threads, with sequentially consistent memory. A reference is changed by one thread at a
time. What a destructor does with references of its own is left to another thread here.
-/

set_option autoImplicit false

namespace SmallObject

open Linked Execution Sharing

structure Object (W : Nat) where
  refCount : SizeT W
  /-- The size of its class. -/
  size : SizeT W
  deriving DecidableEq, Repr

namespace Object

/-- Where a thread is in the code of a reference. -/
inductive Site (R : Type) where
  | idle
  /-- In a constructor, before `intrusive_ptr_add_ref`. The first reference to an object has
  no source. -/
  | adding (source : Option R) (target : R) (obj : Addr)
  /-- In the destructor, before `intrusive_ptr_release`. -/
  | releasing (r : R) (obj : Addr)
  /-- `fetch_sub` has returned one. -/
  | fencing (obj : Addr)
  /-- Before `delete obj`. -/
  | deleting (obj : Addr)
  deriving DecidableEq, Repr

namespace Site

variable {R : Type}

/-- The thread is at work with the reference. -/
def Uses (r : R) : Site R → Prop
  | adding source target _ => source = some r ∨ target = r
  | releasing r' _ => r' = r
  | _ => False

/-- The thread is about to change the reference. -/
def Alters (r : R) : Site R → Prop
  | adding _ target _ => target = r
  | releasing r' _ => r' = r
  | _ => False

/-- The object that no reference leads to while the thread is here. -/
def keeps : Site R → Ptr
  | adding none _ obj | fencing obj | deleting obj => some obj
  | _ => none

theorem uses_of_alters {x : Site R} {r : R} (alters : x.Alters r) : x.Uses r := by
  cases x with
  | adding => exact .inr alters
  | releasing => exact alters
  | _ => exact alters.elim

end Site

/-- Memory that was taken from an allocator, or given back to it: a pool, or the global one. -/
inductive Transfer (W : Nat) where
  | taken (obj : Addr) (pool : Option (SizeT W))
  | returned (obj : Addr) (pool : Option (SizeT W))
  deriving DecidableEq, Repr

/-- The objects that exist, and the references that are not null. -/
structure References (W : Nat) (R T : Type) where
  objects : Heap (Object W)
  refs : Holders R Addr
  site : T → Site R
  log : List (Transfer W)

inductive Move (W : Nat) (R T : Type) where
  /-- A reference is constructed from a `new` expression. -/
  | make (t : T) (r : R) (obj : Addr) (size : SizeT W)
  | copy (t : T) (source target : R)
  /-- The move constructor. -/
  | pass (t : T) (source target : R)
  | drop (t : T) (r : R)
  | advance (t : T)

section Functions

variable {W : Nat}

def intrusivePtrAddRef (objects : Heap (Object W)) (obj : Addr) : Except Fault (Heap (Object W)) := do
  let o ← deref objects (some obj)
  .ok (objects.insert obj { o with refCount := o.refCount + 1 })

/-- The test in `intrusive_ptr_release`. -/
def fetchSub (objects : Heap (Object W)) (obj : Addr) : Except Fault (Bool × Heap (Object W)) := do
  let o ← deref objects (some obj)
  .ok (o.refCount == 1, objects.insert obj { o with refCount := o.refCount - 1 })

/-- `delete obj`: the destructor is virtual, so the size is that of the class. -/
def delete (objects : Heap (Object W)) (obj : Addr) : Except Fault (Option (SizeT W) × Heap (Object W)) := do
  let o ← deref objects (some obj)
  .ok (operatorDelete o.size, objects.erase obj)

end Functions

namespace References

variable {W : Nat} {R T : Type}

def init : References W R T := { objects := ∅, refs := ∅, site := fun _ => .idle, log := [] }

section Steps

variable [DecidableEq R] [DecidableEq T]

def goto (s : References W R T) (t : T) (site : Site R) : References W R T :=
  { s with site := Function.update s.site t site }

def advance (s : References W R T) (t : T) : Except Fault (References W R T) :=
  match s.site t with
  | .idle => .ok s
  | .adding _ target obj => do
    let objects ← intrusivePtrAddRef s.objects obj
    .ok ({ s with objects, refs := s.refs.insert target obj }.goto t .idle)
  | .releasing r obj => do
    let (last, objects) ← fetchSub s.objects obj
    .ok ({ s with objects, refs := s.refs.erase r }.goto t (if last then .fencing obj else .idle))
  | .fencing obj => .ok (s.goto t (.deleting obj))
  | .deleting obj => do
    let (pool, objects) ← delete s.objects obj
    .ok ({ s with objects, log := .returned obj pool :: s.log }.goto t .idle)

/-- A thread begins something only when it is idle. Nothing is done about a null reference. -/
def step (s : References W R T) : Move W R T → Except Fault (References W R T)
  | .make t r obj size =>
    match s.site t with
    | .idle =>
      .ok ({ s with
        objects := s.objects.insert obj ⟨0, size⟩
        log := .taken obj (operatorNew size) :: s.log }.goto t (.adding none r obj))
    | _ => .ok s
  | .copy t source target =>
    match s.site t, s.refs.lookup source with
    | .idle, some obj => .ok (s.goto t (.adding (some source) target obj))
    | _, _ => .ok s
  | .pass t source target =>
    match s.site t, s.refs.lookup source with
    | .idle, some obj => .ok { s with refs := (s.refs.erase source).insert target obj }
    | _, _ => .ok s
  | .drop t r =>
    match s.site t, s.refs.lookup r with
    | .idle, some obj => .ok (s.goto t (.releasing r obj))
    | _, _ => .ok s
  | .advance t => s.advance t

/-- No thread is at work with the reference. -/
def Unused (s : References W R T) (r : R) : Prop := ∀ t, ¬ (s.site t).Uses r

/-- A reference is not changed while another thread is at work with it, and `operator new` returns
the address of no object that exists. There are fewer references than values of the counter, since
each of them takes a word of memory. -/
def Admissible (s : References W R T) : Move W R T → Prop
  | .make _ r obj _ => s.refs.lookup r = none ∧ s.Unused r ∧ s.objects.lookup obj = none
  | .copy _ source target => (∀ t, ¬ (s.site t).Alters source) ∧ s.refs.lookup target = none ∧ s.Unused target
  | .pass _ source target => s.Unused source ∧ s.refs.lookup target = none ∧ s.Unused target
  | .drop _ r => s.Unused r
  | .advance _ => s.refs.keys.length + 1 < 2 ^ (8 * W)

def Run : References W R T → Prop := Runs (· = init) Admissible step

end Steps

/-! ## What holds at every step -/

/-- What the place of a thread says of the references that it is at work with. -/
def Claim (s : References W R T) [DecidableEq R] : Site R → Prop
  | .adding source target obj => s.refs.lookup target = none ∧ ∀ r, source = some r → s.refs.lookup r = some obj
  | .releasing r obj => s.refs.lookup r = some obj
  | _ => True

/-- The counts of the objects that exist. -/
def counts (objects : Heap (Object W)) (a : Addr) : Option Nat :=
  (objects.lookup a).map fun o => o.refCount.toNat

def ledger (s : References W R T) : Ledger R T Addr :=
  { held := s.refs, kept := fun t => (s.site t).keeps, count := counts s.objects }

/-- The object exists, and its memory is that of a pool, or of the global allocator. -/
def Placed (objects : Heap (Object W)) (obj : Addr) (pool : Option (SizeT W)) : Bool :=
  (objects.lookup obj).any fun o => operatorNew o.size = pool

structure Sound [DecidableEq R] (s : References W R T) : Prop where
  counted : Counted s.ledger
  claims : ∀ t, s.Claim (s.site t)
  apart : ∀ t u r, (s.site t).Alters r → (s.site u).Uses r → t = u
  balanced : ∀ obj pool, s.log.count (.taken obj pool) =
    s.log.count (.returned obj pool) + if Placed s.objects obj pool then 1 else 0

section Keep

variable [DecidableEq R] [DecidableEq T] {s s' : References W R T} {t : T} {x : Site R} {obj : Addr}

omit [DecidableEq T] in
theorem sound_init : (init : References W R T).Sound := by
  refine ⟨Counted.empty, fun t => trivial, fun t u r alters => alters.elim, fun obj pool => ?_⟩
  simp [init, Placed]

omit [DecidableEq T] in
/-- A claim is about the references that are used. -/
theorem Claim.congr (claim : s.Claim x) (same : ∀ r, x.Uses r → s'.refs.lookup r = s.refs.lookup r) : s'.Claim x := by
  cases x with
  | adding source target obj =>
    obtain ⟨vacant, copied⟩ := claim
    refine ⟨(same target (.inr rfl)).trans vacant, fun r from_ => ?_⟩
    exact (same r (.inl from_)).trans (copied r from_)
  | releasing r obj => exact (same r rfl).trans claim
  | _ => trivial

/-- A step of one thread. It changes references that no other thread uses, and goes to a place
whose references no other thread changes. -/
theorem Sound.moves (sound : s.Sound) (sites : s'.site = Function.update s.site t x)
    (step : Step s.ledger s'.ledger)
    (frame : ∀ u, u ≠ t → ∀ r, (s.site u).Uses r → s'.refs.lookup r = s.refs.lookup r) (claim : s'.Claim x)
    (alters : ∀ u, u ≠ t → ∀ r, x.Alters r → ¬ (s.site u).Uses r)
    (uses : ∀ u, u ≠ t → ∀ r, x.Uses r → ¬ (s.site u).Alters r)
    (balanced : ∀ obj pool, s'.log.count (.taken obj pool) =
      s'.log.count (.returned obj pool) + if Placed s'.objects obj pool then 1 else 0) : s'.Sound := by
  refine ⟨step.counted sound.counted, fun u => ?_, fun u v r alter use => ?_, balanced⟩
  · rw [sites]
    rcases eq_or_ne u t with rfl | other
    · rwa [Function.update_self]
    · rw [Function.update_of_ne other]
      exact (sound.claims u).congr (frame u other)
  · rw [sites] at alter use
    rcases eq_or_ne u t with rfl | other
    · rw [Function.update_self] at alter
      by_contra different
      rw [Function.update_of_ne (Ne.symm different)] at use
      exact alters v (Ne.symm different) r alter use
    · rw [Function.update_of_ne other] at alter
      rcases eq_or_ne v t with rfl | other'
      · rw [Function.update_self] at use
        exact absurd alter (uses u other r use)
      · rw [Function.update_of_ne other'] at use
        exact sound.apart u v r alter use

omit [DecidableEq R] [DecidableEq T] in
theorem counts_insert (objects : Heap (Object W)) (obj : Addr) (o : Object W) :
    counts (objects.insert obj o) = Function.update (counts objects) obj (some o.refCount.toNat) := by
  funext a
  by_cases same : a = obj
  · subst same
    simp [counts]
  · simp [counts, same, AList.lookup_insert_ne same]

omit [DecidableEq R] [DecidableEq T] in
theorem counts_erase (objects : Heap (Object W)) (obj : Addr) :
    counts (objects.erase obj) = Function.update (counts objects) obj none := by
  funext a
  by_cases same : a = obj
  · subst same
    simp [counts]
  · simp [counts, same, AList.lookup_erase_ne same]

omit [DecidableEq R] in
theorem ledger_goto (s : References W R T) (t : T) (x : Site R) :
    (s.goto t x).ledger = { s.ledger with kept := Function.update s.ledger.kept t x.keeps } := by
  simp only [ledger, goto, Ledger.mk.injEq, true_and, and_true]
  funext u
  by_cases same : u = t
  · simp [same]
  · simp [same]

omit [DecidableEq R] [DecidableEq T] in
/-- An object that is counted exists. -/
theorem exists_of_count {n : Nat} (count : s.ledger.count obj = some n) :
    ∃ o, s.objects.lookup obj = some o ∧ o.refCount.toNat = n :=
  Option.map_eq_some_iff.mp count

omit [DecidableEq R] [DecidableEq T] in
/-- A change of the count leaves the object where it is. -/
theorem placed_insert {objects : Heap (Object W)} {o : Object W} (found : objects.lookup obj = some o)
    (count : SizeT W) (a : Addr) (pool : Option (SizeT W)) :
    Placed (objects.insert obj { o with refCount := count }) a pool = Placed objects a pool := by
  by_cases same : a = obj
  · subst same
    simp [Placed, found]
  · simp [Placed, AList.lookup_insert_ne same]

omit [DecidableEq R] [DecidableEq T] in
theorem placed_insert_ne {objects : Heap (Object W)} {a : Addr} (different : a ≠ obj) (o : Object W)
    (pool : Option (SizeT W)) : Placed (objects.insert obj o) a pool = Placed objects a pool := by
  simp [Placed, AList.lookup_insert_ne different]

theorem Sound.make (sound : s.Sound) {r : R} (size : SizeT W) (idle : s.site t = .idle)
    (vacant : s.refs.lookup r = none) (unused : s.Unused r) (new : s.objects.lookup obj = none) :
    ({ s with
      objects := s.objects.insert obj ⟨0, size⟩
      log := .taken obj (operatorNew size) :: s.log }.goto t (.adding none r obj)).Sound := by
  have empty : s.ledger.kept t = none := by simp [ledger, idle, Site.keeps]
  have absent : s.ledger.count obj = none := by simp [ledger, counts, new]
  refine sound.moves rfl ?_ (fun _ _ _ _ => rfl) ⟨vacant, nofun⟩ ?_ ?_ fun a pool => ?_
  · rw [ledger_goto]
    simpa [ledger, counts_insert, Site.keeps] using Step.create empty absent
  · rintro u _ _ rfl
    exact unused u
  · rintro u _ _ (from_ | rfl) alters
    · simp at from_
    · exact unused u (Site.uses_of_alters alters)
  · have before := sound.balanced a pool
    by_cases same : a = obj
    · subst same
      simp [Placed, new] at before
      by_cases pools : operatorNew size = pool
      · simp [goto, Placed, pools, before]
      · simp [goto, Placed, pools, before]
    · simpa [goto, placed_insert_ne same, Ne.symm same] using before

theorem Sound.copy (sound : s.Sound) {source target : R} (idle : s.site t = .idle)
    (found : s.refs.lookup source = some obj) (still : ∀ u, ¬ (s.site u).Alters source)
    (vacant : s.refs.lookup target = none) (unused : s.Unused target) :
    (s.goto t (.adding (some source) target obj)).Sound := by
  have empty : s.ledger.kept t = none := by simp [ledger, idle, Site.keeps]
  refine sound.moves rfl ?_ (fun _ _ _ _ => rfl) ⟨vacant, ?_⟩ ?_ ?_ sound.balanced
  · have nothing : s.ledger.kept t = (.adding (some source) target obj : Site R).keeps := empty
    rw [ledger_goto, ← nothing, Function.update_eq_self]
    exact .stay
  · rintro r ⟨⟩
    exact found
  · rintro u _ _ rfl
    exact unused u
  · rintro u _ _ (⟨⟨⟩⟩ | rfl) alters
    · exact still u alters
    · exact unused u (Site.uses_of_alters alters)

theorem Sound.pass (sound : s.Sound) {source target : R} (idle : s.site t = .idle)
    (found : s.refs.lookup source = some obj) (free : s.Unused source) (vacant : s.refs.lookup target = none)
    (unused : s.Unused target) : ({ s with refs := (s.refs.erase source).insert target obj }).Sound := by
  refine sound.moves (t := t) (x := .idle) ?_ (.pass found vacant) (fun u _ r uses => ?_) trivial
    (fun _ _ _ alters => alters.elim) (fun _ _ _ uses => uses.elim) sound.balanced
  · rw [← idle, Function.update_eq_self]
  · have other : r ≠ target := by
      rintro rfl
      exact unused u uses
    have other' : r ≠ source := by
      rintro rfl
      exact free u uses
    rw [AList.lookup_insert_ne other, AList.lookup_erase_ne other']

theorem Sound.drop (sound : s.Sound) {r : R} (idle : s.site t = .idle) (found : s.refs.lookup r = some obj)
    (unused : s.Unused r) : (s.goto t (.releasing r obj)).Sound := by
  have empty : s.ledger.kept t = none := by simp [ledger, idle, Site.keeps]
  refine sound.moves rfl ?_ (fun _ _ _ _ => rfl) found ?_ ?_ sound.balanced
  · have nothing : s.ledger.kept t = (.releasing r obj : Site R).keeps := empty
    rw [ledger_goto, ← nothing, Function.update_eq_self]
    exact .stay
  · rintro u _ _ rfl
    exact unused u
  · rintro u _ _ rfl alters
    exact unused u (Site.uses_of_alters alters)

omit [DecidableEq R] [DecidableEq T] in
theorem one_toNat (room : 1 < 2 ^ (8 * W)) : (1 : SizeT W).toNat = 1 := by
  rw [show (1 : SizeT W) = BitVec.ofNat _ 1 from rfl, BitVec.toNat_ofNat, Nat.mod_eq_of_lt room]

/-- `fetch_add` is made while the object is new or the source still leads to it. -/
theorem Sound.add (sound : s.Sound) {source : Option R} {target : R} (here : s.site t = .adding source target obj)
    (room : s.refs.keys.length + 1 < 2 ^ (8 * W)) :
    ∃ objects, intrusivePtrAddRef s.objects obj = .ok objects ∧
      ({ s with objects, refs := s.refs.insert target obj }.goto t .idle).Sound := by
  obtain ⟨vacant, copied⟩ : s.Claim (.adding source target obj) := here ▸ sound.claims t
  have few : tally s.refs obj + 1 < 2 ^ (8 * W) := by
    have := tally_le s.refs obj
    omega
  have exact := sound.counted.exact obj
  obtain ⟨o, found, count⟩ : ∃ o, s.objects.lookup obj = some o ∧ o.refCount.toNat = tally s.refs obj := by
    cases source with
    | none =>
      have kept := (sound.counted.vacant obj).mpr ⟨t, by simp [ledger, here, Site.keeps]⟩
      obtain ⟨o, found, zero⟩ := exists_of_count kept
      rw [kept] at exact
      exact ⟨o, found, zero.trans exact.symm⟩
    | some r =>
      obtain ⟨n, count⟩ := sound.counted.alive (tally_pos (copied r rfl)).ne'
      obtain ⟨o, found, more⟩ := exists_of_count count
      rw [count] at exact
      exact ⟨o, found, more.trans exact.symm⟩
  have next : (o.refCount + 1).toNat = tally s.refs obj + 1 := by
    rw [BitVec.toNat_add, one_toNat (by omega), count, Nat.mod_eq_of_lt few]
  have counted : s.ledger.count obj = some (tally s.refs obj) := by simp [ledger, counts, found, count]
  refine ⟨_, by rw [intrusivePtrAddRef, deref_of_lookup found]; rfl, ?_⟩
  refine sound.moves rfl ?_ (fun u other r uses => ?_) trivial (fun _ _ _ alters => alters.elim)
    (fun _ _ _ uses => uses.elim) fun a pool => ?_
  · rw [ledger_goto]
    simp only [ledger, counts_insert, next]
    cases source with
    | none =>
      have kept : s.ledger.kept t = some obj := by simp [ledger, here, Site.keeps]
      have zero := (sound.counted.vacant obj).mpr ⟨t, kept⟩
      have none : tally s.refs obj = 0 := Option.some.inj (counted.symm.trans zero)
      rw [none]
      exact .share kept vacant
    | some r =>
      have nothing : s.ledger.kept t = (Site.idle : Site R).keeps := by simp [ledger, here, Site.keeps]
      have same : Function.update s.ledger.kept t (Site.idle : Site R).keeps = s.ledger.kept := by
        rw [← nothing, Function.update_eq_self]
      simp only [ledger] at same
      rw [same]
      exact .copy (copied r rfl) vacant counted
  · have other' : r ≠ target := by
      rintro rfl
      have alters : (s.site t).Alters r := by simp [here, Site.Alters]
      exact other (sound.apart t u r alters uses).symm
    exact AList.lookup_insert_ne other'
  · simpa [goto, placed_insert found] using sound.balanced a pool

/-- `fetch_sub` is made while the reference still leads to the object. -/
theorem Sound.release (sound : s.Sound) {r : R} (here : s.site t = .releasing r obj) :
    ∃ last objects, fetchSub s.objects obj = .ok (last, objects) ∧
      ({ s with objects, refs := s.refs.erase r }.goto t (if last then .fencing obj else .idle)).Sound := by
  have holds : s.refs.lookup r = some obj := by
    have claim := sound.claims t
    rwa [here] at claim
  have empty : s.ledger.kept t = none := by simp [ledger, here, Site.keeps]
  obtain ⟨n, counted⟩ := sound.counted.alive (tally_pos holds).ne'
  obtain ⟨o, found, count⟩ := exists_of_count counted
  have one : (1 : SizeT W).toNat = 1 := by
    have := o.refCount.isLt
    exact one_toNat (by omega)
  have next : (o.refCount - 1).toNat = n := by
    rw [BitVec.toNat_sub_of_le, count, one]
    · omega
    · rw [BitVec.le_def, count, one]
      omega
  have last : (o.refCount == 1) = decide (n = 0) := by
    rw [Bool.eq_iff_iff, beq_iff_eq, decide_eq_true_eq, ← BitVec.toNat_inj, count, one]
    omega
  refine ⟨_, _, by rw [fetchSub, deref_of_lookup found]; rfl, ?_⟩
  rw [last]
  refine sound.moves rfl ?_ (fun u other r' uses => ?_) ?_ ?_ ?_ fun a pool => ?_
  · rw [ledger_goto]
    simp only [ledger, counts_insert, next]
    cases n with
    | zero => exact .last holds empty counted
    | succ n =>
      have same : Function.update s.ledger.kept t (Site.idle : Site R).keeps = s.ledger.kept := by
        rw [show (Site.idle : Site R).keeps = s.ledger.kept t from empty.symm, Function.update_eq_self]
      simp only [ledger] at same
      simp only [Nat.add_one_ne_zero, decide_false, Bool.false_eq_true, if_false, same]
      exact .drop holds counted
  · have other' : r' ≠ r := by
      rintro rfl
      have alters : (s.site t).Alters r' := by simp [here, Site.Alters]
      exact other (sound.apart t u r' alters uses).symm
    exact AList.lookup_erase_ne other'
  · split <;> trivial
  · intro _ _ _ alters
    split at alters <;> exact alters.elim
  · intro _ _ _ uses
    split at uses <;> exact uses.elim
  · simpa [goto, placed_insert found] using sound.balanced a pool

/-- Who deletes the object has it alone. -/
theorem Sound.delete (sound : s.Sound) (here : s.site t = .deleting obj) :
    ∃ pool objects, Object.delete s.objects obj = .ok (pool, objects) ∧
      ({ s with objects, log := .returned obj pool :: s.log }.goto t .idle).Sound := by
  have keep : s.ledger.kept t = some obj := by simp [ledger, here, Site.keeps]
  obtain ⟨o, found, _⟩ := exists_of_count ((sound.counted.vacant obj).mpr ⟨t, keep⟩)
  refine ⟨_, _, by rw [Object.delete, deref_of_lookup found]; rfl, ?_⟩
  refine sound.moves rfl ?_ (fun _ _ _ _ => rfl) trivial (fun _ _ _ alters => alters.elim)
    (fun _ _ _ uses => uses.elim) fun a pool => ?_
  · rw [ledger_goto]
    simp only [ledger, counts_erase]
    exact .destroy keep
  · have before := sound.balanced a pool
    by_cases same : a = obj
    · subst same
      simp only [Placed, found, Option.any_some, decide_eq_true_eq] at before
      rw [← ObjectAllocator.operatorDelete_eq] at before
      by_cases pools : operatorDelete o.size = pool
      · simpa [goto, Placed, pools] using before
      · simpa [goto, Placed, pools] using before
    · have placed : Placed (s.objects.erase obj) a pool = Placed s.objects a pool := by
        simp [Placed, AList.lookup_erase_ne same]
      simpa [goto, placed, Ne.symm same] using before

theorem Sound.advance (sound : s.Sound) (room : s.refs.keys.length + 1 < 2 ^ (8 * W)) (t : T) :
    ∃ s', s.advance t = .ok s' ∧ s'.Sound := by
  unfold References.advance
  cases here : s.site t with
  | idle => exact ⟨s, rfl, sound⟩
  | adding source target obj =>
    obtain ⟨objects, run, sound'⟩ := sound.add here room
    exact ⟨_, by simp only [run, ok_bind], sound'⟩
  | releasing r obj =>
    obtain ⟨last, objects, run, sound'⟩ := sound.release here
    exact ⟨_, by simp only [run, ok_bind], sound'⟩
  | fencing obj =>
    refine ⟨_, rfl, sound.moves rfl ?_ (fun _ _ _ _ => rfl) trivial (fun _ _ _ alters => alters.elim)
      (fun _ _ _ uses => uses.elim) sound.balanced⟩
    have keep : s.ledger.kept t = (Site.deleting obj : Site R).keeps := by simp [ledger, here, Site.keeps]
    rw [ledger_goto, ← keep, Function.update_eq_self]
    exact .stay
  | deleting obj =>
    obtain ⟨pool, objects, run, sound'⟩ := sound.delete here
    exact ⟨_, by simp only [run, ok_bind], sound'⟩

theorem Sound.step (sound : s.Sound) {move : Move W R T} (admissible : s.Admissible move) :
    ∃ s', s.step move = .ok s' ∧ s'.Sound := by
  cases move with
  | make t r obj size =>
    cases here : s.site t with
    | idle =>
      exact ⟨_, by simp only [References.step, here],
        sound.make size here admissible.1 admissible.2.1 admissible.2.2⟩
    | _ => exact ⟨s, by simp only [References.step, here], sound⟩
  | copy t source target =>
    cases here : s.site t with
    | idle =>
      cases found : s.refs.lookup source with
      | none => exact ⟨s, by simp only [References.step, here, found], sound⟩
      | some obj =>
        exact ⟨_, by simp only [References.step, here, found],
          sound.copy here found admissible.1 admissible.2.1 admissible.2.2⟩
    | _ => exact ⟨s, by simp only [References.step, here], sound⟩
  | pass t source target =>
    cases here : s.site t with
    | idle =>
      cases found : s.refs.lookup source with
      | none => exact ⟨s, by simp only [References.step, here, found], sound⟩
      | some obj =>
        exact ⟨_, by simp only [References.step, here, found],
          sound.pass here found admissible.1 admissible.2.1 admissible.2.2⟩
    | _ => exact ⟨s, by simp only [References.step, here], sound⟩
  | drop t r =>
    cases here : s.site t with
    | idle =>
      cases found : s.refs.lookup r with
      | none => exact ⟨s, by simp only [References.step, here, found], sound⟩
      | some obj =>
        exact ⟨_, by simp only [References.step, here, found], sound.drop here found admissible⟩
    | _ => exact ⟨s, by simp only [References.step, here], sound⟩
  | advance t => exact sound.advance admissible t

end Keep

/-! ## Runs that can be computed -/

instance [DecidableEq R] (r : R) (x : Site R) : Decidable (x.Uses r) :=
  match x with
  | .adding _ _ _ => inferInstanceAs (Decidable (_ ∨ _))
  | .releasing _ _ => inferInstanceAs (Decidable (_ = _))
  | .idle | .fencing _ | .deleting _ => isFalse id

instance [DecidableEq R] (r : R) (x : Site R) : Decidable (x.Alters r) :=
  match x with
  | .adding _ _ _ | .releasing _ _ => inferInstanceAs (Decidable (_ = _))
  | .idle | .fencing _ | .deleting _ => isFalse id

instance [DecidableEq R] [Fintype T] (s : References W R T) (r : R) : Decidable (s.Unused r) :=
  inferInstanceAs (Decidable (∀ t, ¬ (s.site t).Uses r))

instance [DecidableEq R] [Fintype T] (s : References W R T) (move : Move W R T) : Decidable (s.Admissible move) :=
  match move with
  | .make _ _ _ _ | .copy _ _ _ | .pass _ _ _ => inferInstanceAs (Decidable (_ ∧ _ ∧ _))
  | .drop _ r => inferInstanceAs (Decidable (s.Unused r))
  | .advance _ => inferInstanceAs (Decidable (_ < _))

end References

end Object

end SmallObject
