import Mathlib.Logic.Function.Basic

/-! A lock for many readers or one writer, and threads that keep to it.

Who holds the lock is a mode of each thread. A thread that finds the lock taken waits;
its attempt changes nothing. While the threads change their modes by the operations of
the lock only, none holds it beside a writer.
-/

set_option autoImplicit false

namespace Locking

variable {T : Type}

/-- No reader holds the lock while a writer does. -/
structure RwLock (T : Type) where
  readers : List T
  writer : Option T
  apart : writer = none ∨ readers = []

namespace RwLock

/-- Nobody holds the lock. -/
def free : RwLock T := { readers := [], writer := none, apart := .inl rfl }

/-- A reader waits for the writer. -/
def readLock (l : RwLock T) (t : T) : Option (RwLock T) :=
  if vacant : l.writer = none then
    some { l with readers := t :: l.readers, apart := .inl vacant }
  else none

def readUnlock [DecidableEq T] (l : RwLock T) (t : T) : RwLock T :=
  { l with
    readers := l.readers.erase t
    apart := l.apart.imp id fun none => by simp [none] }

/-- A writer waits for the readers, and for another writer. -/
def writeLock (l : RwLock T) (t : T) : Option (RwLock T) :=
  if vacant : l.writer = none ∧ l.readers = [] then
    some { l with writer := some t, apart := .inr vacant.2 }
  else none

def writeUnlock (l : RwLock T) : RwLock T :=
  { l with writer := none, apart := .inl rfl }

variable {l l' : RwLock T} {t u : T}

theorem readLock_eq_some (locked : l.readLock t = some l') :
    l.writer = none ∧ l'.writer = none ∧ l'.readers = t :: l.readers := by
  unfold readLock at locked
  split at locked
  next vacant =>
    obtain rfl := Option.some.inj locked
    exact ⟨vacant, vacant, rfl⟩
  next => simp at locked

theorem writeLock_eq_some (locked : l.writeLock t = some l') :
    l.writer = none ∧ l.readers = [] ∧ l'.writer = some t ∧ l'.readers = [] := by
  unfold writeLock at locked
  split at locked
  next vacant =>
    obtain rfl := Option.some.inj locked
    exact ⟨vacant.1, vacant.2, rfl, vacant.2⟩
  next => simp at locked

/-- Who takes the free lock and gives it back leaves it as it was. -/
theorem readLock_free [DecidableEq T] (t : T) :
    ∃ l : RwLock T, free.readLock t = some l ∧ l.readUnlock t = free :=
  ⟨_, rfl, by simp [readUnlock, free]⟩

theorem writeLock_free (t : T) : ∃ l : RwLock T, free.writeLock t = some l ∧ l.writeUnlock = free :=
  ⟨_, rfl, rfl⟩

end RwLock

/-- How a thread holds the lock. -/
inductive Mode where
  | outside
  | reading
  | writing
  deriving DecidableEq, Repr

/-- Every thread in a mode other than `outside` is known to the lock. -/
structure Held (l : RwLock T) (mode : T → Mode) : Prop where
  reading : ∀ t, mode t = .reading → t ∈ l.readers
  writing : ∀ t, mode t = .writing → l.writer = some t

/-- How the operations of the lock change the mode of a thread. -/
inductive Change [DecidableEq T] (l : RwLock T) (t : T) : Mode → Mode → RwLock T → Prop where
  | stay (m : Mode) : Change l t m m l
  | readLock {l' : RwLock T} : l.readLock t = some l' → Change l t .outside .reading l'
  | readUnlock : Change l t .reading .outside (l.readUnlock t)
  | writeLock {l' : RwLock T} : l.writeLock t = some l' → Change l t .outside .writing l'
  | writeUnlock : Change l t .writing .outside l.writeUnlock

/-- Only who comes to write makes the lock have a writer. -/
theorem Change.no_writer [DecidableEq T] {l l' : RwLock T} {t : T} {m m' : Mode} (change : Change l t m m' l')
    (vacant : l.writer = none) (other : m' ≠ .writing) : l'.writer = none := by
  cases change with
  | stay => exact vacant
  | readLock locked => exact (RwLock.readLock_eq_some locked).2.1
  | readUnlock => exact vacant
  | writeLock locked => exact absurd rfl other
  | writeUnlock => rfl

namespace Held

variable {l l' : RwLock T} {mode : T → Mode} {t u : T}

theorem free : Held (RwLock.free : RwLock T) (fun _ => .outside) := by
  constructor <;> simp

/-- Beside a writer nobody else holds the lock. -/
theorem alone (held : Held l mode) (writes : mode t = .writing) (other : mode u ≠ .outside) : t = u := by
  have writer := held.writing t writes
  cases holds : mode u with
  | outside => exact absurd holds other
  | reading =>
    have reader := held.reading u holds
    rcases l.apart with vacant | none
    · simp [vacant] at writer
    · simp [none] at reader
  | writing => exact Option.some.inj (writer.symm.trans (held.writing u holds))

variable [DecidableEq T]

theorem change {m : Mode} (held : Held l mode) (change : Change l t (mode t) m l') :
    Held l' (Function.update mode t m) := by
  generalize before : mode t = m₀ at change
  -- the other threads keep their modes
  have others : ∀ u, u ≠ t → Function.update mode t m u = mode u := fun u other => Function.update_of_ne other ..
  cases change with
  | stay => rwa [← before, Function.update_eq_self]
  | readLock locked =>
    obtain ⟨vacant, vacant', readers⟩ := RwLock.readLock_eq_some locked
    constructor <;> intro u holds <;> rcases eq_or_ne u t with rfl | other
    · simp [readers]
    · rw [others u other] at holds
      simp [readers, held.reading u holds]
    · simp at holds
    · rw [others u other] at holds
      exact absurd (held.writing u holds) (by simp [vacant])
  | readUnlock =>
    constructor <;> intro u holds <;> rcases eq_or_ne u t with rfl | other
    · simp at holds
    · rw [others u other] at holds
      exact (List.mem_erase_of_ne other).mpr (held.reading u holds)
    · simp at holds
    · rw [others u other] at holds
      exact held.writing u holds
  | writeLock locked =>
    obtain ⟨vacant, none, writer, _⟩ := RwLock.writeLock_eq_some locked
    constructor <;> intro u holds <;> rcases eq_or_ne u t with rfl | other
    · simp at holds
    · rw [others u other] at holds
      exact absurd (held.reading u holds) (by simp [none])
    · exact writer
    · rw [others u other] at holds
      exact absurd (held.writing u holds) (by simp [vacant])
  | writeUnlock =>
    constructor <;> intro u holds <;> rcases eq_or_ne u t with rfl | other
    · simp at holds
    · rw [others u other] at holds
      exact absurd (held.alone before (by simp [holds])) (Ne.symm other)
    · simp at holds
    · rw [others u other] at holds
      exact absurd (held.alone before (by simp [holds])) (Ne.symm other)

end Held

/-- The lock knows of no threads but those in their modes, and of each reader once. -/
structure Known (l : RwLock T) (mode : T → Mode) : Prop where
  reading : ∀ t ∈ l.readers, mode t = .reading
  writing : ∀ t, l.writer = some t → mode t = .writing
  once : l.readers.Nodup

namespace Known

variable {l l' : RwLock T} {mode : T → Mode} {t : T}

theorem free : Known (RwLock.free : RwLock T) (fun _ => .outside) := by
  constructor <;> simp [RwLock.free]

/-- With nobody in it the lock is free for all. -/
theorem vacant (known : Known l mode) (outside : ∀ t, mode t = .outside) : l.writer = none ∧ l.readers = [] := by
  refine ⟨Option.eq_none_iff_forall_ne_some.mpr fun t writer => ?_, List.eq_nil_iff_forall_not_mem.mpr ?_⟩
  · have writes := known.writing t writer
    simp [outside t] at writes
  · intro t reader
    have reads := known.reading t reader
    simp [outside t] at reads

variable [DecidableEq T]

theorem change {m : Mode} (known : Known l mode) (change : Change l t (mode t) m l') :
    Known l' (Function.update mode t m) := by
  generalize before : mode t = m₀ at change
  have others : ∀ u, u ≠ t → Function.update mode t m u = mode u := fun u other => Function.update_of_ne other ..
  cases change with
  | stay => rwa [← before, Function.update_eq_self]
  | readLock locked =>
    obtain ⟨_, vacant, readers⟩ := RwLock.readLock_eq_some locked
    have absent : t ∉ l.readers := fun reader => by simp [known.reading t reader] at before
    refine ⟨fun u reader => ?_, by simp [vacant], readers ▸ List.nodup_cons.mpr ⟨absent, known.once⟩⟩
    rcases List.mem_cons.mp (readers ▸ reader) with rfl | member
    · exact Function.update_self ..
    · rw [others u (ne_of_mem_of_not_mem member absent)]
      exact known.reading u member
  | readUnlock =>
    refine ⟨fun u reader => ?_, fun u writer => ?_, known.once.erase t⟩
    · have other : u ≠ t := ((known.once.mem_erase_iff).mp reader).1
      rw [others u other]
      exact known.reading u (List.mem_of_mem_erase reader)
    · have writes := known.writing u writer
      have other : u ≠ t := by
        rintro rfl
        simp [before] at writes
      rw [others u other]
      exact writes
  | writeLock locked =>
    obtain ⟨_, _, writer, none⟩ := RwLock.writeLock_eq_some locked
    refine ⟨by simp [none], fun u writes => ?_, by simp [none]⟩
    obtain rfl : t = u := Option.some.inj (writer.symm.trans writes)
    exact Function.update_self ..
  | writeUnlock =>
    refine ⟨fun u reader => ?_, by simp [RwLock.writeUnlock], known.once⟩
    have reads := known.reading u reader
    have other : u ≠ t := by
      rintro rfl
      simp [before] at reads
    rw [others u other]
    exact reads

end Known

end Locking
