import Mathlib.Data.List.AList
import Mathlib.Logic.Function.Basic

/-! Objects with many holders, and a count of the holders.

A new object is in the hands of one place alone, which gives it to a first holder. Every further
holder has it from one that is there. The last one to let go of it leaves it to a place again,
and only there is it destroyed.
-/

set_option autoImplicit false

namespace Sharing

variable {R P A : Type}

/-- Each holder holds one object. -/
abbrev Holders (R A : Type) := AList (fun _ : R => A)

variable [DecidableEq A]

/-- How many holders an object has. -/
def tally (held : Holders R A) (a : A) : Nat := held.entries.countP fun e => e.2 = a

section Tally

variable [DecidableEq R] {held : Holders R A} {r : R} {a : A}

theorem tally_insert (vacant : held.lookup r = none) (a b : A) :
    tally (held.insert r a) b = tally held b + if a = b then 1 else 0 := by
  have entries := AList.entries_insert_of_notMem (b := a) (AList.lookup_eq_none.mp vacant)
  simp only [tally, entries, List.countP_cons, decide_eq_true_eq]

/-- Who comes back is counted as before. -/
theorem tally_erase (holds : held.lookup r = some a) (b : A) :
    tally (held.erase r) b + (if a = b then 1 else 0) = tally held b := by
  have present : r ∈ held.entries.keys := AList.mem_keys.mp (AList.lookup_isSome.mp (by simp [holds]))
  obtain ⟨x, before, after, _, entries, erased⟩ := List.exists_of_kerase present
  have same : x = a := by
    have stored : held.lookup r = some x := AList.mem_lookup_iff.mpr (by simp [entries])
    exact Option.some.inj (stored.symm.trans holds)
  subst same
  have gone : (held.erase r).entries = before ++ after := erased
  simp only [tally, gone, entries, List.countP_append, List.countP_cons, decide_eq_true_eq]
  omega

theorem tally_pos (holds : held.lookup r = some a) : 0 < tally held a := by
  have := tally_erase holds a
  simp only [if_true] at this
  omega

omit [DecidableEq R] in
theorem tally_le (held : Holders R A) (a : A) : tally held a ≤ held.keys.length := by
  simpa [tally, AList.keys, List.keys] using List.countP_le_length

end Tally

/-- Who holds what, what each place has for itself alone, and the counts of the objects that exist. -/
structure Ledger (R P A : Type) where
  held : Holders R A
  kept : P → Option A
  count : A → Option Nat

/-- An object has as many holders as its count says, and none if it does not exist; one without
holders is at one place, and no other one is. -/
structure Counted (l : Ledger R P A) : Prop where
  exact : ∀ a, tally l.held a = (l.count a).getD 0
  vacant : ∀ a, l.count a = some 0 ↔ ∃ p, l.kept p = some a
  alone : ∀ p q a, l.kept p = some a → l.kept q = some a → p = q

theorem Counted.empty : Counted ({ held := ∅, kept := fun _ => none, count := fun _ => none } : Ledger R P A) := by
  constructor <;> simp [tally]

namespace Counted

variable {l : Ledger R P A} {p : P} {a : A}

/-- A step concerns one object. -/
theorem change (counted : Counted l) {held : Holders R A} {kept : P → Option A} {m : Option Nat}
    (others : ∀ b, b ≠ a → tally held b = tally l.held b) (here : tally held a = m.getD 0)
    (keeps : ∀ b, b ≠ a → ∀ q, kept q = some b ↔ l.kept q = some b) (vacant : m = some 0 ↔ ∃ q, kept q = some a)
    (alone : ∀ q q', kept q = some a → kept q' = some a → q = q') :
    Counted { held, kept, count := Function.update l.count a m } := by
  constructor
  · intro b
    by_cases same : b = a
    · simpa [same] using here
    · simpa [same, others b same] using counted.exact b
  · intro b
    by_cases same : b = a
    · simpa [same] using vacant
    · simpa [same, keeps b same] using counted.vacant b
  · intro q q' b keep keep'
    by_cases same : b = a
    · exact alone q q' (same ▸ keep) (same ▸ keep')
    · exact counted.alone q q' b ((keeps b same q).mp keep) ((keeps b same q').mp keep')

theorem alive (counted : Counted l) (holds : tally l.held a ≠ 0) : ∃ n, l.count a = some (n + 1) := by
  have exact := counted.exact a
  cases count : l.count a with
  | none => simp [count] at exact; omega
  | some n =>
    cases n with
    | zero => simp [count] at exact; omega
    | succ n => exact ⟨n, rfl⟩

theorem not_kept (counted : Counted l) (other : l.count a ≠ some 0) (p : P) : l.kept p ≠ some a :=
  fun keep => other ((counted.vacant a).mpr ⟨p, keep⟩)

variable [DecidableEq P]

/-- A place gets an object that no place had. -/
theorem take (counted : Counted l) {held : Holders R A} (others : ∀ b, b ≠ a → tally held b = tally l.held b)
    (here : tally held a = 0) (empty : l.kept p = none) (other : l.count a ≠ some 0) :
    Counted { held, kept := Function.update l.kept p (some a), count := Function.update l.count a (some 0) } := by
  have holder : ∀ q, Function.update l.kept p (some a) q = some a ↔ q = p := by
    intro q
    by_cases same : q = p
    · simp [same]
    · simp [same, counted.not_kept other q]
  refine counted.change others here (fun b different q => ?_) (by simp [holder]) fun q q' keep keep' => ?_
  · by_cases same : q = p
    · subst same
      simp [empty, Ne.symm different]
    · simp [same]
  · exact ((holder q).mp keep).trans ((holder q').mp keep').symm

/-- A place gives its object away. -/
theorem give (counted : Counted l) {held : Holders R A} {m : Option Nat}
    (others : ∀ b, b ≠ a → tally held b = tally l.held b) (here : tally held a = m.getD 0)
    (keep : l.kept p = some a) (other : m ≠ some 0) :
    Counted { held, kept := Function.update l.kept p none, count := Function.update l.count a m } := by
  have nobody : ∀ q, Function.update l.kept p none q ≠ some a := by
    intro q
    by_cases same : q = p
    · simp [same]
    · simpa [same] using fun keep' => same (counted.alone q p a keep' keep)
  refine counted.change others here (fun b different q => ?_) (by simp [nobody, other]) fun q q' keep => ?_
  · by_cases same : q = p
    · subst same
      simp [keep, Ne.symm different]
    · simp [same]
  · exact absurd keep (nobody q)

omit [DecidableEq P] in
/-- An object with holders has others. -/
theorem recount (counted : Counted l) {held : Holders R A} {n : Nat}
    (others : ∀ b, b ≠ a → tally held b = tally l.held b) (here : tally held a = n + 1)
    (other : l.count a ≠ some 0) : Counted { l with held, count := Function.update l.count a (some (n + 1)) } := by
  have nobody := counted.not_kept other
  exact counted.change others (by simpa using here) (fun _ _ _ => Iff.rfl) (by simp [nobody])
    fun q _ keep => absurd keep (nobody q)

end Counted

variable [DecidableEq R] [DecidableEq P]

inductive Step (l : Ledger R P A) : Ledger R P A → Prop where
  | stay : Step l l
  | create {p : P} {a : A} : l.kept p = none → l.count a = none →
      Step l { l with kept := Function.update l.kept p (some a), count := Function.update l.count a (some 0) }
  | share {p : P} {r : R} {a : A} : l.kept p = some a → l.held.lookup r = none →
      Step l { held := l.held.insert r a, kept := Function.update l.kept p none,
               count := Function.update l.count a (some 1) }
  | copy {r r' : R} {a : A} {n : Nat} : l.held.lookup r = some a → l.held.lookup r' = none → l.count a = some n →
      Step l { l with held := l.held.insert r' a, count := Function.update l.count a (some (n + 1)) }
  | pass {r r' : R} {a : A} : l.held.lookup r = some a → l.held.lookup r' = none →
      Step l { l with held := (l.held.erase r).insert r' a }
  | drop {r : R} {a : A} {n : Nat} : l.held.lookup r = some a → l.count a = some (n + 2) →
      Step l { l with held := l.held.erase r, count := Function.update l.count a (some (n + 1)) }
  | last {p : P} {r : R} {a : A} : l.held.lookup r = some a → l.kept p = none → l.count a = some 1 →
      Step l { held := l.held.erase r, kept := Function.update l.kept p (some a),
               count := Function.update l.count a (some 0) }
  | destroy {p : P} {a : A} : l.kept p = some a →
      Step l { l with kept := Function.update l.kept p none, count := Function.update l.count a none }

theorem Step.counted {l l' : Ledger R P A} (step : Step l l') (counted : Counted l) : Counted l' := by
  cases step with
  | stay => exact counted
  | @create p a empty new =>
    exact counted.take (fun _ _ => rfl) (by simpa [new] using counted.exact a) empty (by simp [new])
  | @share p r a keep vacant =>
    have none : tally l.held a = 0 := by
      simpa [(counted.vacant a).mpr ⟨p, keep⟩] using counted.exact a
    refine counted.give (fun b different => ?_) ?_ keep (by simp)
    · simp [tally_insert vacant, Ne.symm different]
    · simp [tally_insert vacant, none]
  | @copy r r' a n holds vacant count =>
    have exact := counted.exact a
    have shared := tally_pos holds
    simp only [count, Option.getD_some] at exact
    refine counted.recount (fun b different => ?_) ?_ ?_
    · simp [tally_insert vacant, Ne.symm different]
    · simp [tally_insert vacant, exact]
    · simp only [count, ne_eq, Option.some.injEq]
      omega
  | @pass r r' a holds vacant =>
    have absent : (l.held.erase r).lookup r' = none := by
      by_cases same : r' = r
      · rw [same, AList.lookup_erase]
      · rwa [AList.lookup_erase_ne same]
    refine ⟨fun b => ?_, counted.vacant, counted.alone⟩
    rw [tally_insert absent, tally_erase holds]
    exact counted.exact b
  | @drop r a n holds count =>
    have exact := counted.exact a
    have less := tally_erase holds a
    simp only [count, Option.getD_some, if_true] at exact less
    refine counted.recount (fun b different => ?_) (by omega) (by simp [count])
    simpa [Ne.symm different] using tally_erase holds b
  | @last p r a holds empty count =>
    have exact := counted.exact a
    have less := tally_erase holds a
    simp only [count, Option.getD_some, if_true] at exact less
    refine counted.take (fun b different => ?_) (by omega) empty (by simp [count])
    simpa [Ne.symm different] using tally_erase holds b
  | @destroy p a keep =>
    refine counted.give (fun _ _ => rfl) ?_ keep (by simp)
    simpa [(counted.vacant a).mpr ⟨p, keep⟩] using counted.exact a

end Sharing
