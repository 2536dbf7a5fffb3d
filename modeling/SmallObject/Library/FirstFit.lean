import Mathlib.Logic.Function.Basic

/-! Objects that are tried one after another, the latest first, by clients that come and go.

A client passes an object only while another client has it, and only a client that has passed
all it knows makes a new one. Whatever the order of their steps, there are never more objects than
there were clients at one time.
-/

set_option autoImplicit false

namespace FirstFit

variable {T : Type}

/-- The objects are numbered from one on. The level of a client is the number of the object that it
has or tries next; it is zero when the client has passed all, and there is none for a client
that is away. -/
structure Row (T : Type) where
  made : Nat
  level : T → Option Nat

namespace Row

/-- There are at most so many clients. -/
def Crowd (row : Row T) (n : Nat) : Prop :=
  ∀ ts : List T, ts.Nodup → (∀ t ∈ ts, row.level t ≠ none) → ts.length ≤ n

/-- Each object above a level stands for a client beside those that are at the level or below. -/
structure Fits (row : Row T) (n : Nat) : Prop where
  bounded : ∀ t l, row.level t = some l → l ≤ row.made
  room : ∀ k ≤ row.made, ∀ ts : List T, ts.Nodup → (∀ t ∈ ts, ∃ l ≤ k, row.level t = some l) →
    row.made - k + ts.length ≤ n

variable [DecidableEq T]

inductive Step (row : Row T) : Row T → Prop where
  | stay : Step row row
  | enter {t : T} : row.level t = none →
      Step row { row with level := Function.update row.level t (some row.made) }
  | leave (t : T) : Step row { row with level := Function.update row.level t none }
  | pass {t u : T} {k : Nat} : u ≠ t → row.level t = some (k + 1) → row.level u = some (k + 1) →
      Step row { row with level := Function.update row.level t (some k) }
  | make {t : T} : row.level t = some 0 →
      Step row { made := row.made + 1, level := Function.update row.level t (some (row.made + 1)) }

variable {row row' : Row T} {n : Nat} {t u : T}

omit [DecidableEq T] in
theorem Fits.few (fits : row.Fits n) : row.made ≤ n := by
  simpa using fits.room 0 (Nat.zero_le _) [] List.nodup_nil (by simp)

omit [DecidableEq T] in
theorem Fits.empty (n : Nat) : Fits ({ made := 0, level := fun _ => none } : Row T) n := by
  refine ⟨by simp, fun k _ ts _ low => ?_⟩
  cases ts with
  | nil => simp
  | cons t ts => simpa using low t List.mem_cons_self

theorem Fits.enter (fits : row.Fits n) (away : row.level t = none)
    (crowd : Crowd { row with level := Function.update row.level t (some row.made) } n) :
    Fits { row with level := Function.update row.level t (some row.made) } n := by
  refine ⟨fun u l here => ?_, fun k below ts distinct low => ?_⟩
  · by_cases same : u = t
    · subst same
      simp only [Function.update_self, Option.some.injEq] at here
      exact Nat.le_of_eq here.symm
    · exact fits.bounded u l (by simpa [same] using here)
  -- at the highest level all clients count, and below it the new one does not
  · rcases Nat.eq_or_lt_of_le below with rfl | lower
    · have := crowd ts distinct fun u member => by
        obtain ⟨l, _, here⟩ := low u member
        exact Option.ne_none_iff_exists'.mpr ⟨l, here⟩
      simpa using this
    · refine fits.room k below ts distinct fun u member => ?_
      obtain ⟨l, less, here⟩ := low u member
      by_cases same : u = t
      · subst same
        simp only [Function.update_self, Option.some.injEq] at here
        simp only at lower
        omega
      · exact ⟨l, less, by simpa [same] using here⟩

theorem Fits.leave (fits : row.Fits n) (t : T) :
    Fits { row with level := Function.update row.level t none } n := by
  have before : ∀ u l, Function.update row.level t none u = some l → row.level u = some l := by
    intro u l here
    by_cases same : u = t
    · subst same
      simp at here
    · simpa [same] using here
  refine ⟨fun u l here => fits.bounded u l (before u l here), fun k below ts distinct low => ?_⟩
  exact fits.room k below ts distinct fun u member => (low u member).imp fun l here => ⟨here.1, before u l here.2⟩

/-- The client that is passed by has not come further down, so it can be counted too. -/
theorem Fits.pass {k : Nat} (fits : row.Fits n) (other : u ≠ t) (here : row.level t = some (k + 1))
    (there : row.level u = some (k + 1)) : Fits { row with level := Function.update row.level t (some k) } n := by
  have top := fits.bounded t _ here
  refine ⟨fun v l is => ?_, fun j below ts distinct low => ?_⟩
  · by_cases same : v = t
    · subst same
      simp only [Function.update_self, Option.some.injEq] at is
      simp only
      omega
    · exact fits.bounded v l (by simpa [same] using is)
  · by_cases level : j = k
    · subst level
      have absent : u ∉ ts := by
        intro member
        obtain ⟨l, less, is⟩ := low u member
        simp only [Function.update_of_ne other, there, Option.some.injEq] at is
        omega
      have := fits.room (j + 1) top (u :: ts) (List.nodup_cons.mpr ⟨absent, distinct⟩) fun v member => by
        rcases List.mem_cons.mp member with rfl | old
        · exact ⟨j + 1, Nat.le_refl _, there⟩
        · by_cases same : v = t
          · subst same
            exact ⟨j + 1, Nat.le_refl _, here⟩
          · obtain ⟨l, less, is⟩ := low v old
            exact ⟨l, by omega, by simpa [same] using is⟩
      simp only [List.length_cons] at this ⊢
      omega
    · refine fits.room j below ts distinct fun v member => ?_
      obtain ⟨l, less, is⟩ := low v member
      by_cases same : v = t
      · subst same
        simp only [Function.update_self, Option.some.injEq] at is
        exact ⟨k + 1, by omega, here⟩
      · exact ⟨l, less, by simpa [same] using is⟩

theorem Fits.make (fits : row.Fits n) (here : row.level t = some 0)
    (crowd : Crowd { made := row.made + 1, level := Function.update row.level t (some (row.made + 1)) } n) :
    Fits { made := row.made + 1, level := Function.update row.level t (some (row.made + 1)) } n := by
  refine ⟨fun u l is => ?_, fun k below ts distinct low => ?_⟩
  · by_cases same : u = t
    · subst same
      simp only [Function.update_self, Option.some.injEq] at is
      exact Nat.le_of_eq is.symm
    · exact Nat.le_succ_of_le (fits.bounded u l (by simpa [same] using is))
  · rcases Nat.eq_or_lt_of_le below with rfl | lower
    · have := crowd ts distinct fun u member => by
        obtain ⟨l, _, is⟩ := low u member
        exact Option.ne_none_iff_exists'.mpr ⟨l, is⟩
      simpa using this
    -- below its new object the client is not counted any more, and the object is
    · have away : ∀ u ∈ ts, u ≠ t := by
        rintro u member rfl
        obtain ⟨l, less, is⟩ := low u member
        simp only [Function.update_self, Option.some.injEq] at is
        simp only at lower
        omega
      simp only at lower
      have := fits.room k (by omega) (t :: ts)
        (List.nodup_cons.mpr ⟨fun member => away t member rfl, distinct⟩) fun u member => by
          rcases List.mem_cons.mp member with rfl | old
          · exact ⟨0, Nat.zero_le _, here⟩
          · obtain ⟨l, less, is⟩ := low u old
            exact ⟨l, less, by simpa [away u old] using is⟩
      simp only [List.length_cons] at this ⊢
      omega

theorem Step.fits (step : Step row row') (crowd : row'.Crowd n) (fits : row.Fits n) : row'.Fits n := by
  cases step with
  | stay => exact fits
  | enter away => exact fits.enter away crowd
  | leave t => exact fits.leave t
  | pass other here there => exact fits.pass other here there
  | make here => exact fits.make here crowd

end Row

end FirstFit
