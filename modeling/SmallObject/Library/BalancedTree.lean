import Mathlib.Data.Nat.Fib.Basic
import SmallObject.Library.LinkedTree

/-! Linked trees balanced by height.

The side of a hole matters to no depth, so a node is looked at as a frame and what is plugged
into it. A tree leans to the side of its deeper subtree.
-/

set_option autoImplicit false

namespace Linked

variable {α : Type}

def Side.other : Side → Side
  | .left => .right
  | .right => .left

@[simp] theorem Side.other_other (s : Side) : s.other.other = s := by cases s <;> rfl

theorem Side.eq_or_other (s s' : Side) : s' = s ∨ s' = s.other := by cases s <;> cases s' <;> simp [other]

/-- The same node, with the hole in the place of the sibling. -/
def Frame.swap (f : Frame α) (t : LinkTree α) : Frame α := { f with side := f.side.other, sibling := t }

theorem Frame.plug_swap (f : Frame α) (t : LinkTree α) : (f.swap t).plug f.sibling = f.plug t := by
  obtain ⟨side, a, x, u⟩ := f
  cases side <;> rfl

namespace LinkTree

/-- The number of nodes on the longest path. -/
def depth : LinkTree α → Nat
  | nil => 0
  | node _ l _ r => max l.depth r.depth + 1

def Balanced : LinkTree α → Prop
  | nil => True
  | node _ l _ r => l.Balanced ∧ r.Balanced ∧ l.depth ≤ r.depth + 1 ∧ r.depth ≤ l.depth + 1

instance decidableBalanced : (t : LinkTree α) → Decidable t.Balanced
  | nil => isTrue trivial
  | node _ l _ r =>
    have := decidableBalanced l
    have := decidableBalanced r
    inferInstanceAs (Decidable (l.Balanced ∧ r.Balanced ∧ l.depth ≤ r.depth + 1 ∧ r.depth ≤ l.depth + 1))

def child (s : Side) : LinkTree α → LinkTree α
  | nil => nil
  | node _ l _ r =>
    match s with
    | .left => l
    | .right => r

/-- The subtree on the side is deeper than the other one. -/
def Leans (s : Side) (t : LinkTree α) : Prop := (t.child s.other).depth < (t.child s).depth

instance (s : Side) (t : LinkTree α) : Decidable (t.Leans s) := inferInstanceAs (Decidable (_ < _))

/-- The two subtrees are equally deep. -/
def Even (t : LinkTree α) : Prop := ∀ s, ¬ t.Leans s

/-- The tree leans to the side, and its subtree there leans back. -/
def Crooked (s : Side) (t : LinkTree α) : Prop := t.Leans s ∧ (t.child s).Leans s.other

instance (s : Side) (t : LinkTree α) : Decidable (t.Crooked s) := inferInstanceAs (Decidable (_ ∧ _))

/-- Some subtree so many levels below the root is not balanced. -/
def FlawedBelow : Nat → LinkTree α → Prop
  | 0, t => ¬ t.Balanced
  | n + 1, t => ∃ s, FlawedBelow n (t.child s)

@[simp] theorem depth_nil : (nil : LinkTree α).depth = 0 := rfl
@[simp] theorem depth_node (a : Addr) (l r : LinkTree α) (x : α) :
    (node a l x r).depth = max l.depth r.depth + 1 := rfl
@[simp] theorem child_nil (s : Side) : (nil : LinkTree α).child s = nil := rfl
@[simp] theorem balanced_nil : (nil : LinkTree α).Balanced := trivial
@[simp] theorem not_leans_nil (s : Side) : ¬ (nil : LinkTree α).Leans s := by simp [Leans]

@[simp] theorem depth_eq_zero {t : LinkTree α} : t.depth = 0 ↔ t = nil := by cases t <;> simp

variable {t t' : LinkTree α} {f g : Frame α} {s : Side}

@[simp] theorem depth_plug : (f.plug t).depth = max t.depth f.sibling.depth + 1 := by
  obtain ⟨side, a, x, u⟩ := f
  cases side with
  | left => rfl
  | right => exact congrArg (· + 1) (max_comm _ _)

theorem lt_depth_plug : t.depth < (f.plug t).depth := by
  rw [depth_plug]
  omega

theorem sibling_lt_depth_plug : f.sibling.depth < (f.plug t).depth := by
  rw [depth_plug]
  omega

/-- Which side the hole is on does not matter. -/
theorem balanced_plug : (f.plug t).Balanced ↔ t.Balanced ∧ f.sibling.Balanced ∧
    t.depth ≤ f.sibling.depth + 1 ∧ f.sibling.depth ≤ t.depth + 1 := by
  obtain ⟨side, a, x, u⟩ := f
  cases side with
  | left => rfl
  | right =>
    simp only [Frame.plug, Balanced]
    tauto

@[simp] theorem child_plug : (f.plug t).child f.side = t := by
  obtain ⟨side, a, x, u⟩ := f
  cases side <;> rfl

@[simp] theorem child_other_plug : (f.plug t).child f.side.other = f.sibling := by
  obtain ⟨side, a, x, u⟩ := f
  cases side <;> rfl

@[simp] theorem leans_plug : (f.plug t).Leans f.side ↔ f.sibling.depth < t.depth := by simp [Leans]

@[simp] theorem leans_other_plug : (f.plug t).Leans f.side.other ↔ t.depth < f.sibling.depth := by simp [Leans]

/-- A tree that is not empty is a hole on either side of its root, plugged. -/
theorem exists_plug (s : Side) (present : 0 < t.depth) :
    ∃ (f : Frame α) (u : LinkTree α), f.side = s ∧ t = f.plug u := by
  cases t with
  | nil => simp at present
  | node a l x r =>
    cases s with
    | left => exact ⟨⟨.left, a, x, r⟩, l, rfl, rfl⟩
    | right => exact ⟨⟨.right, a, x, l⟩, r, rfl, rfl⟩

theorem depth_child (s : Side) (present : 0 < t.depth) :
    t.depth = max (t.child s).depth (t.child s.other).depth + 1 := by
  obtain ⟨f, u, rfl, rfl⟩ := exists_plug s present
  simp

theorem balanced_child (s : Side) : t.Balanced ↔ (t.child s).Balanced ∧ (t.child s.other).Balanced ∧
    (t.child s).depth ≤ (t.child s.other).depth + 1 ∧ (t.child s.other).depth ≤ (t.child s).depth + 1 := by
  by_cases present : 0 < t.depth
  · obtain ⟨f, u, rfl, rfl⟩ := exists_plug s present
    simp only [balanced_plug, child_plug, child_other_plug]
  · obtain rfl : t = nil := by simpa using present
    simp

theorem even_plug : (f.plug t).Even ↔ t.depth = f.sibling.depth := by
  constructor
  · intro even
    have outward := even f.side
    have inward := even f.side.other
    rw [leans_plug] at outward
    rw [leans_other_plug] at inward
    omega
  · intro same s
    rcases Side.eq_or_other f.side s with rfl | rfl <;> simp [same]

theorem Even.congr (even : t.Even) (leans : ∀ s, t'.Leans s ↔ t.Leans s) : t'.Even :=
  fun s leans' => even s ((leans s).mp leans')

theorem Even.child_depth (even : t.Even) (s : Side) : (t.child s).depth = (t.child s.other).depth := by
  have here := even s
  have there := even s.other
  simp only [Leans, Side.other_other] at here there
  omega

theorem even_child (s : Side) (same : (t.child s).depth = (t.child s.other).depth) : t.Even := by
  intro s'
  rcases Side.eq_or_other s s' with rfl | rfl <;> simp [Leans, same]

/-- A tree is even, or it leans to one side. -/
theorem leans_or_even (s : Side) (t : LinkTree α) : t.Leans s ∨ t.Even ∨ t.Leans s.other := by
  rcases lt_trichotomy (t.child s).depth (t.child s.other).depth with less | same | more
  · exact .inr (.inr (by simpa [Leans] using less))
  · refine .inr (.inl fun s' leans => ?_)
    rcases Side.eq_or_other s s' with rfl | rfl <;> simp [Leans, same] at leans
  · exact .inl more

theorem Even.not_crooked (even : t.Even) (s : Side) : ¬ t.Crooked s := fun crooked => even s crooked.1

theorem Leans.not_other (leans : t.Leans s) : ¬ t.Leans s.other := by
  simp only [Leans, Side.other_other] at leans ⊢
  omega

theorem Leans.one_lt_depth (leans : t.Leans s) : 1 < t.depth := by
  cases t with
  | nil => simp at leans
  | node a l x r => cases s <;> simp only [Leans, child, Side.other, depth_node] at leans ⊢ <;> omega

/-- Three levels are needed. -/
theorem not_crooked (low : t.depth ≤ 2) : ¬ t.Crooked s := by
  intro crooked
  have inner := crooked.2.one_lt_depth
  cases t with
  | nil => simp at inner
  | node a l x r =>
    rw [depth_node] at low
    cases s <;> simp only [child] at inner <;> omega

theorem Balanced.child (balanced : t.Balanced) (s : Side) : (t.child s).Balanced := ((balanced_child s).mp balanced).1

theorem FlawedBelow.not_balanced {n : Nat} (flawed : t.FlawedBelow n) : ¬ t.Balanced := by
  induction n generalizing t with
  | zero => exact flawed
  | succ n ih =>
    obtain ⟨s, below⟩ := flawed
    exact fun balanced => ih below (balanced.child s)

/-- A balanced tree of some depth has at least as many nodes as the Fibonacci tree of that depth. -/
theorem Balanced.fib_le_size (balanced : t.Balanced) : Nat.fib (t.depth + 2) ≤ t.size + 1 := by
  induction t with
  | nil => simp
  | node a l x r ihl ihr =>
    obtain ⟨left, right, near, near'⟩ := balanced
    have more := ihl left
    have more' := ihr right
    have add : ∀ d, Nat.fib (d + 3) = Nat.fib (d + 1) + Nat.fib (d + 2) := fun d => Nat.fib_add_two
    rw [depth_node, size_node]
    rcases le_total l.depth r.depth with order | order
    · have low : Nat.fib (r.depth + 1) ≤ Nat.fib (l.depth + 2) := Nat.fib_mono (by omega)
      rw [max_eq_right order, add]
      omega
    · have low : Nat.fib (l.depth + 1) ≤ Nat.fib (r.depth + 2) := Nat.fib_mono (by omega)
      rw [max_eq_left order, add]
      omega

/-- With no more nodes than 64 bits can number, a balanced tree is not deep. -/
theorem Balanced.depth_le (balanced : t.Balanced) (few : t.size ≤ 2 ^ 64) : t.depth ≤ 91 := by
  by_contra deep
  have large : Nat.fib 94 ≤ Nat.fib (t.depth + 2) := Nat.fib_mono (by omega)
  have most : 2 ^ 64 + 1 < Nat.fib 94 := by decide
  have := balanced.fib_le_size
  omega

end LinkTree

namespace Context

open LinkTree

variable {ctx : Context α} {t t' : LinkTree α}

theorem depth_replace (same : t'.depth = t.depth) : (plug ctx t').depth = (plug ctx t).depth := by
  induction ctx generalizing t t' with
  | nil => exact same
  | cons f fs ih => exact ih (by simp [same])

theorem depth_le_plug : t.depth ≤ (plug ctx t).depth := by
  induction ctx generalizing t with
  | nil => exact le_rfl
  | cons f fs ih =>
    refine le_trans ?_ (ih (t := f.plug t))
    rw [depth_plug]
    omega

theorem balanced_inner (balanced : (plug ctx t).Balanced) : t.Balanced := by
  induction ctx generalizing t with
  | nil => exact balanced
  | cons f fs ih => exact (balanced_plug.mp (ih balanced)).1

/-- A subtree gives way to any balanced one of the same depth. -/
theorem balanced_replace (balanced : (plug ctx t).Balanced) (balanced' : t'.Balanced) (same : t'.depth = t.depth) :
    (plug ctx t').Balanced := by
  induction ctx generalizing t t' with
  | nil => exact balanced'
  | cons f fs ih =>
    have outside : (plug fs (f.plug t)).Balanced := balanced
    have here := balanced_plug.mp (balanced_inner outside)
    refine ih outside (balanced_plug.mpr ⟨balanced', here.2.1, ?_, ?_⟩) (by simp [same])
    · rw [same]
      exact here.2.2.1
    · rw [same]
      exact here.2.2.2

end Context

end Linked
