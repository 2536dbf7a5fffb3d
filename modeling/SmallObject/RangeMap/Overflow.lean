import SmallObject.RangeMap.Heights
import SmallObject.RangeMap.Ledger
import SmallObject.RangeMap.Settle

/-! The 8-bit heights of a map that has only seen insertions.

A stored height is one more than the higher of those below, except for the zero of a new
leaf, so it grows with the longest path. An insertion makes every height on its path larger
by one until a node absorbs this; the height of the root is too large at last when 128 nodes
are passed and none below the root absorbs it.
-/

set_option autoImplicit false

namespace SmallObject

open Linked LinkTree

variable {K V : Type}

namespace AvlTree

/-- Every stored height is what `fix_height` computes, or the zero of a new leaf. -/
def Fixed : AvlTree K V → Prop
  | .nil => True
  | .node _ l x r => Fixed l ∧ Fixed r ∧
    (x.height = max (height l) (height r) + 1 ∨ x.height = 0 ∧ l = .nil ∧ r = .nil)

/-- The subtree on the side is stored as the higher one. -/
def Tilts (s : Side) (t : AvlTree K V) : Prop := height (t.child s.other) < height (t.child s)

/-- The node of a frame with the height that `fix_height` computes. -/
def stamp (f : Frame (NodeData K V)) (t : AvlTree K V) : Frame (NodeData K V) :=
  { f with load := { f.load with height := max (height t) (height f.sibling) + 1 } }

/-- The tree that lifts the child `g.plug u` of `f`. -/
def hoisted (f g : Frame (NodeData K V)) (u : AvlTree K V) : AvlTree K V :=
  let low := (stamp f g.sibling).plug g.sibling
  (stamp { g with sibling := low } u).plug u

section

variable {narrow : Narrowing} {f g : Frame (NodeData K V)} {t u : AvlTree K V} {s : Side}

@[simp] theorem stamp_side : (stamp f t).side = f.side := rfl
@[simp] theorem stamp_sibling : (stamp f t).sibling = f.sibling := rfl

@[simp] theorem height_plug : height (f.plug t) = f.load.height := by
  obtain ⟨side, a, x, w⟩ := f
  cases side <;> rfl

@[simp] theorem tilts_plug : Tilts f.side (f.plug t) ↔ height f.sibling < height t := by simp [Tilts]

@[simp] theorem tilts_other_plug : Tilts f.side.other (f.plug t) ↔ height t < height f.sibling := by simp [Tilts]

theorem fixed_plug : Fixed (f.plug t) ↔ Fixed t ∧ Fixed f.sibling ∧
    (f.load.height = max (height t) (height f.sibling) + 1 ∨ f.load.height = 0 ∧ t = .nil ∧ f.sibling = .nil) := by
  obtain ⟨side, a, x, w⟩ := f
  cases side with
  | left => rfl
  | right =>
    simp only [Frame.plug, Fixed]
    rw [max_comm]
    tauto

theorem Fixed.nonneg (fixed : Fixed t) : 0 ≤ height t := by
  induction t with
  | nil => exact le_rfl
  | node a l x r ihl ihr =>
    obtain ⟨left, right, here⟩ := fixed
    have := ihl left
    have := ihr right
    rw [height_node]
    rcases here with stored | ⟨zero, _⟩ <;> omega

theorem fixed_stamp (fixed : Fixed t) (fixed' : Fixed f.sibling) : Fixed ((stamp f t).plug t) :=
  fixed_plug.mpr ⟨fixed, fixed', .inl rfl⟩

theorem fixed_hoisted (fixed : Fixed u) (inner : Fixed g.sibling) (other : Fixed f.sibling) : Fixed (hoisted f g u) :=
  fixed_stamp fixed (fixed_stamp inner other)

theorem height_hoisted : height (hoisted f g u) =
    max (height u) (max (height g.sibling) (height f.sibling) + 1) + 1 := by
  simp [hoisted, stamp]

/-- A tree with a positive height, seen from the child on a side. -/
theorem Fixed.exists_plug (fixed : Fixed t) (s : Side) (high : 0 < height t) :
    ∃ (g : Frame (NodeData K V)) (u : AvlTree K V), g.side = s ∧ t = g.plug u ∧ Fixed u ∧ Fixed g.sibling ∧
      height t = max (height u) (height g.sibling) + 1 := by
  have present : 0 < t.depth := by
    cases t with
    | nil => simp at high
    | node a l x r => simp
  obtain ⟨g, u, side, rfl⟩ := LinkTree.exists_plug s present
  obtain ⟨fixedU, fixedG, stored⟩ := fixed_plug.mp fixed
  rw [height_plug] at high ⊢
  exact ⟨g, u, side, rfl, fixedU, fixedG, stored.resolve_right fun ⟨zero, _⟩ => by omega⟩

variable (keeps : ∀ z, -128 ≤ z → z ≤ 127 → narrow z = .ok z)
include keeps

theorem fixHeight_stamps (fixed : Fixed t) (high : height t ≤ 126) (high' : height f.sibling ≤ 126) :
    fixHeight narrow (f.plug t) = .ok ((stamp f t).plug t) := by
  have low := fixed.nonneg
  obtain ⟨side, a, x, w⟩ := f
  simp only at high'
  cases side with
  | left =>
    refine fixHeight_node_eq keeps ?_ (by simp only; omega) (by simp only; omega)
    simp only
    split <;> omega
  | right =>
    refine fixHeight_node_eq keeps ?_ (by simp only; omega) (by simp only; omega)
    simp only
    split <;> omega

theorem factor_signed (fixed : Fixed t) (fixed' : Fixed f.sibling) (high : height t ≤ 127)
    (high' : height f.sibling ≤ 127) :
    factor narrow (f.plug t) = .ok (signed f.side (height t - height f.sibling)) := by
  have low := fixed.nonneg
  have low' := fixed'.nonneg
  obtain ⟨side, a, x, w⟩ := f
  simp only at high' low'
  cases side with
  | left =>
    simp only [Frame.plug, factor, signed]
    exact keeps _ (by omega) (by omega)
  | right =>
    simp only [Frame.plug, factor, signed, neg_sub]
    exact keeps _ (by omega) (by omega)

/-- The rotation that lifts a child. -/
theorem turn_hoists (side : g.side = f.side) (fixed : Fixed u) (inner : Fixed g.sibling)
    (high : height u ≤ 125) (highInner : height g.sibling ≤ 125) (highOther : height f.sibling ≤ 125) :
    turn narrow f.side (f.plug (g.plug u)) = .ok (hoisted f g u) := by
  rw [turn_plug side, fixHeight_stamps keeps inner (by omega) (by omega), ok_bind]
  refine fixHeight_stamps (f := { g with sibling := _ }) keeps fixed (by omega) ?_
  simp only [height_plug, stamp]
  omega

/-- The lighter child is not higher when it has been turned. -/
theorem steady_fixed (s : Side) (fixed : Fixed t) (high : height t ≤ 125) :
    ∃ v, steady narrow s t = .ok v ∧ Fixed v ∧ height v ≤ height t := by
  by_cases leaf : 0 < height t
  · obtain ⟨f, u, rfl, rfl, fixedU, fixedF, stored⟩ := fixed.exists_plug s leaf
    have factored := factor_signed (f := f) keeps fixedU fixedF (by omega) (by omega)
    -- turned or not, the lighter child is no higher than before
    by_cases outward : height f.sibling < height u
    · have low := fixedF.nonneg
      obtain ⟨g, w, side, rfl, fixedW, fixedG, stored'⟩ := fixedU.exists_plug f.side (by omega)
      have turned := turn_hoists keeps side fixedW fixedG (by omega) (by omega) (by omega)
      refine ⟨hoisted f g w, ?_, fixed_hoisted fixedW fixedG fixedF, ?_⟩
      · rw [steady, factored, ok_bind, signed_signed, if_pos (by omega), turned]
      · rw [height_hoisted]
        omega
    · refine ⟨f.plug u, ?_, fixed, le_rfl⟩
      rw [steady, factored, ok_bind, signed_signed, if_neg (by omega)]
  · -- nothing and a new leaf have the factor zero
    have even : factor narrow t = .ok 0 := by
      cases t with
      | nil => rfl
      | node a l x r =>
        obtain ⟨left, right, stored⟩ := fixed
        have low := left.nonneg
        rw [height_node] at leaf
        obtain ⟨_, rfl, rfl⟩ := stored.resolve_left (by omega)
        exact keeps 0 (by omega) (by omega)
    refine ⟨t, ?_, fixed, le_rfl⟩
    rw [steady, even, ok_bind, if_neg (by cases s <;> simp [signed])]

/-- A node whose heights do not differ by exactly two gets its height, and stays. -/
theorem balance_stays (fixed : Fixed t) (fixed' : Fixed f.sibling) (high : height t ≤ 126)
    (high' : height f.sibling ≤ 126) (here : height t ≠ height f.sibling + 2)
    (there : height f.sibling ≠ height t + 2) :
    balance narrow (f.plug t) = .ok ((stamp f t).plug t) := by
  simp only [balance, fixHeight_stamps keeps fixed high high', ok_bind]
  rw [factor_signed (f := stamp f t) keeps fixed fixed' (by omega) (by rw [stamp_sibling]; omega), ok_bind]
  apply rotate_rest
  · rw [stamp_side, stamp_sibling]
    cases f.side <;> simp only [signed] <;> omega
  · rw [stamp_side, stamp_sibling]
    cases f.side <;> simp only [signed] <;> omega

/-- The child that is two higher is lifted: the node becomes as high as the child was when that
tilts outward, and one higher, tilting back, when it tilts inward. -/
theorem balance_hoists (fixed : Fixed t) (fixed' : Fixed f.sibling) (high : height t ≤ 126)
    (higher : height t = height f.sibling + 2) :
    ∃ w, balance narrow (f.plug t) = .ok w ∧ Fixed w ∧ height w ≤ height t + 1 ∧
      (Tilts f.side t → height w = height t) ∧
      (Tilts f.side.other t → height w = height t + 1 ∧ Tilts f.side.other w) := by
  have low := fixed'.nonneg
  obtain ⟨g, u, side, rfl, fixedU, fixedG, stored⟩ := fixed.exists_plug f.side (by omega)
  obtain ⟨v, steadied, fixedV, notHigher⟩ := steady_fixed keeps f.side.other fixed' (by omega)
  have turned := turn_hoists (f := { stamp f (g.plug u) with sibling := v }) keeps side fixedU fixedG
    (by omega) (by omega) (by simp only; omega)
  have stamped := fixHeight_stamps (f := f) keeps fixed high (by omega)
  have factored := factor_signed (f := stamp f (g.plug u)) keeps fixed fixed' (by omega) (by rw [stamp_sibling]; omega)
  have two : height (g.plug u) - height f.sibling = 2 := by omega
  refine ⟨hoisted { stamp f (g.plug u) with sibling := v } g u, ?_, fixed_hoisted fixedU fixedG fixedV, ?_, ?_, ?_⟩
  · simp only [balance, stamped, factored, ok_bind, stamp_sibling, two]
    rw [rotate_heavy, stamp_side, stamp_sibling, steadied, ok_bind]
    exact turned
  · rw [height_hoisted]
    simp only
    omega
  · rw [← side, tilts_plug, height_hoisted]
    simp only
    omega
  · rw [← side, tilts_other_plug, height_hoisted]
    intro inward
    refine ⟨by simp only; omega, (tilts_other_plug (f := stamp { g with sibling := _ } u)).mpr ?_⟩
    rw [stamp_sibling, height_plug]
    simp only [stamp]
    omega

/-- Whichever child is higher, the node comes out at most one higher than that. -/
theorem balance_fixed (fixed : Fixed t) (fixed' : Fixed f.sibling) (high : height t ≤ 126)
    (high' : height f.sibling ≤ 126) :
    ∃ w, balance narrow (f.plug t) = .ok w ∧ Fixed w ∧ height w ≤ max (height t) (height f.sibling) + 1 := by
  by_cases here : height t = height f.sibling + 2
  · obtain ⟨w, run, fixedW, most, _⟩ := balance_hoists keeps fixed fixed' high here
    exact ⟨w, run, fixedW, by omega⟩
  · by_cases there : height f.sibling = height t + 2
    · obtain ⟨w, run, fixedW, most, _⟩ := balance_hoists (f := f.swap t) keeps fixed' fixed high' there
      rw [Frame.plug_swap] at run
      exact ⟨w, run, fixedW, by omega⟩
    · refine ⟨_, balance_stays keeps fixed fixed' high high' here there, fixed_stamp fixed fixed', ?_⟩
      simp [stamp]

end

/-! ## The way up -/

/-- A subtree at the end of a path is stored one higher than before, tilting to the side: a node
below the root does not become higher, as it lifts its child and that tilts outward. -/
def Absorbs : Context (NodeData K V) → AvlTree K V → Side → Prop
  | f :: g :: fs, u, s =>
    if height f.sibling + 1 = height u then s = f.side ∨ Absorbs (g :: fs) (f.plug u) f.side.other
    else Absorbs (g :: fs) (f.plug u) f.side
  | _, _, _ => False

instance decidableAbsorbs : (ctx : Context (NodeData K V)) → (u : AvlTree K V) → (s : Side) →
    Decidable (Absorbs ctx u s)
  | f :: g :: fs, u, s =>
    have := decidableAbsorbs (g :: fs) (f.plug u) f.side.other
    have := decidableAbsorbs (g :: fs) (f.plug u) f.side
    inferInstanceAs (Decidable (if height f.sibling + 1 = height u then
      s = f.side ∨ Absorbs (g :: fs) (f.plug u) f.side.other else Absorbs (g :: fs) (f.plug u) f.side))
  | [_], _, _ => isFalse id
  | [], _, _ => isFalse id

section Path

variable {narrow : Narrowing} {ctx : Context (NodeData K V)} {f : Frame (NodeData K V)} {t u : AvlTree K V} {s : Side}

theorem fixed_inner (fixed : Fixed (ctx.plug u)) : Fixed u := by
  induction ctx generalizing u with
  | nil => exact fixed
  | cons f fs ih => exact (fixed_plug.mp (ih fixed)).1

/-- The node above a subtree is higher. -/
theorem Fixed.frame (fixed : Fixed (f.plug u)) (present : u ≠ .nil) :
    Fixed u ∧ Fixed f.sibling ∧ height (f.plug u) = max (height u) (height f.sibling) + 1 := by
  obtain ⟨inner, other, stored⟩ := fixed_plug.mp fixed
  refine ⟨inner, other, ?_⟩
  rw [height_plug]
  exact stored.resolve_right fun leaf => present leaf.2.1

/-- Every node on a path is higher than the one below it. -/
theorem height_add_length (fixed : Fixed (ctx.plug u)) (present : u ≠ .nil) :
    height u + ctx.length ≤ height (ctx.plug u) := by
  induction ctx generalizing u with
  | nil => simp
  | cons f fs ih =>
    have outside : Fixed (Context.plug fs (f.plug u)) := fixed
    have next := ih outside (f.plug_ne_nil u)
    obtain ⟨_, _, stored⟩ := (fixed_inner outside).frame present
    simp only [List.length_cons, Context.plug_cons]
    omega

section

variable (keeps : ∀ z, -128 ≤ z → z ≤ 127 → narrow z = .ok z)
include keeps

/-- A subtree that is not higher than before makes no node above it higher. -/
theorem resume_low (fixed : Fixed (ctx.plug u)) (high : height (ctx.plug u) ≤ 127) (present : u ≠ .nil)
    (fixed' : Fixed t) (low : height t ≤ height u) :
    ∃ t', resume narrow ctx t = .ok t' ∧ Fixed t' ∧ height t' ≤ 127 := by
  induction ctx generalizing t u with
  | nil => exact ⟨t, rfl, fixed', low.trans high⟩
  | cons f fs ih =>
    have outside : Fixed (Context.plug fs (f.plug u)) := fixed
    have most := height_add_length outside (f.plug_ne_nil u)
    obtain ⟨_, other, stored⟩ := (fixed_inner outside).frame present
    rw [Context.plug_cons] at high
    obtain ⟨w, run, fixedW, lowW⟩ := balance_fixed keeps fixed' other (by omega) (by omega)
    rw [resume_cons, run, ok_bind]
    exact ih outside high (f.plug_ne_nil u) fixedW (by omega)

/-- A node above a subtree that is one higher than before becomes one higher too, and tilts to the
subtree or away from it, unless its other child is higher or it lifts a child that tilts outward. -/
theorem balance_grown (other : Fixed f.sibling) (fixed' : Fixed t) (positive : 0 ≤ height u)
    (stored : height (f.plug u) = max (height u) (height f.sibling) + 1) (grown : height t = height u + 1)
    (tilts : 0 < height u → Tilts s t) (high : height u ≤ 125) (high' : height f.sibling ≤ 126) :
    ∃ w, balance narrow (f.plug t) = .ok w ∧ Fixed w ∧
      (height u < height f.sibling ∨ (height f.sibling + 1 = height u ∧ s = f.side) → height w ≤ height (f.plug u)) ∧
      (height f.sibling ≤ height u → ¬ (height f.sibling + 1 = height u ∧ s = f.side) →
        height w = height (f.plug u) + 1 ∧
          Tilts (if height f.sibling + 1 = height u then f.side.other else f.side) w) := by
  have low := other.nonneg
  -- one higher than its sibling before, the subtree is two higher now, and is lifted
  by_cases lifted : height f.sibling + 1 = height u
  · obtain ⟨w, run, fixedW, _, outward, inward⟩ := balance_hoists keeps fixed' other (by omega) (by omega)
    have tilts := tilts (by omega)
    refine ⟨w, run, fixedW, ?_, fun _ notOutward => ?_⟩
    · rintro (higher | ⟨_, rfl⟩)
      · omega
      · have := outward tilts
        omega
    · obtain rfl := (Side.eq_or_other f.side s).resolve_left fun same => notOutward ⟨lifted, same⟩
      obtain ⟨grownW, tiltsW⟩ := inward tilts
      rw [if_pos lifted]
      exact ⟨by omega, tiltsW⟩
  · by_cases higher : height u < height f.sibling
    · obtain ⟨w, run, fixedW, lowW⟩ := balance_fixed keeps fixed' other (by omega) (by omega)
      refine ⟨w, run, fixedW, fun _ => by omega, fun notHigher => by omega⟩
    · refine ⟨_, balance_stays keeps fixed' other (by omega) (by omega) (by omega) (by omega),
        fixed_stamp fixed' other, ?_, fun _ _ => ?_⟩
      · rintro (absurdly | ⟨same, _⟩)
        · omega
        · omega
      · rw [if_neg lifted, height_plug, ← stamp_side (f := f) (t := t), tilts_plug, stamp_sibling]
        simp only [stamp]
        omega

omit keeps in
theorem absorbs_cons {g : Frame (NodeData K V)} {fs : Context (NodeData K V)} :
    Absorbs (f :: g :: fs) u s ↔ (height f.sibling + 1 = height u ∧ s = f.side) ∨
      Absorbs (g :: fs) (f.plug u) (if height f.sibling + 1 = height u then f.side.other else f.side) := by
  by_cases lifted : height f.sibling + 1 = height u <;> simp [Absorbs, lifted]

/-- The way up from a subtree that is one higher than before, when the path is short or the growth is absorbed. -/
theorem resume_grown (fixed : Fixed (ctx.plug u)) (high : height (ctx.plug u) ≤ 127) (present : u ≠ .nil)
    (fixed' : Fixed t) (grown : height t = height u + 1) (tilts : 0 < height u → Tilts s t)
    (room : height t + ctx.length ≤ 127 ∨ Absorbs ctx u s) :
    ∃ t', resume narrow ctx t = .ok t' ∧ Fixed t' ∧ height t' ≤ 127 := by
  induction ctx generalizing t u s with
  | nil => exact ⟨t, rfl, fixed', by simpa using room.resolve_right id⟩
  | cons f fs ih =>
    have outside : Fixed (Context.plug fs (f.plug u)) := fixed
    have most := height_add_length outside (f.plug_ne_nil u)
    obtain ⟨inner, other, stored⟩ := (fixed_inner outside).frame present
    rw [Context.plug_cons] at high
    have atRoot : height u ≤ 125 := by
      cases fs with
      | nil =>
        have short := room.resolve_right id
        simp only [List.length_cons, List.length_nil] at short
        omega
      | cons g fs =>
        simp only [List.length_cons] at most
        omega
    obtain ⟨w, run, fixedW, absorbed, grows⟩ := balance_grown keeps other fixed' inner.nonneg stored grown tilts
      atRoot (by omega)
    rw [resume_cons, run, ok_bind]
    -- the growth ends here, or goes on to the next node
    by_cases ends : height u < height f.sibling ∨ (height f.sibling + 1 = height u ∧ s = f.side)
    · exact resume_low keeps outside high (f.plug_ne_nil u) fixedW (absorbed ends)
    · obtain ⟨grownW, tiltsW⟩ := grows (by omega) fun outward => ends (.inr outward)
      refine ih outside high (f.plug_ne_nil u) fixedW grownW (fun _ => tiltsW) ?_
      refine room.imp (fun short => ?_) (fun absorbs => ?_)
      · simp only [List.length_cons] at short
        omega
      · cases fs with
        | nil => exact absorbs.elim
        | cons g fs => exact (absorbs_cons.mp absorbs).resolve_left fun outward => ends (.inr outward)

omit keeps

theorem fixHeight_overflows (high : 127 ≤ height t) : fixHeight exactInt8 (f.plug t) = .error .narrow := by
  have wide : ∀ z : Int, 128 ≤ z → exactInt8 z = .error .narrow := fun z large => if_neg fun fits => by omega
  obtain ⟨side, a, x, w⟩ := f
  cases side with
  | left =>
    simp only [Frame.plug, fixHeight]
    rw [wide _ (by split <;> omega), error_bind]
  | right =>
    simp only [Frame.plug, fixHeight]
    rw [wide _ (by split <;> omega), error_bind]

/-- The longest path there can be, when nothing absorbs the growth: the root becomes too high. -/
theorem resume_overflows (fixed : Fixed (ctx.plug u)) (high : height (ctx.plug u) ≤ 127) (present : u ≠ .nil)
    (fixed' : Fixed t) (grown : height t = height u + 1) (tilts : 0 < height u → Tilts s t)
    (below : ctx ≠ []) (long : 127 ≤ height u + ctx.length) (rises : ¬ Absorbs ctx u s) :
    resume exactInt8 ctx t = .error .narrow := by
  induction ctx generalizing t u s with
  | nil => exact absurd rfl below
  | cons f fs ih =>
    have outside : Fixed (Context.plug fs (f.plug u)) := fixed
    have most := height_add_length outside (f.plug_ne_nil u)
    obtain ⟨inner, other, stored⟩ := (fixed_inner outside).frame present
    rw [Context.plug_cons] at high
    rw [List.length_cons] at long
    rw [resume_cons]
    cases fs with
    | nil =>
      -- the root: its height would be 128
      simp only [List.length_nil] at most long
      simp [balance, fixHeight_overflows (f := f) (show 127 ≤ height t by omega)]
    | cons g fs =>
      simp only [List.length_cons] at most long
      obtain ⟨w, run, fixedW, _, grows⟩ := balance_grown (fun z => exactInt8_eq) other fixed' inner.nonneg stored
        grown tilts (by omega) (by omega)
      rw [absorbs_cons, not_or] at rises
      obtain ⟨grownW, tiltsW⟩ := grows (by omega) rises.1
      rw [run, ok_bind]
      refine ih outside high (f.plug_ne_nil u) fixedW grownW (fun _ => tiltsW) (by simp) ?_ rises.2
      simp only [List.length_cons]
      omega

end

end Path

/-! ## The insertion -/

section Insert

variable {narrow : Narrowing} {f : Frame (NodeData K V)} {t : AvlTree K V} {range : Range K}

theorem fixed_leaf (n : Addr) (range : Range K) (mapped : V) : Fixed (leaf n range mapped) :=
  ⟨trivial, trivial, .inr ⟨rfl, rfl, rfl⟩⟩

/-- A node that gets a new leaf becomes higher if it was a leaf itself. -/
theorem balance_parent (n : Addr) (range : Range K) (mapped : V) (keeps : ∀ z, -128 ≤ z → z ≤ 127 → narrow z = .ok z)
    (fixed : Fixed (f.plug .nil)) (high : height (f.plug (.nil : AvlTree K V)) ≤ 127) :
    ∃ w, balance narrow (f.plug (leaf n range mapped)) = .ok w ∧ Fixed w ∧
      (0 < height (f.plug (.nil : AvlTree K V)) → height w ≤ height (f.plug (.nil : AvlTree K V))) ∧
      (height (f.plug (.nil : AvlTree K V)) = 0 → height w = 1) := by
  obtain ⟨_, other, stored⟩ := fixed_plug.mp fixed
  have low := other.nonneg
  have zero : height (leaf n range mapped) = 0 := rfl
  rw [height_plug] at high ⊢
  rw [height_nil] at stored
  by_cases isLeaf : f.load.height = 0
  · obtain ⟨_, _, alone⟩ := stored.resolve_left (by omega)
    have level : height f.sibling = 0 := by rw [alone, height_nil]
    refine ⟨_, balance_stays keeps (fixed_leaf n range mapped) other (by omega) (by omega) (by omega) (by omega),
      fixed_stamp (fixed_leaf n range mapped) other, by omega, fun _ => ?_⟩
    rw [height_plug]
    simp only [stamp]
    omega
  · have stored := stored.resolve_right fun alone => isLeaf alone.1
    obtain ⟨w, run, fixedW, lowW⟩ := balance_fixed keeps (fixed_leaf n range mapped) other
      (by omega) (by omega)
    exact ⟨w, run, fixedW, fun _ => by omega, fun isZero => absurd isZero isLeaf⟩

variable [LinearOrder K]

/-- The insertion is rejected, or passes at most 127 nodes on its way down, or its growth is
absorbed below the root. -/
def Shallow (range : Range K) (t : AvlTree K V) : Prop :=
  match attachPoint range t [] with
  | none => True
  | some [] => True
  | some (f :: fs) => (f :: fs).length ≤ 127 ∨ Absorbs fs (f.plug .nil) f.side

instance : Decidable (Shallow range t) := by
  unfold Shallow
  cases attachPoint range t [] with
  | none => exact instDecidableTrue
  | some ctx =>
    cases ctx with
    | nil => exact instDecidableTrue
    | cons f fs => exact instDecidableOr

theorem insert_shallow (n : Addr) (mapped : V) (keeps : ∀ z, -128 ≤ z → z ≤ 127 → narrow z = .ok z)
    (fixed : Fixed t) (high : height t ≤ 127)
    (shallow : t.Shallow range) :
    ∃ t' inserted, t.insert narrow n range mapped = .ok (t', inserted) ∧ Fixed t' ∧ height t' ≤ 127 := by
  unfold Shallow at shallow
  unfold AvlTree.insert
  split
  next => exact ⟨t, false, rfl, fixed, high⟩
  next => exact ⟨_, true, rfl, fixed_leaf n range mapped, by simp [leaf]⟩
  next f fs found =>
    simp only [found] at shallow
    have whole : Context.plug fs (f.plug .nil) = t := attachPoint_plug found
    rw [← whole] at fixed high
    have parent := fixed_inner fixed
    have most := height_add_length fixed (f.plug_ne_nil .nil)
    obtain ⟨w, run, fixedW, rests, grows⟩ := balance_parent n range mapped keeps parent
      (by omega)
    have climbed : ∃ t', resume narrow fs w = .ok t' ∧ Fixed t' ∧ height t' ≤ 127 := by
      -- only a parent that was a leaf becomes higher
      by_cases isLeaf : height (f.plug (.nil : AvlTree K V)) = 0
      · have one := grows isLeaf
        refine resume_grown (s := f.side) keeps fixed high (f.plug_ne_nil .nil) fixedW (by omega)
          (fun positive => by omega) ?_
        refine shallow.imp_left fun short => ?_
        rw [List.length_cons] at short
        omega
      · have low := parent.nonneg
        exact resume_low keeps fixed high (f.plug_ne_nil .nil) fixedW (rests (by omega))
    obtain ⟨t', unwound, fixed', high'⟩ := climbed
    refine ⟨t', true, ?_, fixed', high'⟩
    rw [unwind_eq, run, ok_bind, unwound, ok_bind]

theorem insert_overflows (n : Addr) (mapped : V) (fixed : Fixed t) (high : height t ≤ 127) (deep : ¬ t.Shallow range) :
    t.insert exactInt8 n range mapped = .error .narrow := by
  unfold Shallow at deep
  unfold AvlTree.insert
  split
  next found => simp [found] at deep
  next found => simp [found] at deep
  next f fs found =>
    simp only [found, not_or, not_le, List.length_cons] at deep
    obtain ⟨long, rises⟩ := deep
    have whole : Context.plug fs (f.plug .nil) = t := attachPoint_plug found
    rw [← whole] at fixed high
    have parent := fixed_inner fixed
    have low := parent.nonneg
    have most := height_add_length fixed (f.plug_ne_nil .nil)
    obtain ⟨w, run, fixedW, _, grows⟩ := balance_parent n range mapped (fun z => exactInt8_eq)
      parent (by omega)
    have one := grows (by omega)
    have overflow : resume exactInt8 fs w = .error .narrow := by
      refine resume_overflows fixed high (f.plug_ne_nil .nil) fixedW (by omega) (fun positive => by omega) ?_
        (by omega) rises
      rintro rfl
      simp at long
    rw [unwind_eq, run, ok_bind, overflow, error_bind]

end Insert

/-- No height is larger than that of the root. -/
theorem Fixed.fit {t : AvlTree K V} (fixed : Fixed t) (high : height t ≤ 127) : t.HeightsFit := by
  induction t with
  | nil => exact heightsFit_nil
  | node a l x r ihl ihr =>
    have low := fixed.nonneg
    obtain ⟨left, right, stored⟩ := fixed
    rw [height_node] at high low
    have lowL := left.nonneg
    have lowR := right.nonneg
    have below : height l ≤ 127 ∧ height r ≤ 127 := by
      rcases stored with computed | ⟨_, rfl, rfl⟩
      · omega
      · simp
    exact heightsFit_node.mpr ⟨ihl left below.1, ⟨low, high⟩, ihr right below.2⟩

end AvlTree

/-! ## Runs -/

namespace RangeMap

open AvlTree

variable [LinearOrder K] {m : RangeMap K V} {t : AvlTree K V}

/-- The insertion of the range raises no height above 127. -/
def Shallow (m : RangeMap K V) (range : Range K) : Prop := ∃ t, m.Stores t ∧ t.Shallow range

/-- What such insertions keep. -/
structure Stamped (m : RangeMap K V) (t : AvlTree K V) : Prop where
  stores : m.Stores t
  fixed : t.Fixed
  high : t.height ≤ 127

theorem Stamped.insert (stamped : m.Stamped t) {narrow : Narrowing}
    (keeps : ∀ z, -128 ≤ z → z ≤ 127 → narrow z = .ok z) {e : Entry K V} (fresh : m.nodes.lookup e.1 = none)
    (shallow : m.Shallow e.2.1) :
    ∃ m' t' inserted, m.insert narrow (some e.1) e.2.1.min e.2.1.max e.2.2 = .ok (m', inserted) ∧ m'.Stamped t' := by
  obtain ⟨t₀, stores₀, shallow⟩ := shallow
  obtain rfl := stamped.stores.unique stores₀
  obtain ⟨t', inserted, spec, fixed', high'⟩ := insert_shallow e.1 e.2.2 keeps stamped.fixed
    stamped.high shallow
  have follows := insertNode_follows narrow e.2.1 e.2.2 stamped.stores fresh
  simp only [spec] at follows
  obtain ⟨m', run, stores', _⟩ := follows
  exact ⟨m', t', inserted, run, stores', fixed', high'⟩

theorem Stamped.insert_iff (stamped : m.Stamped t) {e : Entry K V} (fresh : m.nodes.lookup e.1 = none) :
    (∃ m' inserted, m.insert exactInt8 (some e.1) e.2.1.min e.2.1.max e.2.2 = .ok (m', inserted)) ↔
      m.Shallow e.2.1 := by
  constructor
  · rintro ⟨m', inserted, run⟩
    by_contra deep
    have overflow := insert_overflows e.1 e.2.2 stamped.fixed stamped.high
      (fun shallow => deep ⟨t, stamped.stores, shallow⟩)
    have follows := insertNode_follows exactInt8 e.2.1 e.2.2 stamped.stores fresh
    simp only [overflow] at follows
    cases follows.symm.trans run
  · intro shallow
    obtain ⟨m', t', inserted, run, _⟩ := stamped.insert (fun z => exactInt8_eq) fresh shallow
    exact ⟨m', inserted, run⟩

theorem run_stamped
    (run : Execution.Runs (· = init) (fun m e => m.nodes.lookup e.1 = none ∧ m.Shallow e.2.1) insertEntry m) :
    ∃ t, m.Stamped t := by
  apply run.invariant
  · rintro m rfl
    exact ⟨.nil, stores_init, trivial, by simp⟩
  · rintro m e m₁ ⟨t, stamped⟩ ⟨fresh, shallow⟩ stepped
    obtain ⟨m', t', inserted, run, stamped'⟩ := stamped.insert (fun z => wrapInt8_eq) fresh shallow
    obtain rfl : m' = m₁ := by simpa [insertEntry, run, Except.map] using stepped
    exact ⟨t', stamped'⟩

/-- While every insertion is shallow, no stored height is outside `int8_t`, and the next insertion
converts no value that is outside it exactly if it is shallow as well. -/
theorem run_shallow
    (run : Execution.Runs (· = init) (fun m e => m.nodes.lookup e.1 = none ∧ m.Shallow e.2.1) insertEntry m) :
    (∃ t, m.Stores t ∧ t.HeightsFit) ∧ ∀ e : Entry K V, m.nodes.lookup e.1 = none →
      ((∃ m' inserted, m.insert exactInt8 (some e.1) e.2.1.min e.2.1.max e.2.2 = .ok (m', inserted)) ↔
        m.Shallow e.2.1) := by
  obtain ⟨t, stamped⟩ := run_stamped run
  exact ⟨⟨t, stamped.stores, stamped.fixed.fit stamped.high⟩, fun e fresh => stamped.insert_iff fresh⟩

/-! ### Insertions on trees -/

def plant (t : AvlTree K V) (e : Entry K V) : Except Fault (AvlTree K V) :=
  (t.insert exactInt8 e.1 e.2.1 e.2.2).map Prod.fst

theorem plant_eq_ok {e : Entry K V} {t' : AvlTree K V} (planted : plant t e = .ok t') :
    ∃ inserted, t.insert exactInt8 e.1 e.2.1 e.2.2 = .ok (t', inserted) := by
  unfold RangeMap.plant at planted
  cases spec : t.insert exactInt8 e.1 e.2.1 e.2.2 with
  | error fault => simp [spec, Except.map] at planted
  | ok result =>
    obtain rfl : result.1 = t' := by simpa [spec, Except.map] using planted
    exact ⟨result.2, rfl⟩

/-- A map that owns a tree does what the tree does. -/
theorem Owns.plant (owns : m.Owns t) {e : Entry K V} {t' : AvlTree K V} (outside : e.1 ∉ t.addrs)
    (planted : RangeMap.plant t e = .ok t') :
    m.nodes.lookup e.1 = none ∧ ∃ m' inserted,
      m.insert wrapInt8 (some e.1) e.2.1.min e.2.1.max e.2.2 = .ok (m', inserted) ∧ m'.Owns t' ∧
      ∀ a ∈ t'.addrs, a = e.1 ∨ a ∈ t.addrs := by
  have fresh : m.nodes.lookup e.1 = none := by
    refine Option.eq_none_iff_forall_ne_some.mpr fun n found => outside ?_
    exact (owns.exist e.1).mp ⟨n, found⟩
  obtain ⟨inserted, spec⟩ := plant_eq_ok planted
  have fits : m.insert exactInt8 (some e.1) e.2.1.min e.2.1.max e.2.2 ≠ .error .narrow := by
    have follows := insertNode_follows exactInt8 e.2.1 e.2.2 owns.stores fresh
    simp only [spec] at follows
    obtain ⟨m₁, exactly, _⟩ := follows
    intro wide
    cases exactly.symm.trans wide
  obtain ⟨m₁, t₁, inserted', done, spec', owns'⟩ := owns.insert fresh fits
  obtain ⟨rfl, rfl⟩ := Prod.mk.inj (Except.ok.inj (spec.symm.trans spec'))
  refine ⟨fresh, m₁, inserted, done, owns', fun a member => ?_⟩
  rcases insert_addrs spec with ⟨_, gained⟩ | ⟨_, rfl⟩
  · exact List.mem_cons.mp (gained.mem_iff.mp member)
  · exact .inr member

/-- The run of a map through insertions that the tree has taken. -/
theorem Owns.plantAll {kind : RangeMap K V → Entry K V → Prop} {es : List (Entry K V)} {t' : AvlTree K V}
    (owns : m.Owns t) (run : Execution.Runs (· = init) kind insertEntry m) (distinct : (es.map Prod.fst).Nodup)
    (outside : ∀ e ∈ es, e.1 ∉ t.addrs)
    (allows : ∀ m t t₁, ∀ e ∈ es, m.Owns t → Execution.Runs (· = init) kind insertEntry m →
      m.nodes.lookup e.1 = none → RangeMap.plant t e = .ok t₁ → kind m e)
    (planted : es.foldlM RangeMap.plant t = .ok t') :
    ∃ m', insertAll m es = .ok m' ∧ m'.Owns t' ∧ Execution.Runs (· = init) kind insertEntry m' ∧
      ∀ a ∈ t'.addrs, a ∈ es.map Prod.fst ∨ a ∈ t.addrs := by
  induction es generalizing m t with
  | nil =>
    obtain rfl : t = t' := Except.ok.inj planted
    exact ⟨m, rfl, owns, run, fun a member => .inr member⟩
  | cons e es ih =>
    rw [List.foldlM_cons] at planted
    obtain ⟨t₁, stepped, planted⟩ := bind_eq_ok planted
    obtain ⟨fresh, m₁, inserted, done, owns₁, gained⟩ := owns.plant (outside e List.mem_cons_self) stepped
    obtain ⟨new, distinct⟩ := List.nodup_cons.mp distinct
    have next := run.step (allows m t t₁ e List.mem_cons_self owns run fresh stepped)
      (show m.insertEntry e = .ok m₁ by simp [insertEntry, done, Except.map])
    -- the addresses to come are different from those used by now
    have outsideRest : ∀ f ∈ es, f.1 ∉ t₁.addrs := by
      intro f member inside
      rcases gained f.1 inside with same | old
      · exact new (List.mem_map.mpr ⟨f, member, same⟩)
      · exact outside f (List.mem_cons_of_mem e member) old
    obtain ⟨m', rest, owns', run', all⟩ := ih owns₁ next distinct outsideRest
      (fun m t t₁ f member => allows m t t₁ f (List.mem_cons_of_mem e member)) planted
    refine ⟨m', by simp [insertAll, done, rest], owns', run', fun a member => ?_⟩
    rcases all a member with later | inTree
    · exact .inl (List.mem_cons_of_mem _ later)
    · rcases gained a inTree with rfl | old
      · exact .inl List.mem_cons_self
      · exact .inr old

/-! ### A run that raises the height with every insertion -/

/-- The smaller ranges, in ascending order. -/
def rung (i : Nat) : Range Nat := ⟨2 * i, 2 * i + 1⟩

/-- One large range, and then the first smaller ones: all but the last two form a chain above it. -/
def ladder : Nat → Nat → AvlTree Nat Nat
  | i, 0 => .node 1000 (.node i .nil ⟨1, rung i, 0⟩ (leaf (i + 1) (rung (i + 1)) 0)) ⟨2, ⟨1000, 1001⟩, 0⟩ .nil
  | i, d + 1 => .node i .nil ⟨d + 3, rung i, 0⟩ (ladder (i + 1) d)

theorem height_ladder (i d : Nat) : height (ladder i d) = d + 2 := by
  cases d with
  | zero => rfl
  | succ d =>
    rw [ladder, height_node]
    push_cast
    omega

theorem fixed_ladder (i d : Nat) : Fixed (ladder i d) := by
  induction d generalizing i with
  | zero => exact ⟨⟨trivial, fixed_leaf _ _ _, .inl rfl⟩, trivial, .inl rfl⟩
  | succ d ih =>
    refine ⟨trivial, ih (i + 1), .inl ?_⟩
    rw [height_ladder, height_nil]
    simp only
    omega

theorem rung_after {i j : Nat} (less : i < j) : (rung j).compareTo (rung i) = 1 :=
  Range.compareTo_eq_one.mpr ⟨by simp only [rung]; omega, by simp only [rung]; omega⟩

theorem balance_ladder (d i : Nat) (z : Int) (room : d + 4 ≤ 127) :
    balance exactInt8 (.node i .nil ⟨z, rung i, 0⟩ (ladder (i + 1) (d + 1))) = .ok (ladder i (d + 2)) := by
  have stays := balance_stays (f := ⟨.right, i, ⟨z, rung i, 0⟩, .nil⟩) (t := ladder (i + 1) (d + 1))
    (fun z => exactInt8_eq) (fixed_ladder _ _) trivial
  rw [height_ladder, height_nil] at stays
  have stays := stays (by omega) (by omega) (by omega) (by omega)
  have taller : max (((d + 1 : Nat) : Int) + 2) 0 + 1 = ((d + 1 : Nat) : Int) + 3 := by omega
  simp only [Frame.plug, stamp, height_ladder, height_nil, taller] at stays
  exact stays

/-- The next range passes all the others, and makes the ladder one higher. -/
theorem ladder_grows (d i : Nat) (ctx : Context (NodeData Nat Nat)) (small : i + d < 400) (room : d + 3 ≤ 127) :
    ∃ f inner, attachPoint (rung (i + d + 2)) (ladder i d) ctx = some (f :: inner ++ ctx) ∧
      unwind exactInt8 (inner ++ ctx) (f.plug (leaf (i + d + 2) (rung (i + d + 2)) 0)) =
        resume exactInt8 ctx (ladder i (d + 1)) := by
  induction d generalizing i ctx with
  | zero =>
    have before : (rung (i + 2)).compareTo ⟨1000, 1001⟩ = -1 := by
      rw [Range.compareTo_eq, if_neg (by simp only [Range.Before, rung]; omega),
        if_pos ⟨by simp only [rung]; omega, by simp only [rung]; omega⟩]
    refine ⟨⟨.right, i + 1, ⟨0, rung (i + 1), 0⟩, .nil⟩, [⟨.right, i, ⟨1, rung i, 0⟩, .nil⟩,
      ⟨.left, 1000, ⟨2, ⟨1000, 1001⟩, 0⟩, .nil⟩], ?_, ?_⟩
    · simp [ladder, leaf, attachPoint, before, rung_after (show i < i + 2 by omega),
        rung_after (show i + 1 < i + 2 by omega)]
    · simp only [List.cons_append, List.nil_append, unwind, unwind_eq exactInt8 ctx]
      rfl
  | succ d ih =>
    obtain ⟨f, inner, attached, unwound⟩ := ih (i + 1) (⟨.right, i, ⟨d + 3, rung i, 0⟩, .nil⟩ :: ctx) (by omega)
      (by omega)
    rw [show i + 1 + d + 2 = i + (d + 1) + 2 by omega] at attached unwound
    refine ⟨f, inner ++ [⟨.right, i, ⟨d + 3, rung i, 0⟩, .nil⟩], ?_, ?_⟩
    · simpa [ladder, attachPoint, rung_after (show i < i + (d + 1) + 2 by omega)] using attached
    · rw [List.append_assoc, List.singleton_append, unwound, resume_cons, Frame.plug,
        balance_ladder d i (d + 3) (by omega), ok_bind]

/-- The large range, and then as many smaller ones. -/
def rungs (n : Nat) : List (Entry Nat Nat) := (1000, ⟨1000, 1001⟩, 0) :: (List.range n).map fun i => (i, rung i, 0)

theorem rungs_planted (d : Nat) (room : d ≤ 125) : (rungs (d + 2)).foldlM plant .nil = .ok (ladder 0 d) := by
  induction d with
  | zero => rfl
  | succ d ih =>
    obtain ⟨f, inner, attached, unwound⟩ := ladder_grows d 0 [] (by omega) (by omega)
    rw [List.append_nil, Nat.zero_add] at attached unwound
    have inserted : plant (ladder 0 d) (d + 2, rung (d + 2), 0) = .ok (ladder 0 (d + 1)) := by
      simp [plant, AvlTree.insert, attached, unwound, resume, Except.map]
    have more : rungs (d + 1 + 2) = rungs (d + 2) ++ [(d + 2, rung (d + 2), 0)] := by
      rw [rungs, rungs, List.range_succ, List.map_append, List.cons_append]
      rfl
    rw [more, List.foldlM_append, ih (by omega), ok_bind, List.foldlM_cons, inserted]
    rfl

theorem rungs_distinct (n : Nat) (few : n ≤ 1000) : ((rungs n).map Prod.fst).Nodup := by
  have addrs : (rungs n).map Prod.fst = 1000 :: List.range n := by simp [rungs, Function.comp_def]
  rw [addrs]
  exact List.nodup_cons.mpr ⟨fun member => by simp at member; omega, List.nodup_range⟩

theorem rungs_proper {n : Nat} (few : n ≤ 1000) {e : Entry Nat Nat} (member : e ∈ rungs n) :
    e.2.1.min < e.2.1.max ∧ e.1 < 2 ^ 64 := by
  rcases List.mem_cons.mp member with rfl | later
  · exact ⟨by decide, by decide⟩
  · obtain ⟨i, inRange, rfl⟩ := List.mem_map.mp later
    rw [List.mem_range] at inRange
    exact ⟨by simp [rung], (inRange.trans_le few).trans (by decide)⟩

/-- The ladder can get one higher, but the chain of which it is a part cannot. -/
theorem ladder_overflows {d : Nat} (most : d + 3 = 127) :
    (ladder 0 (d + 1)).insert exactInt8 (d + 3) (rung (d + 3)) 0 = .error .narrow := by
  obtain ⟨f, inner, attached, unwound⟩ := ladder_grows d 1 [⟨.right, 0, ⟨d + 3, rung 0, 0⟩, .nil⟩] (by omega) (by omega)
  rw [show 1 + d + 2 = d + 3 by omega] at attached unwound
  have passed : attachPoint (rung (d + 3)) (ladder 0 (d + 1)) [] =
      some (f :: inner ++ [⟨.right, 0, ⟨d + 3, rung 0, 0⟩, .nil⟩]) := by
    simpa [ladder, attachPoint, rung_after (show 0 < d + 3 by omega)] using attached
  have top : height (ladder 1 (d + 1)) = 127 := by
    rw [height_ladder]
    omega
  simp only [AvlTree.insert, passed, List.cons_append, unwound, resume_cons, balance,
    fixHeight_overflows (f := ⟨.right, 0, ⟨d + 3, rung 0, 0⟩, .nil⟩) top.ge, error_bind]

theorem Stores.overflows {m : RangeMap Nat Nat} {d : Nat} (stores : m.Stores (ladder 0 (d + 1))) (most : d + 3 = 127)
    (fresh : m.nodes.lookup (d + 3) = none) :
    m.insert exactInt8 (some (d + 3)) (rung (d + 3)).min (rung (d + 3)).max 0 = .error .narrow := by
  have follows := insertNode_follows exactInt8 (rung (d + 3)) 0 stores fresh
  simp only [ladder_overflows most] at follows
  exact follows

/-- The run of a map that gets the large range and the smaller ones, and the tree it has then. -/
theorem rungs_inserted {kind : RangeMap Nat Nat → Entry Nat Nat → Prop} (d : Nat) (room : d ≤ 125)
    (allows : ∀ m t t₁, ∀ e ∈ rungs (d + 2), m.Owns t → Execution.Runs (· = init) kind insertEntry m →
      m.nodes.lookup e.1 = none → plant t e = .ok t₁ → kind m e) :
    ∃ m, insertAll .init (rungs (d + 2)) = .ok m ∧ Execution.Runs (· = init) kind insertEntry m ∧
      m.Owns (ladder 0 d) ∧ m.nodes.lookup (d + 2) = none := by
  obtain ⟨m, run, owns, reached, inside⟩ := owns_init.plantAll (.start rfl) (rungs_distinct (d + 2) (by omega))
    (by simp) allows (rungs_planted d room)
  -- the nodes of the map are at the addresses that it was given
  refine ⟨m, run, reached, owns, Option.eq_none_iff_forall_ne_some.mpr fun n found => ?_⟩
  rcases inside (d + 2) ((owns.exist (d + 2)).mp ⟨n, found⟩) with given | inNil
  · simp [rungs] at given
    omega
  · simp at inNil

theorem rungs_overflow {d : Nat} (most : d + 3 = 127) : ∃ (m : RangeMap Nat Nat) (e : Entry Nat Nat),
    insertAll .init (rungs (d + 3)) = .ok m ∧ Execution.Runs (· = init) Insertable insertEntry m ∧
      m.Insertable e ∧ m.insert exactInt8 (some e.1) e.2.1.min e.2.1.max e.2.2 = .error .narrow := by
  have allows : ∀ m t t₁, ∀ e ∈ rungs (d + 3), m.Owns t → Execution.Runs (· = init) Insertable insertEntry m →
      m.nodes.lookup e.1 = none → plant t e = .ok t₁ → m.Insertable e := by
    intro m t t₁ e member _ _ fresh _
    obtain ⟨least, inRange⟩ := rungs_proper (by omega) member
    exact ⟨least, fresh, inRange⟩
  obtain ⟨m, run, reached, owns, fresh⟩ := rungs_inserted (d + 1) (by omega) allows
  exact ⟨m, (d + 3, rung (d + 3), 0), run, reached,
    ⟨by simp [rung], fresh, lt_of_le_of_lt (show d + 3 ≤ 127 by omega) (by decide)⟩,
    owns.stores.overflows most fresh⟩

/-- After 128 insertions, of a large range and then of smaller ones in ascending order, the next
one computes a height of 128 at the root. -/
theorem insert_overflows_ascending : ∃ (es : List (Entry Nat Nat)) (m : RangeMap Nat Nat) (e : Entry Nat Nat),
    es.length = 128 ∧ insertAll .init es = .ok m ∧ Execution.Runs (· = init) Insertable insertEntry m ∧
      m.Insertable e ∧ m.insert exactInt8 (some e.1) e.2.1.min e.2.1.max e.2.2 = .error .narrow := by
  obtain ⟨m, e, overflow⟩ := rungs_overflow (d := 124) rfl
  exact ⟨rungs 127, m, e, by simp [rungs], overflow⟩

/-- The insertions of the ladder are shallow, as the tree takes them. -/
theorem rungs_shallow (d : Nat) (room : d ≤ 125) : ∃ m : RangeMap Nat Nat,
    insertAll .init (rungs (d + 2)) = .ok m ∧
      Execution.Runs (· = init) (fun m e => m.nodes.lookup e.1 = none ∧ m.Shallow e.2.1) insertEntry m ∧
      m.Owns (ladder 0 d) ∧ m.nodes.lookup (d + 2) = none := by
  refine rungs_inserted d room fun m t t₁ e _ owns run fresh planted => ⟨fresh, ?_⟩
  obtain ⟨t', stamped⟩ := run_stamped run
  obtain ⟨inserted, spec⟩ := plant_eq_ok planted
  have follows := insertNode_follows exactInt8 e.2.1 e.2.2 owns.stores fresh
  simp only [spec] at follows
  obtain ⟨m₁, exactly, _⟩ := follows
  exact (stamped.insert_iff fresh).mp ⟨m₁, inserted, exactly⟩

/-- 128 shallow insertions, which rotate at the large range from the fourth on. The next one would
pass all the nodes, and converts a height of 128; one above the large range passes two less. -/
theorem run_shallow_ladder : ∃ m : RangeMap Nat Nat, insertAll .init (rungs 127) = .ok m ∧
    (∃ t, m.Stores t ∧ t.HeightsFit) ∧
    ¬ (∃ m' inserted, m.insert exactInt8 (some 127) 254 255 0 = .ok (m', inserted)) ∧
    ∃ m' inserted, m.insert exactInt8 (some 127) 3000 3001 0 = .ok (m', inserted) := by
  obtain ⟨m, done, run, owns, fresh⟩ := rungs_shallow 125 le_rfl
  obtain ⟨fit, next⟩ := run_shallow run
  have above : (ladder 0 125).Shallow ⟨3000, 3001⟩ := by decide +kernel
  refine ⟨m, done, fit, ?_, (next (127, ⟨3000, 3001⟩, 0) fresh).mpr ⟨_, owns.stores, above⟩⟩
  rintro ⟨m', inserted, taken⟩
  cases (owns.stores.overflows (d := 124) rfl fresh).symm.trans taken

end RangeMap

end SmallObject
