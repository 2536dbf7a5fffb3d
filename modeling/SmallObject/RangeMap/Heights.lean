import SmallObject.Library.BalancedTree
import SmallObject.RangeMap.Unwind

/-! What balancing a node makes of the true heights.

A new leaf is stored with height zero, so after insertions every stored height is one below
the true height; `HeightsLag` covers this and heights that are exact. The double rotation is
chosen by the wrong child: the lighter one is turned when it leans outward, and the heavier
one is lifted as it is.
-/

set_option autoImplicit false

namespace SmallObject

open Linked LinkTree

variable {K V : Type}

namespace AvlTree

/-- Every stored height is the true one less the lag. -/
def HeightsLag (lag : Nat) : AvlTree K V → Prop
  | .nil => True
  | .node _ l x r =>
    HeightsLag lag l ∧ HeightsLag lag r ∧ x.height = ((max l.depth r.depth + 1 - lag : Nat) : Int)

instance decidableHeightsLag (lag : Nat) : (t : AvlTree K V) → Decidable (HeightsLag lag t)
  | .nil => isTrue trivial
  | .node _ l x r =>
    have := decidableHeightsLag lag l
    have := decidableHeightsLag lag r
    inferInstanceAs (Decidable (HeightsLag lag l ∧ HeightsLag lag r ∧
      x.height = ((max l.depth r.depth + 1 - lag : Nat) : Int)))

/-- Balanced, with stored heights that are right for the depths. -/
structure Avl (lag : Nat) (t : AvlTree K V) : Prop where
  balanced : t.Balanced
  exact : HeightsLag lag t

/-- The node of a frame with the height that `fix_height` stores in it. -/
def refit (lag : Nat) (f : Frame (NodeData K V)) (t : AvlTree K V) : Frame (NodeData K V) :=
  { f with load := { f.load with height := ((max t.depth f.sibling.depth + 1 - lag : Nat) : Int) } }

/-- A difference of heights between the hole on a side and its sibling, as `factor` counts it. -/
def signed : Side → Int → Int
  | .left, z => z
  | .right, z => -z

/-- The rotation that lifts the child on a side. -/
def turn (narrow : Narrowing) : Side → AvlTree K V → Except Fault (AvlTree K V)
  | .left => rotateLeft narrow
  | .right => rotateRight narrow

/-- What `balance` does to the lighter child: it is turned when it leans outward. -/
def steady (narrow : Narrowing) (s : Side) (t : AvlTree K V) : Except Fault (AvlTree K V) := do
  let inner ← factor narrow t
  if 0 < signed s inner then turn narrow s t else .ok t

/-- The tree that lifts the child `g.plug u` of `f`, with `v` as the other child of `f`. -/
def raised (lag : Nat) (f g : Frame (NodeData K V)) (v u : AvlTree K V) : AvlTree K V :=
  let low := (refit lag { f with sibling := v } g.sibling).plug g.sibling
  (refit lag { g with sibling := low } u).plug u

section

variable {narrow : Narrowing} {lag : Nat} {f g : Frame (NodeData K V)} {t u v : AvlTree K V} {s : Side}

@[simp] theorem refit_side : (refit lag f t).side = f.side := rfl
@[simp] theorem refit_sibling : (refit lag f t).sibling = f.sibling := rfl

@[simp] theorem child_refit : ((refit lag f t).plug t).child s = (f.plug t).child s := by
  obtain ⟨side, a, x, w⟩ := f
  cases side <;> cases s <;> rfl

@[simp] theorem leans_refit : ((refit lag f t).plug t).Leans s ↔ (f.plug t).Leans s := by simp [Leans]

@[simp] theorem balanced_refit : ((refit lag f t).plug t).Balanced ↔ (f.plug t).Balanced := by
  simp only [balanced_plug, refit_sibling]

theorem HeightsLag.height_eq (exact : HeightsLag lag t) : height t = ((t.depth - lag : Nat) : Int) := by
  cases t with
  | nil => simp
  | node a l x r => exact exact.2.2

theorem heightsLag_plug : HeightsLag lag (f.plug t) ↔
    HeightsLag lag t ∧ HeightsLag lag f.sibling ∧
      f.load.height = ((max t.depth f.sibling.depth + 1 - lag : Nat) : Int) := by
  obtain ⟨side, a, x, w⟩ := f
  cases side with
  | left => rfl
  | right =>
    simp only [Frame.plug, HeightsLag]
    rw [max_comm]
    tauto

theorem heightsLag_inner {ctx : Context (NodeData K V)} (exact : HeightsLag lag (ctx.plug t)) : HeightsLag lag t := by
  induction ctx generalizing t with
  | nil => exact exact
  | cons f fs ih => exact (heightsLag_plug.mp (ih exact)).1

theorem heightsLag_refit (exact : HeightsLag lag t) (exact' : HeightsLag lag f.sibling) :
    HeightsLag lag ((refit lag f t).plug t) := heightsLag_plug.mpr ⟨exact, exact', rfl⟩

/-- A frame whose height is right for the depth keeps it. -/
theorem refit_eq (exact : HeightsLag lag (f.plug t)) (same : u.depth = t.depth) : refit lag f u = f := by
  obtain ⟨side, a, x, w⟩ := f
  have height : x.height = _ := (heightsLag_plug.mp exact).2.2
  simp only [refit, same, ← height]

theorem heightsLag_replace {ctx : Context (NodeData K V)} (exact : HeightsLag lag (ctx.plug t))
    (exact' : HeightsLag lag u) (same : u.depth = t.depth) : HeightsLag lag (ctx.plug u) := by
  induction ctx generalizing t u with
  | nil => exact exact'
  | cons f fs ih =>
    have outside : HeightsLag lag (Context.plug fs (f.plug t)) := exact
    have here := heightsLag_plug.mp (heightsLag_inner outside)
    refine ih outside (heightsLag_plug.mpr ⟨exact', here.2.1, ?_⟩) (by simp [same])
    rw [same]
    exact here.2.2

/-! ## The tree functions on a frame -/

theorem turn_plug (side : g.side = f.side) : turn narrow f.side (f.plug (g.plug u)) =
    (fixHeight narrow (f.plug g.sibling) >>= fun low => fixHeight narrow (Frame.plug { g with sibling := low } u)) := by
  obtain ⟨fs, a, x, w⟩ := f
  obtain ⟨gs, b, y, w'⟩ := g
  obtain rfl : gs = fs := side
  cases gs <;> rfl

theorem signed_signed (s : Side) (z : Int) : signed s (signed s z) = z := by cases s <;> simp [signed]

theorem rotate_heavy : rotate narrow (signed f.side 2) (f.plug t) =
    (steady narrow f.side.other f.sibling >>= fun v => turn narrow f.side (Frame.plug { f with sibling := v } t)) := by
  obtain ⟨side, a, x, w⟩ := f
  cases side with
  | left =>
    simp only [signed, Frame.plug, rotate, steady, Side.other, turn, if_true]
    cases factor narrow w with
    | error e => rfl
    | ok inner =>
      by_cases leans : inner < 0
      · simp [leans]
      · simp [leans]
  | right =>
    simp only [signed, Frame.plug, rotate, steady, Side.other, turn, if_true,
      if_neg (show ¬ (-2 : Int) = 2 by decide)]
    cases factor narrow w with
    | error e => rfl
    | ok inner =>
      by_cases leans : inner > 0
      · simp [leans]
      · simp [leans]

theorem rotate_rest {d : Int} (notLeft : d ≠ 2) (notRight : d ≠ -2) : rotate narrow d (f.plug t) = .ok (f.plug t) := by
  obtain ⟨side, a, x, w⟩ := f
  cases side <;> simp [rotate, Frame.plug, notLeft, notRight]

theorem resume_cons (fs : Context (NodeData K V)) :
    resume narrow (f :: fs) t = (balance narrow (f.plug t) >>= resume narrow fs) := unwind_eq narrow fs (f.plug t)

variable (keeps : ∀ z, -128 ≤ z → z ≤ 127 → narrow z = .ok z)
include keeps

theorem fixHeight_node_eq {a : Addr} {l r : AvlTree K V} {x : NodeData K V} {z : Int}
    (taller : (if height l > height r then height l else height r) + 1 = z) (low : -128 ≤ z) (high : z ≤ 127) :
    fixHeight narrow (.node a l x r) = .ok (.node a l { x with height := z } r) := by
  simp [fixHeight, taller, keeps z low high]

theorem fixHeight_plug (exact : HeightsLag lag t) (exact' : HeightsLag lag f.sibling)
    (low : lag ≤ max t.depth f.sibling.depth) (high : max t.depth f.sibling.depth ≤ 126) :
    fixHeight narrow (f.plug t) = .ok ((refit lag f t).plug t) := by
  have here := exact.height_eq
  have there := exact'.height_eq
  obtain ⟨side, a, x, w⟩ := f
  simp only at here there low high
  cases side with
  | left =>
    refine fixHeight_node_eq (z := ((max t.depth w.depth + 1 - lag : Nat) : Int)) keeps ?_ (by omega) (by omega)
    rw [here, there]
    split <;> omega
  | right =>
    refine fixHeight_node_eq (z := ((max t.depth w.depth + 1 - lag : Nat) : Int)) keeps ?_ (by omega) (by omega)
    rw [here, there]
    split <;> omega

theorem factor_plug (exact : HeightsLag lag t) (exact' : HeightsLag lag f.sibling)
    (high : max t.depth f.sibling.depth ≤ 126) : factor narrow (f.plug t) =
      .ok (signed f.side (((t.depth - lag : Nat) : Int) - ((f.sibling.depth - lag : Nat) : Int))) := by
  have here := exact.height_eq
  have there := exact'.height_eq
  obtain ⟨side, a, x, w⟩ := f
  simp only at here there high
  cases side with
  | left =>
    simp only [Frame.plug, factor, signed, here, there]
    exact keeps _ (by omega) (by omega)
  | right =>
    simp only [Frame.plug, factor, signed, here, there, neg_sub]
    exact keeps _ (by omega) (by omega)

/-- A node is left as it is, unless its stored heights differ by exactly two. -/
theorem balance_rests (exact : HeightsLag lag t) (exact' : HeightsLag lag f.sibling)
    (low : lag ≤ max t.depth f.sibling.depth) (high : max t.depth f.sibling.depth ≤ 126)
    (here : t.depth - lag ≠ f.sibling.depth - lag + 2) (there : f.sibling.depth - lag ≠ t.depth - lag + 2) :
    balance narrow (f.plug t) = .ok ((refit lag f t).plug t) := by
  simp only [balance, fixHeight_plug keeps exact exact' low high, ok_bind,
    factor_plug (f := refit lag f t) keeps exact exact' high]
  simp only [refit_side, refit_sibling]
  apply rotate_rest
  · cases f.side <;> simp only [signed] <;> omega
  · cases f.side <;> simp only [signed] <;> omega

/-- The rotation that lifts a child, from exact heights. -/
theorem turn_raises (side : g.side = f.side) (exact : HeightsLag lag u) (exactInner : HeightsLag lag g.sibling)
    (exactOther : HeightsLag lag f.sibling) (low : lag ≤ max g.sibling.depth f.sibling.depth)
    (high : u.depth ≤ 124) (highInner : g.sibling.depth ≤ 124) (highOther : f.sibling.depth ≤ 124) :
    turn narrow f.side (f.plug (g.plug u)) = .ok (raised lag f g f.sibling u) := by
  have lowered := fixHeight_plug keeps exactInner exactOther low (by omega)
  rw [turn_plug side, lowered, ok_bind]
  refine fixHeight_plug (f := { g with sibling := _ }) keeps exact (heightsLag_refit exactInner exactOther) ?_ ?_
  · simp only [depth_plug, refit_sibling]
    omega
  · simp only [depth_plug, refit_sibling]
    omega

omit keeps

theorem raised_lag (exact : HeightsLag lag u) (exactInner : HeightsLag lag g.sibling) (exactOther : HeightsLag lag v) :
    HeightsLag lag (raised lag f g v u) :=
  heightsLag_refit exact (heightsLag_refit exactInner exactOther)

@[simp] theorem raised_depth : (raised lag f g v u).depth =
    max u.depth (max g.sibling.depth v.depth + 1) + 1 := by simp [raised]

theorem raised_child : (raised lag f g v u).child g.side = u := child_plug

theorem raised_child_other : (raised lag f g v u).child g.side.other =
    (refit lag { f with sibling := v } g.sibling).plug g.sibling := child_other_plug

theorem raised_balanced : (raised lag f g v u).Balanced ↔
    u.Balanced ∧ (g.sibling.Balanced ∧ v.Balanced ∧ g.sibling.depth ≤ v.depth + 1 ∧ v.depth ≤ g.sibling.depth + 1) ∧
      u.depth ≤ max g.sibling.depth v.depth + 2 ∧ max g.sibling.depth v.depth ≤ u.depth := by
  simp only [raised, balanced_plug, refit_sibling, depth_plug]
  constructor
  · rintro ⟨outer, inner, near, near'⟩
    exact ⟨outer, inner, by omega, by omega⟩
  · rintro ⟨outer, inner, near, near'⟩
    exact ⟨outer, inner, by omega, by omega⟩

include keeps

/-- The lighter child keeps its depth; turning it leaves it unbalanced when it is crooked. -/
theorem steady_spec (s : Side) (few : lag ≤ 1) (exact : HeightsLag lag t) (balanced : t.Balanced)
    (high : t.depth ≤ 124) :
    ∃ v, steady narrow s t = .ok v ∧ HeightsLag lag v ∧ v.depth = t.depth ∧ (v.Balanced ↔ ¬ t.Crooked s) := by
  have idle : steady narrow s t = .ok t → ¬ t.Crooked s →
      ∃ v, steady narrow s t = .ok v ∧ HeightsLag lag v ∧ v.depth = t.depth ∧ (v.Balanced ↔ ¬ t.Crooked s) :=
    fun run straight => ⟨t, run, exact, rfl, iff_of_true balanced straight⟩
  by_cases present : 0 < t.depth
  · obtain ⟨f, u, rfl, rfl⟩ := exists_plug s present
    obtain ⟨balancedU, balancedF, near, near'⟩ := balanced_plug.mp balanced
    obtain ⟨exactU, exactF, _⟩ := heightsLag_plug.mp exact
    rw [depth_plug] at high
    have factored := factor_plug (f := f) keeps exactU exactF (by omega)
    -- the lighter child is turned when it leans outward, which may spoil it
    by_cases outward : f.sibling.depth < u.depth ∧ lag < u.depth
    · obtain ⟨g, w, side, rfl⟩ := exists_plug f.side (show 0 < u.depth by omega)
      obtain ⟨exactW, exactG, _⟩ := heightsLag_plug.mp exactU
      obtain ⟨balancedW, balancedG, nearW, nearW'⟩ := balanced_plug.mp balancedU
      rw [depth_plug] at outward near near' high
      have turned := turn_raises keeps side exactW exactG exactF (by omega) (by omega) (by omega) (by omega)
      refine ⟨raised lag f g f.sibling w, ?_, raised_lag exactW exactG exactF, ?_, ?_⟩
      · rw [steady, factored, ok_bind, signed_signed, if_pos _, turned]
        rw [depth_plug]
        omega
      · simp only [raised_depth, depth_plug]
        omega
      · simp only [raised_balanced, Crooked, leans_plug, child_plug, depth_plug]
        rw [← side, leans_other_plug]
        constructor
        · rintro ⟨_, _, _, deep⟩
          omega
        · intro straight
          refine ⟨balancedW, ⟨balancedG, balancedF, ?_⟩, ?_⟩ <;> omega
    · refine idle ?_ ?_
      · rw [steady, factored, ok_bind, signed_signed, if_neg _]
        omega
      · rintro ⟨leans, back⟩
        rw [leans_plug] at leans
        rw [child_plug] at back
        have := back.one_lt_depth
        omega
  · obtain rfl : t = .nil := by simpa using present
    refine idle ?_ (fun crooked => not_leans_nil s crooked.1)
    cases s <;> rfl

/-- The deeper child is lifted as it is, whichever of its subtrees makes it deep. What it leaves
goes under the lowered node, beside the other child. -/
theorem balance_heavy (few : lag ≤ 1) (exact : HeightsLag lag t) (other : Avl lag f.sibling)
    (low : lag ≤ f.sibling.depth)
    (deep : t.depth = f.sibling.depth + 2) (high : f.sibling.depth ≤ 123) :
    ∃ w, balance narrow (f.plug t) = .ok w ∧ HeightsLag lag w ∧ 0 < w.depth ∧ w.child f.side = t.child f.side ∧
      (w.child f.side.other).depth = max (t.child f.side.other).depth f.sibling.depth + 1 ∧
      ((w.child f.side.other).Balanced ↔ (t.child f.side.other).Balanced ∧ ¬ f.sibling.Crooked f.side.other ∧
        (t.child f.side.other).depth ≤ f.sibling.depth + 1 ∧ f.sibling.depth ≤ (t.child f.side.other).depth + 1) := by
  obtain ⟨g, u, side, rfl⟩ := exists_plug f.side (show 0 < t.depth by omega)
  obtain ⟨exactU, exactG, _⟩ := heightsLag_plug.mp exact
  obtain ⟨v, steadied, exactV, level, straight⟩ := steady_spec keeps f.side.other few other.exact other.balanced
    (by omega)
  have fixed := fixHeight_plug keeps exact other.exact (by omega) (by omega)
  have factored := factor_plug (f := refit lag f (g.plug u)) keeps exact other.exact (by
    rw [refit_sibling]
    omega)
  have two : ((((g.plug u).depth - lag : Nat) : Int) - ((f.sibling.depth - lag : Nat) : Int)) = 2 := by omega
  have turned := turn_raises (f := { refit lag f (g.plug u) with sibling := v }) keeps side exactU exactG exactV
  rw [depth_plug] at deep
  refine ⟨raised lag f g v u, ?_, raised_lag exactU exactG exactV, by simp, ?_⟩
  · simp only [balance, fixed, factored, ok_bind, refit_sibling, two]
    rw [rotate_heavy, refit_side, refit_sibling, steadied, ok_bind]
    exact turned (by simp only; omega) (by omega) (by omega) (by simp only; omega)
  · rw [← side, raised_child, raised_child_other, child_plug, child_other_plug, side, balanced_refit, balanced_plug,
      depth_plug, refit_sibling, level, straight]
    exact ⟨rfl, rfl, Iff.rfl⟩

/-- A node whose subtrees differ by at most one gets its height, and stays. -/
theorem balance_near (avl : Avl lag t) (other : Avl lag f.sibling) (low : lag ≤ max t.depth f.sibling.depth)
    (high : max t.depth f.sibling.depth ≤ 126) (near : t.depth ≤ f.sibling.depth + 1)
    (near' : f.sibling.depth ≤ t.depth + 1) :
    ∃ t', balance narrow (f.plug t) = .ok t' ∧ Avl lag t' ∧ t'.depth = max t.depth f.sibling.depth + 1 ∧
      ∀ s, t'.Leans s ↔ (f.plug t).Leans s := by
  refine ⟨_, balance_rests keeps avl.exact other.exact low high (by omega) (by omega), ⟨?_, ?_⟩, ?_, ?_⟩
  · exact balanced_refit.mpr (balanced_plug.mpr ⟨avl.balanced, other.balanced, near, near'⟩)
  · exact heightsLag_refit avl.exact other.exact
  · rw [depth_plug, refit_sibling]
  · exact fun s => leans_refit

section Lift

variable (few : lag ≤ 1) (avl : Avl lag t) (other : Avl lag f.sibling) (straight : ¬ f.sibling.Crooked f.side.other)
  (low : lag ≤ f.sibling.depth) (deep : t.depth = f.sibling.depth + 2) (high : f.sibling.depth ≤ 123)

include few avl other straight low deep high

/-- The deeper child leans outward: the node becomes even, and no deeper than the child was. -/
theorem balance_outward (leans : t.Leans f.side) :
    ∃ t', balance narrow (f.plug t) = .ok t' ∧ Avl lag t' ∧ t'.depth = t.depth ∧ t'.Even := by
  obtain ⟨w, run, exact, present, outer, inner, lowered⟩ := balance_heavy keeps few avl.exact other low deep high
  obtain ⟨balancedO, balancedI, near, near'⟩ := (balanced_child f.side).mp avl.balanced
  have depthT := depth_child (s := f.side) (t := t) (by omega)
  have depthW := depth_child f.side present
  have leans : (t.child f.side.other).depth < (t.child f.side).depth := leans
  rw [outer] at depthW
  refine ⟨w, run, ⟨(balanced_child f.side).mpr ⟨?_, lowered.mpr ⟨balancedI, straight, ?_, ?_⟩, ?_, ?_⟩, exact⟩, ?_, ?_⟩
  · rw [outer]
    exact balancedO
  · omega
  · omega
  · rw [outer]
    omega
  · rw [outer]
    omega
  · omega
  · refine even_child f.side ?_
    rw [outer]
    omega

/-- The deeper child is even: the node becomes one deeper than the child was, and leans back. -/
theorem balance_even (even : t.Even) :
    ∃ t', balance narrow (f.plug t) = .ok t' ∧ Avl lag t' ∧ t'.depth = t.depth + 1 ∧ t'.Leans f.side.other := by
  obtain ⟨w, run, exact, present, outer, inner, lowered⟩ := balance_heavy keeps few avl.exact other low deep high
  obtain ⟨balancedO, balancedI, _⟩ := (balanced_child f.side).mp avl.balanced
  have depthT := depth_child (s := f.side) (t := t) (by omega)
  have depthW := depth_child f.side present
  have level := even.child_depth f.side
  rw [outer] at depthW
  refine ⟨w, run, ⟨(balanced_child f.side).mpr ⟨?_, lowered.mpr ⟨balancedI, straight, ?_, ?_⟩, ?_, ?_⟩, exact⟩, ?_, ?_⟩
  · rw [outer]
    exact balancedO
  · omega
  · omega
  · rw [outer]
    omega
  · rw [outer]
    omega
  · omega
  · rw [Leans, Side.other_other, outer]
    omega

omit straight

/-- The deeper child leans inward: it should have been turned first. -/
theorem balance_inward (leans : t.Leans f.side.other) :
    ∃ t', balance narrow (f.plug t) = .ok t' ∧ HeightsLag lag t' ∧ t'.depth = t.depth + 1 ∧ ¬ t'.Balanced := by
  obtain ⟨w, run, exact, present, outer, inner, _⟩ := balance_heavy keeps few avl.exact other low deep high
  obtain ⟨_, _, near, near'⟩ := (balanced_child f.side).mp avl.balanced
  have depthT := depth_child (s := f.side) (t := t) (by omega)
  have depthW := depth_child f.side present
  have leans : (t.child f.side.other.other).depth < (t.child f.side.other).depth := leans
  rw [Side.other_other] at leans
  rw [outer] at depthW
  refine ⟨w, run, exact, by omega, fun balanced => ?_⟩
  have := ((balanced_child f.side).mp balanced).2.2.2
  rw [outer] at this
  omega

end Lift

end

section Path

variable {narrow : Narrowing} {lag : Nat} {ctx : Context (NodeData K V)} {f : Frame (NodeData K V)} {t u : AvlTree K V}

theorem avl_plug : Avl lag (f.plug t) ↔ Avl lag t ∧ Avl lag f.sibling ∧
    (t.depth ≤ f.sibling.depth + 1 ∧ f.sibling.depth ≤ t.depth + 1) ∧
    f.load.height = ((max t.depth f.sibling.depth + 1 - lag : Nat) : Int) := by
  constructor
  · rintro ⟨balanced, exact⟩
    obtain ⟨balancedT, balancedF, near⟩ := balanced_plug.mp balanced
    obtain ⟨exactT, exactF, height⟩ := heightsLag_plug.mp exact
    exact ⟨⟨balancedT, exactT⟩, ⟨balancedF, exactF⟩, near, height⟩
  · rintro ⟨avl, other, near, height⟩
    exact ⟨balanced_plug.mpr ⟨avl.balanced, other.balanced, near⟩, heightsLag_plug.mpr ⟨avl.exact, other.exact, height⟩⟩

theorem Avl.inner (avl : Avl lag (ctx.plug t)) : Avl lag t :=
  ⟨Context.balanced_inner avl.balanced, heightsLag_inner avl.exact⟩

/-- Where the depth is what it was before, no node above is changed. -/
theorem resume_same (keeps : ∀ z, -128 ≤ z → z ≤ 127 → narrow z = .ok z) (outer : Context (NodeData K V))
    (avl : Avl lag (ctx.plug u)) (exact : HeightsLag lag t) (same : t.depth = u.depth) (low : lag ≤ u.depth)
    (high : (ctx.plug u).depth ≤ 126) : ∃ t', resume narrow (ctx ++ outer) t = resume narrow outer t' ∧
      HeightsLag lag t' ∧ t'.depth = (ctx.plug u).depth ∧ (t'.Balanced ↔ t.Balanced) := by
  refine ⟨ctx.plug t, ?_, heightsLag_replace avl.exact exact same, Context.depth_replace same,
    Context.balanced_inner, fun balanced => Context.balanced_replace avl.balanced balanced same⟩
  induction ctx generalizing t u with
  | nil => rfl
  | cons f fs ih =>
    have outside : Avl lag (Context.plug fs (f.plug u)) := avl
    obtain ⟨_, other, near, height⟩ := avl_plug.mp outside.inner
    have high' : (Context.plug fs (f.plug u)).depth ≤ 126 := high
    have bound := Context.depth_le_plug.trans high'
    rw [depth_plug] at bound
    rw [List.cons_append, resume_cons, balance_rests keeps exact other.exact (by omega) (by omega) (by omega)
      (by omega),
      ok_bind, refit_eq outside.inner.exact same]
    refine ih outside (heightsLag_plug.mpr ⟨exact, other.exact, by rw [same]; exact height⟩) (by simp [same]) ?_ high
    rw [depth_plug]
    omega

end Path

end AvlTree

end SmallObject
