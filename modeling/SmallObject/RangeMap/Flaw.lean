import SmallObject.RangeMap.Heights

/-! What rebalancing does not mend.

A rotation takes apart a node and one or two of its children and leaves the other subtrees
whole. So a subtree that is out of balance stays so when it is far enough below the node, and
so it does near it where the path is not lower than what it was built for.
-/

set_option autoImplicit false

namespace SmallObject

open Linked LinkTree

variable {K V : Type}

namespace AvlTree

/-- The child on a side has been lifted; `v` is on the other side of the lowered node. -/
structure Lifted (s : Side) (t v t' : AvlTree K V) : Prop where
  outer : t'.child s = (t.child s).child s
  inner : (t'.child s.other).child s = (t.child s).child s.other
  other : (t'.child s.other).child s.other = v

section

variable {narrow : Narrowing} {t t' v w : AvlTree K V} {s : Side} {f : Frame (NodeData K V)}

theorem fixHeight_child (run : fixHeight narrow t = .ok t') (s : Side) : t'.child s = t.child s := by
  cases t with
  | nil => simp [fixHeight] at run
  | node a l x r =>
    obtain ⟨_, _, rfl⟩ := fixHeight_node run
    cases s <;> rfl

theorem turn_lifted (run : turn narrow s t = .ok t') : Lifted s t (t.child s.other) t' := by
  cases s with
  | left =>
    simp only [turn, rotateLeft] at run
    split at run
    · obtain ⟨lowered, first, second⟩ := bind_eq_ok run
      obtain ⟨_, _, rfl⟩ := fixHeight_node first
      obtain ⟨_, _, rfl⟩ := fixHeight_node second
      exact ⟨rfl, rfl, rfl⟩
    · simp at run
  | right =>
    simp only [turn, rotateRight] at run
    split at run
    · obtain ⟨lowered, first, second⟩ := bind_eq_ok run
      obtain ⟨_, _, rfl⟩ := fixHeight_node first
      obtain ⟨_, _, rfl⟩ := fixHeight_node second
      exact ⟨rfl, rfl, rfl⟩
    · simp at run

theorem steady_cases (run : steady narrow s t = .ok t') : t' = t ∨ Lifted s t (t.child s.other) t' := by
  obtain ⟨inner, _, rest⟩ := bind_eq_ok run
  split at rest
  · exact .inr (turn_lifted rest)
  · exact .inl (Except.ok.inj rest).symm

/-- Balancing leaves the children as they are, or lifts one of them. -/
theorem balance_cases (run : balance narrow t = .ok t') : (∀ s, t'.child s = t.child s) ∨
    ∃ s v, steady narrow s.other (t.child s.other) = .ok v ∧ Lifted s t v t' := by
  obtain ⟨fixed, first, rest⟩ := bind_eq_ok run
  obtain ⟨d, _, last⟩ := bind_eq_ok rest
  have same := fixHeight_child first
  have present : 0 < fixed.depth := by
    cases t with
    | nil => simp [fixHeight] at first
    | node a l x r =>
      obtain ⟨_, _, rfl⟩ := fixHeight_node first
      simp
  -- a factor of two or minus two is a subtree that is two higher, on one of the sides
  by_cases turns : ∃ s, d = signed s 2
  · obtain ⟨s, rfl⟩ := turns
    obtain ⟨f, u, rfl, rfl⟩ := exists_plug s present
    rw [rotate_heavy] at last
    obtain ⟨v, steadied, turned⟩ := bind_eq_ok last
    have other : f.sibling = t.child f.side.other := child_other_plug.symm.trans (same _)
    have lifted : Lifted f.side (Frame.plug { f with sibling := v } u) _ t' :=
      turn_lifted (s := ({ f with sibling := v } : Frame (NodeData K V)).side) turned
    have hole : (Frame.plug { f with sibling := v } u).child f.side = t.child f.side :=
      (child_plug (f := { f with sibling := v })).trans (child_plug.symm.trans (same _))
    refine .inr ⟨f.side, v, other ▸ steadied, ?_, ?_,
      lifted.other.trans (child_other_plug (f := { f with sibling := v }))⟩
    · rw [lifted.outer, hole]
    · rw [lifted.inner, hole]
  · obtain ⟨f, u, _, rfl⟩ := exists_plug .left present
    rw [rotate_rest (fun two => turns ⟨.left, two⟩) (fun two => turns ⟨.right, two⟩)] at last
    obtain rfl := Except.ok.inj last
    exact .inl same

/-- The lighter child is still flawed when it has been turned, unless the flaw is that of its outer child. -/
theorem steady_flawed (run : steady narrow s t = .ok v) (flawed : t.FlawedBelow 2 ∨ ¬ (t.child s.other).Balanced) :
    ¬ v.Balanced := by
  intro balanced
  rcases steady_cases run with rfl | lifted
  · rcases flawed with deep | inner
    · exact deep.not_balanced balanced
    · exact inner (balanced.child _)
  · have inner : (t.child s.other).Balanced := lifted.other ▸ (balanced.child s.other).child s.other
    have outer : ((t.child s).child s).Balanced := lifted.outer ▸ balanced.child s
    have middle : ((t.child s).child s.other).Balanced := lifted.inner ▸ (balanced.child s.other).child s
    rcases flawed with ⟨s₁, s₂, flaw⟩ | flaw
    · rcases Side.eq_or_other s s₁ with rfl | rfl
      · rcases Side.eq_or_other s₁ s₂ with rfl | rfl
        · exact flaw outer
        · exact flaw middle
      · exact flaw (inner.child s₂)
    · exact flaw inner

/-- A flaw two levels below the hole, or on the inner side of it, is two levels below the node
when that is balanced. -/
theorem balance_flawed (run : balance narrow (f.plug t) = .ok w)
    (flawed : t.FlawedBelow 2 ∨ ¬ (t.child f.side.other).Balanced) : w.FlawedBelow 2 := by
  have child : ∃ s, ¬ (t.child s).Balanced := by
    rcases flawed with ⟨s, s', flaw⟩ | flaw
    · exact ⟨s, fun balanced => flaw (balanced.child s')⟩
    · exact ⟨_, flaw⟩
  rcases balance_cases run with same | ⟨s, v, steadied, lifted⟩
  · obtain ⟨s, flaw⟩ := child
    refine ⟨f.side, s, ?_⟩
    rw [same, child_plug]
    exact flaw
  · rcases Side.eq_or_other s f.side with here | there
    · have hole : (f.plug t).child s = t := by rw [← here, child_plug]
      have outer := hole ▸ lifted.outer
      have inner := hole ▸ lifted.inner
      rcases flawed with ⟨s₁, s₂, flaw⟩ | flaw
      · rcases Side.eq_or_other s s₁ with rfl | rfl
        · exact ⟨s₁, s₂, by rw [outer]; exact flaw⟩
        · exact ⟨s.other, s, by rw [inner]; exact fun balanced => flaw (balanced.child s₂)⟩
      · exact ⟨s.other, s, by rw [inner, ← here]; exact flaw⟩
    · have hole : (f.plug t).child s.other = t := by rw [← there, child_plug]
      rw [hole] at steadied
      rw [there] at flawed
      exact ⟨s.other, s.other, by rw [lifted.other]; exact steady_flawed steadied flawed⟩

theorem resume_flawed {ctx : Context (NodeData K V)} (flawed : t.FlawedBelow 2) (run : resume narrow ctx t = .ok t') :
    ¬ t'.Balanced := by
  induction ctx generalizing t with
  | nil =>
    obtain rfl : t = t' := Except.ok.inj run
    exact flawed.not_balanced
  | cons f fs ih =>
    rw [resume_cons] at run
    obtain ⟨w, balanced, rest⟩ := bind_eq_ok run
    exact ih (balance_flawed balanced (.inl flawed)) rest

end

/-! ## Paths that are not lower than before -/

/-- On the way up from a subtree that is this deep at least, none of the other subtrees is more than
one deeper: at no node is the subtree on the path the lighter one by two. -/
def Overtops : Context (NodeData K V) → Nat → Prop
  | [], _ => True
  | f :: fs, d => Avl 0 f.sibling ∧ f.sibling.depth ≤ 100 ∧ f.sibling.depth ≤ d + 1 ∧
      Overtops fs (if d = f.sibling.depth + 2 then d else max d f.sibling.depth + 1)

section

variable {narrow : Narrowing} {ctx : Context (NodeData K V)} {t t' u w : AvlTree K V} {d d' : Nat}

theorem Overtops.mono (above : Overtops ctx d) (more : d ≤ d') : Overtops ctx d' := by
  induction ctx generalizing d d' with
  | nil => trivial
  | cons f fs ih =>
    obtain ⟨avl, high, close, rest⟩ := above
    exact ⟨avl, high, by omega, ih rest (by split <;> split <;> omega)⟩

/-- A path in a balanced tree, from a subtree that is not lower than the one that was there. -/
theorem overtops_of_avl (avl : Avl 0 (ctx.plug u)) (high : (ctx.plug u).depth ≤ 100) (enough : u.depth ≤ d) :
    Overtops ctx d := by
  induction ctx generalizing u d with
  | nil => trivial
  | cons f fs ih =>
    have outside : Avl 0 (Context.plug fs (f.plug u)) := avl
    have high' : (Context.plug fs (f.plug u)).depth ≤ 100 := high
    obtain ⟨_, other, near, _⟩ := avl_plug.mp outside.inner
    have bound := Context.depth_le_plug.trans high'
    rw [depth_plug] at bound
    refine ⟨other, by omega, by omega, ih outside high' ?_⟩
    rw [depth_plug]
    split <;> omega

theorem Overtops.append {edges : Context (NodeData K V)}
    (sides : ∀ f ∈ edges, Avl 0 f.sibling ∧ f.sibling.depth ≤ 100 ∧ f.sibling.depth ≤ d + 1) (above : Overtops ctx d) :
    Overtops (edges ++ ctx) d := by
  suffices ∀ d', d ≤ d' → Overtops (edges ++ ctx) d' from this d le_rfl
  induction edges with
  | nil => exact fun d' more => above.mono more
  | cons f fs ih =>
    intro d' more
    obtain ⟨avl, high, close⟩ := sides f List.mem_cons_self
    refine ⟨avl, high, by omega, ih (fun g member => sides g (List.mem_cons_of_mem _ member)) _ ?_⟩
    split <;> omega

variable (keeps : ∀ z, -128 ≤ z → z ≤ 127 → narrow z = .ok z)
include keeps

/-- Lifting a child takes the node not lower than the child was. -/
theorem balance_climbs {f : Frame (NodeData K V)} (exact : HeightsLag 0 t) (above : Overtops (f :: ctx) t.depth)
    (deep : t.depth = f.sibling.depth + 2) :
    ∃ w, balance narrow (f.plug t) = .ok w ∧ HeightsLag 0 w ∧ w.child f.side = t.child f.side ∧
      (w.child f.side.other).depth = max (t.child f.side.other).depth f.sibling.depth + 1 ∧
      ((w.child f.side.other).Balanced → f.sibling.depth ≤ (t.child f.side.other).depth + 1) ∧
      Overtops ctx w.depth ∧ w.depth ≤ f.sibling.depth + 3 := by
  obtain ⟨other, high, close, rest⟩ := above
  obtain ⟨w, run, exactW, present, outer, inner, lowered⟩ := balance_heavy keeps (by decide) exact other (by omega) deep
    (by omega)
  have depthT := depth_child (s := f.side) (t := t) (by omega)
  have depthW := depth_child f.side present
  rw [outer] at depthW
  rw [if_pos deep] at rest
  exact ⟨w, run, exactW, outer, inner, fun balanced => (lowered.mp balanced).2.2.2, rest.mono (by omega), by omega⟩

/-- A flaw of a child is never mended on such a path. -/
theorem resume_overtops (exact : HeightsLag 0 t) (flawed : t.FlawedBelow 1) (above : Overtops ctx t.depth)
    (high : t.depth ≤ 124) (run : resume narrow ctx t = .ok t') : ¬ t'.Balanced := by
  induction ctx generalizing t with
  | nil =>
    obtain rfl : t = t' := Except.ok.inj run
    exact flawed.not_balanced
  | cons f fs ih =>
    obtain ⟨s, flaw⟩ := flawed
    rw [resume_cons] at run
    obtain ⟨w, balanced, resumed⟩ := bind_eq_ok run
    by_cases deep : t.depth = f.sibling.depth + 2
    · rcases Side.eq_or_other f.side s with rfl | rfl
      · -- the flawed child is the outer one, and a child of the node that is lifted
        obtain ⟨w', lifted, exactW, outer, _, _, rest, low⟩ := balance_climbs keeps exact above deep
        obtain rfl := Except.ok.inj (lifted.symm.trans balanced)
        have highF := above.2.1
        exact ih exactW ⟨f.side, by rw [outer]; exact flaw⟩ rest (by omega) resumed
      · exact resume_flawed (balance_flawed balanced (.inr flaw)) resumed
    · obtain ⟨other, highF, close, rest⟩ := above
      have stays := balance_rests keeps exact other.exact (by omega) (by omega) (by omega) (by omega)
      obtain rfl := Except.ok.inj (stays.symm.trans balanced)
      refine resume_flawed ⟨f.side, s, ?_⟩ resumed
      rw [child_refit, child_plug]
      exact flaw

/-- Nor is a tree that is out of balance itself, where the node above it is left as it is. -/
theorem resume_stuck {f : Frame (NodeData K V)} (exact : HeightsLag 0 t) (other : Avl 0 f.sibling)
    (flawed : ¬ t.Balanced) (stays : t.depth ≠ f.sibling.depth + 2) (near : f.sibling.depth ≤ t.depth + 1)
    (above : Overtops ctx (max t.depth f.sibling.depth + 1)) (high : t.depth ≤ 120)
    (run : resume narrow (f :: ctx) t = .ok t') : ¬ t'.Balanced := by
  have rested := balance_rests (f := f) keeps exact other.exact (by omega) (by omega) (by omega) (by omega)
  have depthW : ((refit 0 f t).plug t).depth = max t.depth f.sibling.depth + 1 := depth_plug
  rw [resume_cons, rested, ok_bind] at run
  refine resume_overtops keeps (heightsLag_refit exact other.exact) ⟨f.side, ?_⟩ (depthW ▸ above) (by omega) run
  rw [child_refit, child_plug]
  exact flawed

/-- A root whose subtrees differ by three is never mended on such a path. -/
theorem resume_gap (s : Side) (exact : HeightsLag 0 t) (gap : (t.child s).depth + 3 ≤ (t.child s.other).depth)
    (above : Overtops ctx t.depth) (high : t.depth ≤ 120) (run : resume narrow ctx t = .ok t') : ¬ t'.Balanced := by
  have flawed : ∀ t : AvlTree K V, (t.child s).depth + 3 ≤ (t.child s.other).depth → ¬ t.Balanced := by
    intro t gap balanced
    have := ((balanced_child s).mp balanced).2.2.2
    omega
  induction ctx generalizing t with
  | nil =>
    obtain rfl : t = t' := Except.ok.inj run
    exact flawed t gap
  | cons f fs ih =>
    have highF := above.2.1
    by_cases deep : t.depth = f.sibling.depth + 2
    · obtain ⟨w', lifted, exactW, outer, inner, lowered, rest, low⟩ := balance_climbs keeps exact above deep
      rw [resume_cons, lifted, ok_bind] at run
      have depthT := depth_child (s := f.side) (t := t) (by omega)
      rcases Side.eq_or_other f.side s with rfl | rfl
      · -- the shallow subtree is the outer one: the gap grows
        refine ih exactW ?_ rest (by omega) run
        rw [outer, inner]
        omega
      · -- the shallow subtree comes under the node that is lowered
        rw [Side.other_other] at gap
        refine resume_overtops keeps exactW ⟨f.side.other, fun balanced => ?_⟩ rest (by omega) run
        have := lowered balanced
        omega
    · obtain ⟨other, _, close, rest⟩ := above
      rw [if_neg deep] at rest
      exact resume_stuck keeps exact other (flawed t gap) deep close rest high run

/-- A difference of three or more is left as it is. -/
theorem resume_apart {f : Frame (NodeData K V)} (exact : HeightsLag 0 t) (other : Avl 0 f.sibling)
    (apart : f.sibling.depth + 3 ≤ t.depth) (above : Overtops ctx (t.depth + 1)) (high : t.depth ≤ 110)
    (run : resume narrow (f :: ctx) t = .ok t') : ¬ t'.Balanced := by
  have rested := balance_rests (f := f) keeps exact other.exact (by omega) (by omega) (by omega) (by omega)
  have depthW : ((refit 0 f t).plug t).depth = t.depth + 1 := by
    simp only [depth_plug, refit_sibling]
    omega
  rw [resume_cons, rested, ok_bind] at run
  refine resume_gap keeps f.side.other (heightsLag_refit exact other.exact) ?_ (depthW ▸ above) (by omega) run
  rw [child_refit, child_refit, child_other_plug, Side.other_other, child_plug]
  exact apart

/-- A lifted child leaves a gap, where the subtree that moves under the lowered node is the deep one. -/
theorem resume_tilts {f : Frame (NodeData K V)} (exact : HeightsLag 0 t) (other : Avl 0 f.sibling)
    (lift : t.depth = f.sibling.depth + 2)
    (gap : (t.child f.side).depth + 2 ≤ max (t.child f.side.other).depth f.sibling.depth)
    (above : Overtops ctx (max (t.child f.side.other).depth f.sibling.depth + 2)) (high : t.depth ≤ 110)
    (run : resume narrow (f :: ctx) t = .ok t') : ¬ t'.Balanced := by
  obtain ⟨w, lifted, exactW, present, outer, inner, _⟩ := balance_heavy keeps (by decide) exact other (by omega) lift
    (by omega)
  have depthT := depth_child (s := f.side) (t := t) (by omega)
  have depthW : w.depth = max (t.child f.side.other).depth f.sibling.depth + 2 := by
    rw [depth_child f.side present, outer, inner]
    omega
  rw [resume_cons, lifted, ok_bind] at run
  refine resume_gap keeps f.side exactW ?_ (depthW ▸ above) (by omega) run
  rw [outer, inner]
  omega

end

end AvlTree

end SmallObject
