import SmallObject.RangeMap.Heights

/-! `balance` on a node whose subtrees are balanced and differ by at most two.

The deeper child is lifted as it is, also when it leans inward; the rotation that should come
first is made of the other child, when that one leans outward.
-/

set_option autoImplicit false

namespace SmallObject

open Linked LinkTree

variable {K V : Type}

namespace AvlTree

/-- A subtree that is two deeper does not lean inward, and the other one is not crooked outward. -/
def Liftable (t : AvlTree K V) : Prop :=
  ∀ s, (t.child s).depth = (t.child s.other).depth + 2 →
    ¬ (t.child s).Leans s.other ∧ ¬ (t.child s.other).Crooked s.other

section

variable {narrow : Narrowing} (keeps : ∀ z, -128 ≤ z → z ≤ 127 → narrow z = .ok z) {f : Frame (NodeData K V)}
  {t l r : AvlTree K V} {a : Addr} {x : NodeData K V}

theorem liftable_plug (deep : t.depth = f.sibling.depth + 2) :
    Liftable (f.plug t) ↔ ¬ t.Leans f.side.other ∧ ¬ f.sibling.Crooked f.side.other := by
  constructor
  · intro liftable
    simpa [deep] using liftable f.side
  · intro straight s
    rcases Side.eq_or_other f.side s with rfl | rfl
    · intro _
      simpa using straight
    · intro below
      simp only [child_other_plug, Side.other_other, child_plug] at below
      omega

include keeps

/-- Lifting a child that is two deeper. -/
theorem balance_lifts (avl : Avl 0 t) (other : Avl 0 f.sibling) (deep : t.depth = f.sibling.depth + 2)
    (high : t.depth < 126) :
    ∃ w, balance narrow (f.plug t) = .ok w ∧ HeightsLag 0 w ∧ (w.Balanced ↔ Liftable (f.plug t)) := by
  obtain ⟨w, run, exact, present, outer, inner, lowered⟩ := balance_heavy keeps (by decide) avl.exact other
    (by omega) deep
    (by omega)
  obtain ⟨balancedO, balancedI, near, near'⟩ := (balanced_child f.side).mp avl.balanced
  have depth := depth_child (s := f.side) (t := t) (by omega)
  refine ⟨w, run, exact, ?_⟩
  rw [liftable_plug deep, balanced_child f.side, outer, inner, lowered, Leans, Side.other_other]
  constructor
  · rintro ⟨_, ⟨_, straight, _⟩, _, close⟩
    exact ⟨by omega, straight⟩
  · rintro ⟨leans, straight⟩
    exact ⟨balancedO, ⟨balancedI, straight, by omega, by omega⟩, by omega, by omega⟩

/-- The two subtrees of a node are looked at from the deeper one. -/
theorem balance_node (left : Avl 0 l) (right : Avl 0 r) (highL : l.depth < 126) (highR : r.depth < 126)
    (nearL : l.depth ≤ r.depth + 2) (nearR : r.depth ≤ l.depth + 2) :
    ∃ w, balance narrow (.node a l x r) = .ok w ∧ HeightsLag 0 w ∧ (w.Balanced ↔ Liftable (.node a l x r)) := by
  by_cases deepL : l.depth = r.depth + 2
  · exact balance_lifts (f := ⟨.left, a, x, r⟩) keeps left right deepL highL
  · by_cases deepR : r.depth = l.depth + 2
    · exact balance_lifts (f := ⟨.right, a, x, l⟩) keeps right left deepR highR
    · obtain ⟨w, run, avl, _⟩ := balance_near (f := ⟨.left, a, x, r⟩) keeps left right (by omega)
        (show max l.depth r.depth ≤ 126 by omega) (show l.depth ≤ r.depth + 1 by omega)
        (show r.depth ≤ l.depth + 1 by omega)
      refine ⟨w, run, avl.exact, iff_of_true avl.balanced ?_⟩
      -- no subtree is two deeper
      rintro (_ | _) deep
      · exact absurd deep deepL
      · exact absurd deep deepR

end

end AvlTree

namespace AvlTreeNode

open AvlTree

variable {h : Nodes K V} {top : Ptr} {a : Addr} {l r : AvlTree K V} {x : NodeData K V}

/-- Balancing the node gives a balanced tree with exact heights of the same elements in the same order. -/
def Balances (h : Nodes K V) (a : Addr) (t : AvlTree K V) : Prop :=
  ∃ (h' : Nodes K V) (b : Addr) (top : Ptr) (t' : AvlTree K V), balance wrapInt8 h a = .ok (h', b) ∧
    t'.root = some b ∧ Represents h' top t' ∧ Avl 0 t' ∧ entries t' = entries t

theorem balances_iff (rep : Represents h top (.node a l x r)) (nodup : (LinkTree.node a l x r).addrs.Nodup)
    (left : Avl 0 l) (right : Avl 0 r) (highL : l.depth < 126) (highR : r.depth < 126)
    (nearL : l.depth ≤ r.depth + 2) (nearR : r.depth ≤ l.depth + 2) :
    Balances h a (.node a l x r) ↔ Liftable (.node a l x r) := by
  have follows := balance_follows wrapInt8 rfl rep nodup
  obtain ⟨w, run, exact, balanced⟩ := balance_node (a := a) (x := x)
    (fun z => wrapInt8_eq) left right highL highR nearL nearR
  simp only [Follows, run] at follows
  obtain ⟨h', b, done, root, ⟨top', rep'⟩, _, _⟩ := follows
  constructor
  · rintro ⟨h₁, b₁, top₁, t', done₁, root₁, rep₁, avl, _⟩
    obtain ⟨rfl, rfl⟩ := Prod.mk.inj (Except.ok.inj (done₁.symm.trans done))
    obtain rfl := rep₁.unique rep' (root₁.trans root.symm)
    exact balanced.mp avl.balanced
  · intro liftable
    exact ⟨h', b, top', w, done, root, rep', ⟨balanced.mpr liftable, exact⟩, balance_entries run⟩

/-- A child that leans outward: one rotation. -/
theorem balances_straight : ∃ h : Nodes Nat Nat, Balances h 10
    (.node 10 (.node 11 (.node 12 .nil ⟨1, ⟨0, 1⟩, 0⟩ .nil) ⟨2, ⟨2, 3⟩, 1⟩ .nil) ⟨0, ⟨4, 5⟩, 2⟩ .nil) := by
  let h : Nodes Nat Nat := ((AList.singleton 10 ⟨none, some 11, none, ⟨0, ⟨4, 5⟩, 2⟩⟩).insert 11
    ⟨some 10, some 12, none, ⟨2, ⟨2, 3⟩, 1⟩⟩).insert 12 ⟨some 11, none, none, ⟨1, ⟨0, 1⟩, 0⟩⟩
  have rep : Represents h none (.node 10 (.node 11 (.node 12 .nil ⟨1, ⟨0, 1⟩, 0⟩ .nil) ⟨2, ⟨2, 3⟩, 1⟩ .nil)
    ⟨0, ⟨4, 5⟩, 2⟩ .nil) := by
    simp [Represents, h]
    decide
  refine ⟨h, (balances_iff rep (by decide) ⟨by decide, by decide⟩ ⟨by decide, by decide⟩ (by decide) (by decide)
    (by decide) (by decide)).mpr ?_⟩
  rintro (_ | _) deep
  · decide
  · exact absurd deep (by decide)

/-- A child that leans inward is lifted as it is, and the difference is on the other side then. -/
theorem balance_zigzag : ∃ (h h' : Nodes Nat Nat) (l t' : AvlTree Nat Nat) (b : Addr) (top : Ptr),
    Represents h none (.node 10 l ⟨0, ⟨4, 5⟩, 2⟩ .nil) ∧ (LinkTree.node 10 l ⟨0, ⟨4, 5⟩, 2⟩ .nil).addrs.Nodup ∧
      Avl 0 l ∧ l.depth = 2 ∧ balance wrapInt8 h 10 = .ok (h', b) ∧ t'.root = some b ∧ Represents h' top t' ∧
      ¬ t'.Balanced := by
  let h : Nodes Nat Nat := ((AList.singleton 10 ⟨none, some 11, none, ⟨0, ⟨4, 5⟩, 2⟩⟩).insert 11
    ⟨some 10, none, some 12, ⟨2, ⟨0, 1⟩, 0⟩⟩).insert 12 ⟨some 11, none, none, ⟨1, ⟨2, 3⟩, 1⟩⟩
  refine ⟨h, _, .node 11 .nil ⟨2, ⟨0, 1⟩, 0⟩ (.node 12 .nil ⟨1, ⟨2, 3⟩, 1⟩ .nil),
    .node 11 .nil ⟨3, ⟨0, 1⟩, 0⟩ (.node 10 (.node 12 .nil ⟨1, ⟨2, 3⟩, 1⟩ .nil) ⟨2, ⟨4, 5⟩, 2⟩ .nil),
    11, some 10, ?_, by decide, ⟨by decide, by decide⟩, rfl, rfl, rfl, ?_, by decide⟩
  · simp [Represents, h]
    decide
  · simp [Represents, h]

end AvlTreeNode

end SmallObject
