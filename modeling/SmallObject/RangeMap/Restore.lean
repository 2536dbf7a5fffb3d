import SmallObject.RangeMap.Settle
import SmallObject.RangeMap.Spoil

/-! Erasures that leave the tree balanced.

At most one child: the path sees a subtree that has become one lower. Two children below the
root: the path starts under the last node of the left subtree. Two children at the root: only the
new root is balanced, whatever has happened to the nodes between it and the right subtree.
-/

set_option autoImplicit false

namespace SmallObject

open Linked LinkTree

variable {K V : Type}

namespace AvlTree

/-- The tree is balanced after the node between two subtrees, at the end of a path, is erased. -/
def Restores (ctx : Context (NodeData K V)) (l r : AvlTree K V) : Prop :=
  if l.root = none ∨ r.root = none then Subsides ctx (max l.depth r.depth)
  else
    match ctx with
    | [] => (edge l).length = 1 ∧ ¬ (r.depth = l.depth + 1 ∧ r.Leans .left)
    | _ :: _ => (Grafts l r ∧ (Sinks l r → Subsides ctx (max l.depth r.depth))) ∨ Mended ctx l r

/-- The same for a node of the tree. -/
def EraseRestores (a : Addr) (t : AvlTree K V) : Prop :=
  ∃ ctx l x r, t = Context.plug ctx (.node a l x r) ∧ Restores ctx l r

/-- Only the stored height of the root shows from above. -/
theorem height_plug_congr {ctx : Context (NodeData K V)} {t t' : AvlTree K V} (same : height t' = height t) :
    height (ctx.plug t') = height (ctx.plug t) := by
  induction ctx generalizing t t' with
  | nil => exact same
  | cons f fs ih =>
    apply ih
    obtain ⟨side, a, x, w⟩ := f
    cases side <;> rfl

section

variable {narrow : Narrowing} (keeps : ∀ z, -128 ≤ z → z ≤ 127 → narrow z = .ok z)
  {ctx spine : Context (NodeData K V)} {f : Frame (NodeData K V)} {a b : Addr} {l r s t u ml : AvlTree K V}
  {x y : NodeData K V}

include keeps

/-- Balancing looks at stored heights, and does nothing where these say that it need not. -/
theorem balance_still (avl : Avl 0 (f.plug u)) (same : height t = height u) (high : (f.plug u).depth ≤ 127) :
    balance narrow (f.plug t) = .ok (f.plug t) := by
  obtain ⟨avlU, other, near, fixed⟩ := avl_plug.mp avl
  have here := same.trans avlU.exact.height_eq
  have there := other.exact.height_eq
  rw [depth_plug] at high
  -- the factor from the stored heights is that of the tree as it was
  have rests : ∀ d : Int, d = u.depth - f.sibling.depth ∨ d = f.sibling.depth - u.depth →
      rotate narrow d (f.plug t) = .ok (f.plug t) := fun d _ => rotate_rest (by omega) (by omega)
  obtain ⟨side, c, z, w⟩ := f
  simp only at here there near fixed high rests
  have kept : narrow z.height = .ok z.height := keeps _ (by omega) (by omega)
  have taller : (if height t > height w then height t else height w) + 1 = z.height := by
    rw [here, there]
    split <;> omega
  have taller' : (if height w > height t then height w else height t) + 1 = z.height := by
    rw [here, there]
    split <;> omega
  cases side with
  | left =>
    simp only [balance, Frame.plug, fixHeight, taller, kept, ok_bind, factor,
      keeps (height t - height w) (by omega) (by omega)]
    exact rests _ (.inl (by omega))
  | right =>
    simp only [balance, Frame.plug, fixHeight, taller', kept, ok_bind, factor,
      keeps (height w - height t) (by omega) (by omega)]
    exact rests _ (.inr (by omega))

/-- A node with at most one child is erased, and its child, if any, is in its place. -/
theorem unwind_single (avl : Avl 0 (ctx.plug (.node a l x r))) (high : (ctx.plug (.node a l x r)).depth ≤ 100)
    (only : (l = .nil ∧ s = r) ∨ (r = .nil ∧ s = l)) (notLast : ctx ≠ [] ∨ s ≠ .nil) :
    ∃ t', (match ctx with
      | [] => unwind narrow [] s
      | f :: fs => unwind narrow fs (f.plug s)) = .ok t' ∧ (Avl 0 t' ↔ Subsides ctx s.depth) := by
  have here : Avl 0 (LinkTree.node a l x r) := avl.inner
  obtain ⟨⟨balancedL, balancedR, near, near'⟩, exactL, exactR, _⟩ := here
  obtain ⟨avlS, short, shrunk⟩ : Avl 0 s ∧ s.depth ≤ 1 ∧ s.depth + 1 = (LinkTree.node a l x r).depth := by
    rcases only with ⟨rfl, rfl⟩ | ⟨rfl, rfl⟩
    · exact ⟨⟨balancedR, exactR⟩, by simpa using near', by simp⟩
    · exact ⟨⟨balancedL, exactL⟩, by simpa using near, by simp⟩
  cases ctx with
  | nil =>
    -- the child is the root now, and without children of its own
    have present : 0 < s.depth := by
      rw [Nat.pos_iff_ne_zero, Ne, depth_eq_zero]
      exact notLast.resolve_left (by simp)
    obtain ⟨f, u, _, rfl⟩ := exists_plug .left present
    obtain ⟨avlU, other, near, _⟩ := avl_plug.mp avlS
    rw [depth_plug] at short
    obtain ⟨w, run, avlW, _⟩ := balance_near keeps avlU other (by omega) (by omega) (by omega) (by omega)
    exact ⟨w, run, iff_of_true avlW trivial⟩
  | cons f fs =>
    have even : s.Even := fun side leans => by
      have := leans.one_lt_depth
      omega
    obtain ⟨t', run, exact, subsides⟩ := resume_subsides keeps avl avlS even shrunk high
    exact ⟨t', run, ⟨fun avl' => subsides.mp avl'.balanced, fun holds => ⟨subsides.mpr holds, exact⟩⟩⟩

/-- The last node of the left subtree is below the new root, and keeps the height that it had. -/
theorem balance_buried {inner : Context (NodeData K V)} (avl : Avl 0 (f.plug (inner.plug (.node b ml y .nil))))
    (near : (f.plug (inner.plug (.node b ml y .nil))).depth ≤ r.depth + 1)
    (high : (f.plug (inner.plug (.node b ml y .nil))).depth ≤ 100) :
    ∃ t', balance narrow (f.plug (inner.plug (.node b ml y r))) = .ok t' ∧ ¬ HeightsLag 0 t' := by
  refine ⟨_, balance_still keeps avl (height_plug_congr rfl) (by omega), fun exact => ?_⟩
  have tall : (LinkTree.node b ml y .nil).depth ≤ (inner.plug (.node b ml y .nil)).depth := Context.depth_le_plug
  obtain ⟨⟨_, _, short, _⟩, _, _, before⟩ := (avl_plug.mp avl).1.inner
  obtain ⟨_, _, after⟩ := heightsLag_inner (heightsLag_plug.mp exact).1
  rw [depth_plug] at near
  rw [depth_node, depth_nil] at tall
  rw [depth_nil] at short before
  omega

/-- The root is erased, and it had two children. -/
theorem unwind_root (avl : Avl 0 (LinkTree.node a (spine.plug (.node b ml y .nil)) x r))
    (high : (LinkTree.node a (spine.plug (.node b ml y .nil)) x r).depth ≤ 100) (rights : spine.OneSided .right)
    (present : 0 < r.depth) :
    (∃ t', unwind narrow [] (spine.plug (.node b ml y r)) = .ok t' ∧ Avl 0 t') ↔
      (edge (spine.plug (.node b ml y .nil))).length = 1 ∧
        ¬ (r.depth = (spine.plug (.node b ml y .nil)).depth + 1 ∧ r.Leans .left) := by
  obtain ⟨⟨balancedL, balancedR, near, near'⟩, exactL, exactR, _⟩ := avl
  have avlL : Avl 0 (spine.plug (.node b ml y .nil)) := ⟨balancedL, exactL⟩
  have avlR : Avl 0 r := ⟨balancedR, exactR⟩
  have length : (edge (spine.plug (.node b ml y .nil))).length = spine.length + 1 := by
    simp [edge_plug rights, edge]
  rw [depth_node] at high
  rw [length]
  rcases List.eq_nil_or_concat spine with rfl | ⟨inner, g, rfl⟩
  · -- the new root is the last node of the left subtree
    have depthL : (Frame.plug ⟨.right, b, y, ml⟩ .nil).depth = ml.depth + 1 := by simp
    have near' : r.depth ≤ (Frame.plug ⟨.right, b, y, ml⟩ .nil).depth + 1 := near'
    obtain ⟨_, other, _⟩ := avl_plug.mp (show Avl 0 (Frame.plug ⟨.right, b, y, ml⟩ .nil) from avlL)
    constructor
    · rintro ⟨t', run, avl'⟩
      refine ⟨rfl, ?_⟩
      rintro ⟨deep, leans⟩
      have deep : r.depth = (Frame.plug ⟨.right, b, y, ml⟩ .nil).depth + 1 := deep
      obtain ⟨w, run', _, _, unbalanced⟩ := balance_inward (f := ⟨.right, b, y, ml⟩) keeps (by decide) avlR other
        (by omega) (show r.depth = ml.depth + 2 by omega) (show ml.depth ≤ 123 by omega) leans
      obtain rfl : w = t' := Except.ok.inj (run'.symm.trans run)
      exact unbalanced avl'.balanced
    · rintro ⟨_, apart⟩
      obtain ⟨w, run, avlW, _⟩ := balance_last (e := ⟨.right, b, y, ml⟩) keeps rfl avlL avlR present
        (show r.depth ≤ ml.depth + 2 by omega) fun deep leans =>
          apart ⟨deep.trans (congrArg (· + 1) depthL.symm), leans⟩
      exact ⟨w, run, avlW⟩
  · -- the last node is below the new root, and keeps the height that it had
    refine iff_of_false ?_ (by simp)
    rintro ⟨t', run, avl'⟩
    simp only [List.concat_eq_append, Context.plug_append, Context.plug_cons, Context.plug_nil] at run avlL near high
    obtain ⟨w, run', stale⟩ := balance_buried (r := r) keeps avlL near (by omega)
    obtain rfl : w = t' := Except.ok.inj (run'.symm.trans run)
    exact stale avl'.exact

/-- A node below the root is erased, and it had two children. -/
theorem Splice.restores {e : Frame (NodeData K V)} {fs : Context (NodeData K V)} {old : AvlTree K V}
    (splice : Splice e fs (f :: ctx) r old) :
    (∃ t', resume narrow (e :: fs ++ f :: ctx) r = .ok t' ∧ Avl 0 t') ↔
      (Grafts (Context.plug (e :: fs) .nil) r ∧ (Sinks (Context.plug (e :: fs) .nil) r →
        Subsides (f :: ctx) (max (Context.plug (e :: fs) .nil).depth r.depth))) ∨
      Mended (f :: ctx) (Context.plug (e :: fs) .nil) r := by
  have high := splice.high
  have depth := splice.depth
  by_cases grafts : Grafts (Context.plug (e :: fs) .nil) r
  · obtain ⟨w, climbed, avlW, sinks, stays⟩ := graft keeps (f :: ctx) splice.rights (by simp) splice.left splice.right
      splice.present splice.near splice.near' grafts
    have apart : ¬ Mended (f :: ctx) (Context.plug (e :: fs) .nil) r := by
      intro mended
      obtain ⟨g, rfl, mid, deep, even, _⟩ := (mended_cons splice.rights).mp mended
      rcases (grafts_cons splice.rights).mp grafts with low | ⟨_, ⟨outward, _⟩ | ⟨_, none | first⟩⟩
      · omega
      · exact even _ outward
      · simp at none
      · simp [mid] at first
    rw [climbed]
    -- a left subtree that has not sunk is as deep as the erased node was
    by_cases low : Sinks (Context.plug (e :: fs) .nil) r
    · obtain ⟨even, depthW⟩ := sinks low
      obtain ⟨t', run, exact, subsides⟩ := resume_subsides keeps splice.whole avlW even (by omega) splice.high
      rw [depthW] at subsides
      simp only [run, Except.ok.injEq, exists_eq_left', grafts, low, apart, true_and, true_implies, or_false]
      exact ⟨fun avl' => subsides.mp avl'.balanced, fun holds => ⟨subsides.mpr holds, exact⟩⟩
    · obtain ⟨t', run, exact, balanced⟩ := splice.same keeps avlW.exact (by rw [stays low, depth])
      exact iff_of_true ⟨t', run, balanced.mpr avlW.balanced, exact⟩ (.inl ⟨grafts, fun sinks => absurd sinks low⟩)
  · by_cases mended : Mended (f :: ctx) (Context.plug (e :: fs) .nil) r
    · obtain ⟨g, rfl, mid, deep, even, side, level, straight⟩ := (mended_cons splice.rights).mp mended
      exact iff_of_true (splice.mends keeps deep even mid side level straight) (.inr mended)
    · refine iff_of_false ?_ (by tauto)
      rintro ⟨t', run, avl'⟩
      exact splice.spoils keeps grafts mended run avl'.balanced

end

end AvlTree

namespace RangeMap

open AvlTree

variable {m : RangeMap K V} {t : AvlTree K V} {a : Addr}

/-- The element is erased, and the tree is balanced with exact heights. -/
def EraseBalances (m : RangeMap K V) (a : Addr) : Prop :=
  ∃ m' t', m.erase wrapInt8 (some a) = .ok m' ∧ m'.Stores t' ∧ t'.Avl 0

section

variable {ctx ctx' : Context (NodeData K V)} {l r s : AvlTree K V} {x : NodeData K V}

/-- Only the rebalancing matters. -/
theorem eraseBalances_unwind (stores : m.Stores (ctx.plug (.node a l x r))) (erased : ErasedBy m ctx a l r x ctx' s) :
    m.EraseBalances a ↔ ∃ t', unwind wrapInt8 ctx' s = .ok t' ∧ Avl 0 t' := by
  obtain ⟨h', b, root, remaining, rep, _, _, run⟩ := erased
  have erases : m.erase wrapInt8 (some a) = doRebalanceFrom wrapInt8 h' b := run wrapInt8
  have follows := doRebalanceFrom_follows wrapInt8 ctx' root rep (nodup_remaining stores.nodup remaining)
  unfold EraseBalances
  rw [erases]
  cases spec : unwind wrapInt8 ctx' s with
  | error e =>
    simp only [spec] at follows
    simp [follows]
  | ok t' =>
    simp only [spec] at follows
    obtain ⟨m', done, stores', _⟩ := follows
    simp only [done, Except.ok.injEq, exists_eq_left', exists_and_left]
    refine ⟨?_, fun avl => ⟨t', stores', avl⟩⟩
    rintro ⟨t'', stores'', avl⟩
    rwa [stores'.unique stores'']

theorem erase_single (stores : m.Stores (ctx.plug (.node a l x r))) (avl : Avl 0 (ctx.plug (.node a l x r)))
    (high : (ctx.plug (.node a l x r)).depth ≤ 100) (only : (l = .nil ∧ s = r) ∨ (r = .nil ∧ s = l)) :
    m.EraseBalances a ↔ Subsides ctx s.depth := by
  by_cases last : ctx = [] ∧ s = .nil
  · obtain ⟨rfl, rfl⟩ := last
    obtain ⟨rfl, rfl⟩ : l = .nil ∧ r = .nil := by
      rcases only with ⟨rfl, same⟩ | ⟨rfl, same⟩
      · exact ⟨rfl, same.symm⟩
      · exact ⟨same.symm, rfl⟩
    have here := stores.rep.1
    refine iff_of_true ⟨{ m with root := none }, .nil, ?_, ⟨rfl, trivial, by simp⟩, trivial, trivial⟩ trivial
    simp [erase, doEraseNode, deref_of_lookup here]
  · have notLast : ctx ≠ [] ∨ s ≠ .nil := not_and_or.mp last
    have erased := eraseSingle stores only notLast
    obtain ⟨t', run, subsides⟩ := unwind_single (fun z => wrapInt8_eq) avl high only notLast
    rw [← subsides]
    cases ctx with
    | nil =>
      rw [eraseBalances_unwind stores erased]
      simp [run]
    | cons f fs =>
      rw [eraseBalances_unwind stores erased]
      simp [run]

theorem erase_double (stores : m.Stores (ctx.plug (.node a l x r))) (avl : Avl 0 (ctx.plug (.node a l x r)))
    (high : (ctx.plug (.node a l x r)).depth ≤ 100) (hasLeft : l ≠ .nil) (hasRight : r ≠ .nil) :
    m.EraseBalances a ↔ Restores ctx l r := by
  obtain ⟨spine, b, ml, y, rfl, rights, erased⟩ := eraseDouble stores hasLeft hasRight
  have present : 0 < r.depth := by simpa [Nat.pos_iff_ne_zero] using hasRight
  have both : ¬ ((spine.plug (.node b ml y .nil)).root = none ∨ r.root = none) := by simp [hasLeft, hasRight]
  simp only [Restores, both, if_false]
  cases ctx with
  | nil =>
    rw [eraseBalances_unwind stores erased]
    exact unwind_root (fun z => wrapInt8_eq) avl high rights present
  | cons f fs =>
    obtain ⟨⟨balancedL, balancedR, near, near'⟩, exactL, exactR, _⟩ := avl.inner
    -- the last node is one more frame of the path, under which the right subtree is hung
    have splice : Splice ⟨.right, b, y, ml⟩ spine (f :: fs) r (.node a (spine.plug (.node b ml y .nil)) x r) := {
      rights := by
        intro g member
        rcases List.mem_cons.mp member with rfl | inSpine
        · rfl
        · exact rights g inSpine
      left := ⟨balancedL, exactL⟩
      right := ⟨balancedR, exactR⟩
      present, near := near', near' := near, whole := avl, depth := rfl, high }
    rw [eraseBalances_unwind stores erased]
    exact splice.restores fun z => wrapInt8_eq

end

/-- The elements whose erasure leaves an exact balanced tree exact and balanced. -/
theorem eraseBalances_iff (stores : m.Stores t) (avl : t.Avl 0) (addresses : ∀ b ∈ t.addrs, b < 2 ^ 64)
    (member : a ∈ t.addrs) : m.EraseBalances a ↔ t.EraseRestores a := by
  have few := length_le_of_lt stores.nodup addresses
  rw [LinkTree.length_addrs] at few
  have shallow := avl.balanced.depth_le few
  -- the answer is the same at whatever position the node is found
  have position : ∀ {ctx : Context (NodeData K V)} {l r : AvlTree K V} {x : NodeData K V},
      t = ctx.plug (.node a l x r) → (m.EraseBalances a ↔ Restores ctx l r) := by
    rintro ctx l r x rfl
    by_cases single : l.root = none ∨ r.root = none
    · simp only [Restores, single, if_true]
      rcases single with noLeft | noRight
      · obtain rfl := LinkTree.root_eq_none.mp noLeft
        simpa using erase_single stores avl (by omega) (.inl ⟨rfl, rfl⟩)
      · obtain rfl := LinkTree.root_eq_none.mp noRight
        simpa using erase_single stores avl (by omega) (.inr ⟨rfl, rfl⟩)
    · obtain ⟨hasLeft, hasRight⟩ := not_or.mp single
      exact erase_double stores avl (by omega) (by simpa using hasLeft) (by simpa using hasRight)
  constructor
  · intro balances
    obtain ⟨ctx, l, x, r, split⟩ := Context.exists_focus member
    exact ⟨ctx, l, x, r, split, (position split).mp balances⟩
  · rintro ⟨ctx, l, x, r, split, restores⟩
    exact (position split).mpr restores

/-- A map that insertions and one erasure lead to, exact and balanced: the left child of the root has
a right child. -/
def bent : AvlTree Nat Nat :=
  .node 11 (.node 12 .nil ⟨2, ⟨0, 1⟩, 2⟩ (.node 13 .nil ⟨1, ⟨10, 11⟩, 3⟩ .nil)) ⟨3, ⟨20, 21⟩, 1⟩
    (.node 10 .nil ⟨1, ⟨40, 41⟩, 0⟩ .nil)

def bentMap : Except Fault (RangeMap Nat Nat) := do
  let m ← insertAll .init [(10, ⟨40, 41⟩, 0), (11, ⟨20, 21⟩, 1), (12, ⟨0, 1⟩, 2), (13, ⟨10, 11⟩, 3), (14, ⟨5, 6⟩, 4)]
  m.erase wrapInt8 (some 14)

theorem bentMap_stores : ∃ m, bentMap = .ok m ∧ m.Stores bent := by
  refine ⟨_, rfl, rfl, ?_, by decide⟩
  simp [bent, Represents]
  decide

/-- A leaf is erased, and no node above it comes to lean too far. -/
theorem eraseBalances_leaf : ∃ m, bentMap = .ok m ∧ m.EraseBalances 13 := by
  obtain ⟨m, run, stores⟩ := bentMap_stores
  refine ⟨m, run, (eraseBalances_iff stores ⟨by decide, by decide⟩ (by decide) (by decide)).mpr ?_⟩
  let below : Frame (NodeData Nat Nat) := ⟨.right, 12, ⟨2, ⟨0, 1⟩, 2⟩, .nil⟩
  let top : Frame (NodeData Nat Nat) := ⟨.left, 11, ⟨3, ⟨20, 21⟩, 1⟩, .node 10 .nil ⟨1, ⟨40, 41⟩, 0⟩ .nil⟩
  refine ⟨[below, top], .nil, ⟨1, ⟨10, 11⟩, 3⟩, .nil, rfl, ?_⟩
  simp [Restores]
  decide

/-- The root is erased: what was its left subtree is a chain of three, and is not rebalanced. -/
theorem erase_unbalanced : ∃ (m m' : RangeMap Nat Nat) (t' : AvlTree Nat Nat), bentMap = .ok m ∧ m.Stores bent ∧
    bent.Balanced ∧ bent.HeightsLag 0 ∧ 11 ∈ bent.addrs ∧ m.erase wrapInt8 (some 11) = .ok m' ∧ m'.Stores t' ∧
      ¬ t'.Balanced ∧ ¬ t'.HeightsLag 0 := by
  refine ⟨_, _, .node 12 .nil ⟨2, ⟨0, 1⟩, 2⟩ (.node 13 .nil ⟨1, ⟨10, 11⟩, 3⟩ (.node 10 .nil ⟨1, ⟨40, 41⟩, 0⟩ .nil)),
    rfl, ⟨rfl, ?_, by decide⟩, by decide, by decide, by decide, rfl, ⟨rfl, ?_, by decide⟩, by decide, by decide⟩
  · simp [bent, Represents]
    decide
  · simp [Represents]
    decide

end RangeMap

end SmallObject
