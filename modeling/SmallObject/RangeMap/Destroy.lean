import SmallObject.RangeMap.Erase

/-! Destruction: the walk of `do_destroy_tree` without a stack.

Each round goes down to a node without a left child. A right child sends the next
round further down; a leaf is cut off and destroyed, and the next round starts at its
parent. Twice the number of nodes less the depth falls in every round.
-/

set_option autoImplicit false

namespace SmallObject

open Linked

variable {K V : Type}

section Destroy

variable {h : Nodes K V}

/-- What is left of a tree: a root without children, and the memory of no other node. -/
def OnlyRoot (h h' : Nodes K V) (t : AvlTree K V) : Prop :=
  ∃ a x, t.root = some a ∧ h'.lookup a = some ⟨none, none, none, x⟩ ∧
    (∀ b ∈ t.addrs, b ≠ a → h'.lookup b = none) ∧ AgreeOff t.addrs h h'

/-- A leaf below the root is cut off and destroyed. -/
theorem cutLeaf_represents {f : Frame (NodeData K V)} {fs : Context (NodeData K V)} {c : Addr}
    {y : NodeData K V} (rep : Represents h none (Context.plug (f :: fs) (.node c .nil y .nil)))
    (nodup : (Context.plug (f :: fs) (.node c .nil y .nil)).addrs.Nodup) :
    ∃ parent h', h.lookup f.addr = some parent ∧
      (RangeMap.hang h (parent.left == some c) f.addr none >>= fun h => RangeMap.destroyNode h c) = .ok h' ∧
      Represents h' none (Context.plug (f :: fs) .nil) ∧ (Context.plug (f :: fs) (.nil : AvlTree K V)).addrs.Nodup ∧
      h'.lookup c = none ∧ AgreeOff (Context.plug (f :: fs) (.node c .nil y .nil)).addrs h h' := by
  obtain ⟨context, here, _⟩ := Context.represents_plug.mp rep
  have apart := Context.apart_of_nodup nodup
  have offLeaf : c ∉ Context.addrs (f :: fs) := fun member => apart c member (by simp)
  have nodup' : (Context.plug (f :: fs) (.nil : AvlTree K V)).addrs.Nodup := by
    refine (Context.addrs_plug_perm _ _).nodup_iff.mpr ?_
    exact ((Context.addrs_plug_perm _ _).nodup_iff.mp nodup).of_append_right
  obtain ⟨parent, foundParent, side⟩ := parent_cell (t := .node c .nil y .nil) context rfl nodup
  obtain ⟨h₁, hung, rep₁, agree⟩ := hang_represents context (show Represents h none .nil from trivial) nodup'
  -- only the parent of the leaf is written, so that the leaf is still there to be destroyed
  have onlyParent : c ∉ f.addr :: (LinkTree.nil : AvlTree K V).root.toList := by
    intro member
    obtain rfl : c = f.addr := by simpa using member
    exact offLeaf (Context.mem_addrs_cons.mpr (.inl rfl))
  refine ⟨parent, h₁.erase c, foundParent, ?_, ?_, nodup', AList.lookup_erase _ _, (agree.mono ?_).erase ?_⟩
  · rw [side, show (none : Ptr) = (LinkTree.nil : AvlTree K V).root from rfl, hung]
    simp [RangeMap.destroyNode, deref_of_lookup ((agree c onlyParent).trans here)]
  · refine rep₁.transport fun b member => AList.lookup_erase_ne ?_
    rintro rfl
    exact offLeaf (Context.mem_addrs_plug_nil.mp member)
  · intro b member
    obtain rfl : b = f.addr := by simpa using member
    exact Context.mem_addrs_plug.mpr (.inr (Context.mem_addrs_cons.mpr (.inl rfl)))
  · exact Context.mem_addrs_plug.mpr (.inl (by simp))

/-- Destroying what is left of a tree without one of its leaves destroys the tree. -/
theorem OnlyRoot.cut {h₁ h' : Nodes K V} {f : Frame (NodeData K V)} {fs : Context (NodeData K V)} {c : Addr}
    {y : NodeData K V} (nodup : (Context.plug (f :: fs) (.node c .nil y .nil)).addrs.Nodup)
    (gone : h₁.lookup c = none) (agree : AgreeOff (Context.plug (f :: fs) (.node c .nil y .nil)).addrs h h₁)
    (only : OnlyRoot h₁ h' (Context.plug (f :: fs) .nil)) :
    OnlyRoot h h' (Context.plug (f :: fs) (.node c .nil y .nil)) := by
  obtain ⟨a, x, atRoot, last, others, agree'⟩ := only
  have sameRoot : (Context.plug (f :: fs) (.node c .nil y .nil)).root =
      (Context.plug (f :: fs) (.nil : AvlTree K V)).root := by
    rw [Context.plug_cons, Context.plug_cons]
    exact Context.root_plug (by rw [f.root_plug, f.root_plug])
  have smaller : ∀ b ∈ (Context.plug (f :: fs) (.nil : AvlTree K V)).addrs,
      b ∈ (Context.plug (f :: fs) (.node c .nil y .nil)).addrs := fun b member =>
    Context.mem_addrs_plug.mpr (.inr (Context.mem_addrs_plug_nil.mp member))
  refine ⟨a, x, sameRoot.trans atRoot, last, fun b member other => ?_, agree.trans (agree'.mono smaller)⟩
  by_cases isLeaf : b = c
  · subst isLeaf
    refine (agree' b fun inside => ?_).trans gone
    exact Context.apart_of_nodup nodup b (Context.mem_addrs_plug_nil.mp inside) (by simp)
  · have inContext := (Context.mem_addrs_plug.mp member).resolve_left (by simpa using isLeaf)
    exact others b (Context.mem_addrs_plug_nil.mpr inContext) other

/-- The walk from any node on, with fuel for two visits of every node that is left, less the depth. -/
theorem doDestroyTree_follows (ctx : Context (NodeData K V)) (fuel : Nat) {t : AvlTree K V} {a : Addr}
    (root : t.root = some a) (rep : Represents h none (ctx.plug t)) (nodup : (ctx.plug t).addrs.Nodup)
    (enough : 2 * (ctx.plug t).size < fuel + ctx.length) :
    ∃ h', RangeMap.doDestroyTree fuel h (some a) = .ok h' ∧ OnlyRoot h h' (ctx.plug t) := by
  induction fuel generalizing h ctx t a with
  | zero =>
    have := Context.length_le_addrs ctx
    rw [Context.size_plug] at enough
    omega
  | succ fuel ih =>
    have stored := (Context.represents_plug.mp rep).2
    have within : t.size ≤ rounds h := (size_lt_rounds stored (Context.nodup_inner nodup)).le
    obtain ⟨spine, b, l, x, rfl, _, toRight⟩ := rightmost_follows stored root within
    have storedRight := (Context.represents_plug.mp stored).2
    have withinRight : (LinkTree.node b l x .nil).size ≤ rounds h := by
      rw [Context.size_plug] at within
      omega
    obtain ⟨spine', c, y, r, flat, _, toLeft⟩ := leftmost_follows storedRight rfl withinRight
    -- the node that the round ends at, seen from the root of the whole tree
    rw [flat, ← Context.plug_append, ← Context.plug_append] at rep nodup enough ⊢
    have depth : ctx.length ≤ (spine' ++ (spine ++ ctx)).length := by simp; omega
    generalize spine' ++ (spine ++ ctx) = path at *
    obtain ⟨_, here, _, right⟩ := Context.represents_plug.mp rep
    simp only [RangeMap.doDestroyTree, toRight, toLeft, ok_bind, deref_of_lookup here]
    cases r with
    | node d rl z rr =>
      refine ih (⟨.right, c, y, .nil⟩ :: path) (t := .node d rl z rr) rfl rep nodup ?_
      simp only [Context.plug_cons, Frame.plug, List.length_cons]
      omega
    | nil =>
      cases path with
      | nil =>
        refine ⟨h, by cases fuel <;> rfl, c, y, rfl, here, fun e member other => ?_, AgreeOff.refl _ _⟩
        exact absurd (by simpa using member) other
      | cons f fs =>
        obtain ⟨parent, h₁, foundParent, cut, rep₁, nodup₁, gone, agree⟩ := cutLeaf_represents rep nodup
        obtain ⟨h₀, hung, destroyed⟩ := bind_eq_ok cut
        have sizes : (Context.plug (f :: fs) (.node c .nil y .nil)).size =
            (Context.plug (f :: fs) (.nil : AvlTree K V)).size + 1 := by
          rw [Context.size_plug, Context.size_plug]
          simp
          omega
        have enoughRest : 2 * (Context.plug fs (f.plug (.nil : AvlTree K V))).size < fuel + fs.length := by
          rw [sizes, Context.plug_cons] at enough
          rw [List.length_cons] at depth
          omega
        obtain ⟨h', run, only⟩ := ih fs (f.root_plug .nil) rep₁ nodup₁ enoughRest
        refine ⟨h', ?_, only.cut nodup gone agree⟩
        simp [deref_of_lookup foundParent, hung, destroyed, run]

end Destroy

/-- `clear` ends, and destroys all nodes of the map and nothing else. -/
theorem clear_follows {m : RangeMap K V} {t : AvlTree K V} (stores : m.Stores t) :
    ∃ m', m.clear = .ok m' ∧ m'.Stores .nil ∧ (∀ a ∈ t.addrs, m'.nodes.lookup a = none) ∧
      AgreeOff t.addrs m.nodes m'.nodes := by
  obtain ⟨root, rep, nodup⟩ := stores
  cases t with
  | nil =>
    refine ⟨m, ?_, ⟨root, trivial, by simp⟩, by simp, AgreeOff.refl _ _⟩
    simp [RangeMap.clear, root]
  | node a l x r =>
    have enough : 2 * (LinkTree.node a l x r).size < 2 * rounds m.nodes := by
      have := size_lt_rounds rep nodup
      omega
    obtain ⟨h', run, b, y, atRoot, last, others, agree⟩ := doDestroyTree_follows [] (2 * rounds m.nodes)
      rfl rep nodup enough
    obtain rfl : a = b := by simpa using atRoot
    refine ⟨⟨h'.erase a, none⟩, ?_, ⟨rfl, trivial, by simp⟩, fun c member => ?_, agree.erase (by simp)⟩
    · simp [RangeMap.clear, root, run, RangeMap.destroyNode, deref_of_lookup last]
    · by_cases same : c = a
      · rw [same]
        exact AList.lookup_erase _ _
      · rw [AList.lookup_erase_ne same]
        exact others c member same

end SmallObject
