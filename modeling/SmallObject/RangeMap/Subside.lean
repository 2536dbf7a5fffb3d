import SmallObject.RangeMap.Heights

/-! The way up from a subtree that has become one lower.

Where the other subtree is two higher now, it is lifted as it is. That balances the node unless
this subtree leans inward, and the way up goes on only when it leans outward.
-/

set_option autoImplicit false

namespace SmallObject

open Linked LinkTree

variable {K V : Type}

namespace AvlTree

/-- A subtree at the end of a path has now this depth, one less than before, and the rotations on
the way up are of subtrees that do not lean inward. -/
def Subsides : Context (NodeData K V) → Nat → Prop
  | [], _ => True
  | f :: fs, depth =>
    if f.sibling.depth = depth + 2 then
      ¬ f.sibling.Leans f.side ∧ (f.sibling.Leans f.side.other → Subsides fs (depth + 2))
    else f.sibling.depth = depth + 1 ∨ Subsides fs (depth + 1)

instance decidableSubsides : (ctx : Context (NodeData K V)) → (depth : Nat) → Decidable (Subsides ctx depth)
  | [], _ => isTrue trivial
  | f :: fs, depth =>
    have := decidableSubsides fs (depth + 1)
    have := decidableSubsides fs (depth + 2)
    inferInstanceAs (Decidable (if f.sibling.depth = depth + 2 then
      ¬ f.sibling.Leans f.side ∧ (f.sibling.Leans f.side.other → Subsides fs (depth + 2))
      else f.sibling.depth = depth + 1 ∨ Subsides fs (depth + 1)))

variable {narrow : Narrowing} (keeps : ∀ z, -128 ≤ z → z ≤ 127 → narrow z = .ok z)
  {ctx : Context (NodeData K V)} {t u : AvlTree K V}

include keeps

theorem resume_subsides (avl : Avl 0 (ctx.plug u)) (avl' : Avl 0 t) (even : t.Even) (shrunk : t.depth + 1 = u.depth)
    (high : (ctx.plug u).depth ≤ 100) :
    ∃ t', resume narrow ctx t = .ok t' ∧ HeightsLag 0 t' ∧ (t'.Balanced ↔ Subsides ctx t.depth) := by
  induction ctx generalizing t u with
  | nil => exact ⟨t, rfl, avl'.exact, iff_of_true avl'.balanced trivial⟩
  | cons f fs ih =>
    have outside : Avl 0 (Context.plug fs (f.plug u)) := avl
    obtain ⟨_, other, near, _⟩ := avl_plug.mp outside.inner
    have high' : (Context.plug fs (f.plug u)).depth ≤ 100 := high
    have bound := Context.depth_le_plug.trans high'
    rw [depth_plug] at bound
    -- a node as deep as it was before ends the way up
    have ends : ∀ w : AvlTree K V, HeightsLag 0 w → w.depth = (f.plug u).depth →
        ∃ t', resume narrow fs w = .ok t' ∧ HeightsLag 0 t' ∧ (t'.Balanced ↔ w.Balanced) := by
      intro w exact same
      obtain ⟨t', run, exact', _, balanced⟩ := resume_same keeps [] outside exact same (by omega) (by omega)
      rw [List.append_nil] at run
      exact ⟨t', run, exact', balanced⟩
    rw [resume_cons]
    by_cases deep : f.sibling.depth = t.depth + 2
    · -- the sibling is lifted, so the node is seen from the other side
      have straight : ¬ t.Crooked f.side.other.other := even.not_crooked _
      have depthOld : (f.plug u).depth = t.depth + 3 := by
        rw [depth_plug]
        omega
      simp only [Subsides, deep, if_true]
      rw [← f.plug_swap t]
      rcases leans_or_even f.side f.sibling with inward | level | outward
      · have inward' : f.sibling.Leans (f.swap t).side.other := by simpa [Frame.swap] using inward
        obtain ⟨w, run, exact, depthW, unbalanced⟩ := balance_inward (f := f.swap t) keeps (by decide) other avl'
          (by omega) deep (show t.depth ≤ 123 by omega) inward'
        obtain ⟨t', run', exact', same⟩ := ends w exact (by omega)
        rw [run, ok_bind]
        exact ⟨t', run', exact', iff_of_false (unbalanced ∘ same.mp) fun subsides => subsides.1 inward⟩
      · obtain ⟨w, run, avlW, depthW, _⟩ := balance_even (f := f.swap t) keeps (by decide) other avl' straight
          (by omega) deep (show t.depth ≤ 123 by omega) level
        obtain ⟨t', run', exact', same⟩ := ends w avlW.exact (by omega)
        rw [run, ok_bind]
        exact ⟨t', run', exact', iff_of_true (same.mpr avlW.balanced) ⟨level _, fun leans => absurd leans (level _)⟩⟩
      · obtain ⟨w, run, avlW, depthW, evenW⟩ := balance_outward (f := f.swap t) keeps (by decide) other avl' straight
          (by omega) deep (show t.depth ≤ 123 by omega) outward
        obtain ⟨t', run', exact', subsides⟩ := ih outside avlW evenW (by omega) high
        rw [run, ok_bind]
        refine ⟨t', run', exact', subsides.trans ?_⟩
        rw [depthW, deep]
        exact ⟨fun rest => ⟨fun leans => leans.not_other outward, fun _ => rest⟩, fun both => both.2 outward⟩
    · simp only [Subsides, deep, if_false]
      obtain ⟨w, run, avlW, depthW, leansW⟩ := balance_near keeps avl' other (by omega) (by omega) (by omega) (by omega)
      rw [run, ok_bind]
      by_cases absorbed : f.sibling.depth = t.depth + 1
      · obtain ⟨t', run', exact', same⟩ := ends w avlW.exact (by rw [depth_plug]; omega)
        exact ⟨t', run', exact', iff_of_true (same.mpr avlW.balanced) (.inl absorbed)⟩
      · have level : t.depth = f.sibling.depth := by omega
        have grown : w.depth = t.depth + 1 := by omega
        obtain ⟨t', run', exact', subsides⟩ := ih outside avlW ((even_plug.mpr level).congr leansW)
          (by rw [depthW, depth_plug]; omega) high
        refine ⟨t', run', exact', subsides.trans ?_⟩
        rw [grown]
        exact ⟨.inr, fun rest => rest.resolve_left absorbed⟩

end AvlTree

end SmallObject
