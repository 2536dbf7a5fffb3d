import SmallObject.RangeMap.Erase
import SmallObject.RangeMap.Subside

/-! Erasing a node with two children: the right subtree goes under the last node of the left one.

There it is as a rule too deep, since a last node has a left subtree of depth one at most. A
difference of more than two is never rotated, and a difference of two is made good only when
the right subtree does not lean inward; the nodes above see a subtree that is up to two deeper.
-/

set_option autoImplicit false

namespace SmallObject

open Linked LinkTree

variable {K V : Type}

namespace AvlTree

/-- The depths of the left subtrees along the right edge, from the last node up. -/
def edge : AvlTree K V → List Nat
  | .nil => []
  | .node _ l _ r => edge r ++ [l.depth]

/-- The left subtree is balanced again with the right one under its last node. -/
def Grafts (l r : AvlTree K V) : Prop :=
  match edge l with
  | [] => True
  | m :: rest =>
    r.depth ≤ m + 1 ∨ r.depth = m + 2 ∧
      ((r.Leans .right ∧ ¬ [m, m + 1] <+: rest) ∨ (r.Even ∧ (rest = [] ∨ [m + 2] <+: rest)))

/-- It is then no deeper than the deeper one of the two was. -/
def Sinks (l r : AvlTree K V) : Prop :=
  match edge l with
  | [] => True
  | m :: rest =>
    r.depth = m ∨ (r.depth = m + 1 ∧ [m] <+: rest) ∨
      (r.depth = m + 2 ∧ r.Leans .right ∧ (rest = [] ∨ rest = [m + 2] ∨ rest = [m + 1, m + 1]))

theorem edge_plug {edges : Context (NodeData K V)} (rights : edges.OneSided .right) (t : AvlTree K V) :
    edge (edges.plug t) = edge t ++ edges.map fun f => f.sibling.depth := by
  induction edges generalizing t with
  | nil => simp
  | cons f fs ih =>
    obtain ⟨side, a, x, w⟩ := f
    obtain rfl : side = .right := rights _ List.mem_cons_self
    rw [Context.plug_cons, ih (fun g member => rights g (List.mem_cons_of_mem _ member))]
    simp [Frame.plug, edge]

/-- What has become of the left subtree. -/
def Regrown (l r w : AvlTree K V) : Prop :=
  Avl 0 w ∧ (Sinks l r → w.Even ∧ w.depth = max l.depth r.depth) ∧ (¬ Sinks l r → w.depth = max l.depth r.depth + 1)

section

variable {e : Frame (NodeData K V)} {fs : Context (NodeData K V)} {l r w : AvlTree K V}

theorem edge_cons (rights : Context.OneSided .right (e :: fs)) :
    edge (Context.plug (e :: fs) .nil) = e.sibling.depth :: fs.map fun f => f.sibling.depth := by
  rw [edge_plug rights]
  rfl

theorem grafts_cons (rights : Context.OneSided .right (e :: fs)) :
    Grafts (Context.plug (e :: fs) .nil) r ↔ r.depth ≤ e.sibling.depth + 1 ∨ r.depth = e.sibling.depth + 2 ∧
      ((r.Leans .right ∧ ¬ [e.sibling.depth, e.sibling.depth + 1] <+: fs.map fun f => f.sibling.depth) ∨
        (r.Even ∧ (fs = [] ∨ [e.sibling.depth + 2] <+: fs.map fun f => f.sibling.depth))) := by
  simp only [Grafts, edge_cons rights, List.map_eq_nil_iff]

theorem sinks_cons (rights : Context.OneSided .right (e :: fs)) :
    Sinks (Context.plug (e :: fs) .nil) r ↔ r.depth = e.sibling.depth ∨
      (r.depth = e.sibling.depth + 1 ∧ [e.sibling.depth] <+: fs.map fun f => f.sibling.depth) ∨
      (r.depth = e.sibling.depth + 2 ∧ r.Leans .right ∧
        (fs = [] ∨ (fs.map fun f => f.sibling.depth) = [e.sibling.depth + 2] ∨
          (fs.map fun f => f.sibling.depth) = [e.sibling.depth + 1, e.sibling.depth + 1])) := by
  simp only [Sinks, edge_cons rights, List.map_eq_nil_iff]

theorem Regrown.sinks (avl : Avl 0 w) (sinks : Sinks l r) (even : w.Even) (depth : w.depth = max l.depth r.depth) :
    Regrown l r w := ⟨avl, fun _ => ⟨even, depth⟩, fun stays => absurd sinks stays⟩

theorem Regrown.stays (avl : Avl 0 w) (stays : ¬ Sinks l r) (depth : w.depth = max l.depth r.depth + 1) :
    Regrown l r w := ⟨avl, fun sinks => absurd sinks stays, fun _ => depth⟩

end

section

variable {narrow : Narrowing} (keeps : ∀ z, -128 ≤ z → z ≤ 127 → narrow z = .ok z) {e f : Frame (NodeData K V)}
  {t u w : AvlTree K V}

theorem resume_step {fs : Context (NodeData K V)} (run : balance narrow (f.plug t) = .ok w) :
    resume narrow (f :: fs) t = resume narrow fs w := by
  rw [resume_cons, run, ok_bind]

include keeps

/-- Balancing the last node with the right subtree under it. -/
theorem balance_last (right : e.side = .right) (avl : Avl 0 (e.plug .nil)) (avl' : Avl 0 t) (present : 0 < t.depth)
    (high : t.depth ≤ e.sibling.depth + 2) (back : t.depth = e.sibling.depth + 2 → ¬ t.Leans .left) :
    ∃ w, balance narrow (e.plug t) = .ok w ∧ Avl 0 w ∧
      ((t.depth = e.sibling.depth ∧ w.depth = e.sibling.depth + 1 ∧ w.Even) ∨
       (t.depth = e.sibling.depth + 1 ∧ w.depth = e.sibling.depth + 2 ∧ w.Leans .right) ∨
       (t.depth = e.sibling.depth + 2 ∧ t.Leans .right ∧ w.depth = e.sibling.depth + 2 ∧ w.Even) ∨
       (t.depth = e.sibling.depth + 2 ∧ t.Even ∧ w.depth = e.sibling.depth + 3 ∧ w.Leans .left)) := by
  obtain ⟨_, other, ⟨_, short⟩, _⟩ := avl_plug.mp avl
  rw [depth_nil] at short
  have straight : ¬ e.sibling.Crooked e.side.other := not_crooked (by omega)
  by_cases deep : t.depth = e.sibling.depth + 2
  · rcases leans_or_even .right t with outward | even | inward
    · obtain ⟨w, run, avlW, depthW, evenW⟩ := balance_outward keeps (by decide) avl' other straight (by omega) deep
        (by omega) (right ▸ outward)
      exact ⟨w, run, avlW, .inr (.inr (.inl ⟨deep, outward, by omega, evenW⟩))⟩
    · obtain ⟨w, run, avlW, depthW, leansW⟩ := balance_even keeps (by decide) avl' other straight (by omega) deep
        (by omega) even
      exact ⟨w, run, avlW, .inr (.inr (.inr ⟨deep, even, by omega, by rw [right] at leansW; exact leansW⟩))⟩
    · exact absurd inward (back deep)
  · obtain ⟨w, run, avlW, depthW, leansW⟩ := balance_near keeps avl' other (by omega) (by omega) (by omega) (by omega)
    refine ⟨w, run, avlW, ?_⟩
    by_cases level : t.depth = e.sibling.depth
    · exact .inl ⟨level, by omega, (even_plug.mpr level).congr leansW⟩
    · refine .inr (.inl ⟨by omega, by omega, ?_⟩)
      rw [leansW, ← right, leans_plug]
      omega

/-- The right subtree under a last node that is the root of the left one. -/
theorem graft_one (outer : Context (NodeData K V)) (rights : Context.OneSided .right [e])
    (avl : Avl 0 (Context.plug [e] .nil)) (avl' : Avl 0 t) (present : 0 < t.depth)
    (near : t.depth ≤ (Context.plug [e] .nil).depth + 1) (back : t.depth = e.sibling.depth + 2 → ¬ t.Leans .left) :
    ∃ w, resume narrow ([e] ++ outer) t = resume narrow outer w ∧ Regrown (Context.plug [e] .nil) t w := by
  have depthL : (Context.plug [e] .nil).depth = e.sibling.depth + 1 := by simp
  obtain ⟨w, run, avlW, outcome⟩ := balance_last keeps (rights e List.mem_cons_self) avl avl' present (by omega) back
  refine ⟨w, resume_step run, ?_⟩
  rcases outcome with ⟨level, depthW, evenW⟩ | ⟨deep, depthW, _⟩ | ⟨deep, outward, depthW, evenW⟩ |
    ⟨deep, even, depthW, _⟩
  · exact .sinks avlW ((sinks_cons rights).mpr (.inl level)) evenW (by omega)
  · refine .stays avlW (fun sinks => ?_) (by omega)
    rcases (sinks_cons rights).mp sinks with same | ⟨_, first⟩ | ⟨two, _⟩
    · omega
    · simp at first
    · omega
  · exact .sinks avlW ((sinks_cons rights).mpr (.inr (.inr ⟨deep, outward, .inl rfl⟩))) evenW (by omega)
  · refine .stays avlW (fun sinks => ?_) (by omega)
    rcases (sinks_cons rights).mp sinks with same | ⟨one, _⟩ | ⟨_, leans, _⟩
    · omega
    · omega
    · exact even _ leans

/-- The right subtree under a last node that is the right child of the root. -/
theorem graft_two (outer : Context (NodeData K V)) (rights : Context.OneSided .right [e, f])
    (avl : Avl 0 (Context.plug [e, f] .nil)) (avl' : Avl 0 t) (near : (Context.plug [e, f] .nil).depth ≤ t.depth + 1)
    (grafts : Grafts (Context.plug [e, f] .nil) t) :
    ∃ w, resume narrow ([e, f] ++ outer) t = resume narrow outer w ∧ Regrown (Context.plug [e, f] .nil) t w := by
  have rightE : e.side = .right := rights e (by simp)
  have rightF : f.side = .right := rights f (by simp)
  obtain ⟨avlE, other, closeF, _⟩ := avl_plug.mp avl
  obtain ⟨_, _, ⟨_, short⟩, _⟩ := avl_plug.mp avlE
  have depthL : (Context.plug [e, f] .nil).depth = max (e.sibling.depth + 1) f.sibling.depth + 1 := by simp
  obtain ⟨lowF, highF⟩ : e.sibling.depth ≤ f.sibling.depth ∧ f.sibling.depth ≤ e.sibling.depth + 2 := by
    simp only [depth_plug, depth_nil] at closeF
    omega
  clear closeF
  rw [depth_nil] at short
  rw [grafts_cons rights] at grafts
  have back : t.depth = e.sibling.depth + 2 → ¬ t.Leans .left := by
    rcases grafts with low | ⟨_, ⟨outward, _⟩ | ⟨even, _⟩⟩
    · omega
    · exact fun _ leans => leans.not_other outward
    · exact fun _ => even _
  obtain ⟨w, run, avlW, outcome⟩ := balance_last keeps rightE avlE avl' (by omega) (by omega) back
  rw [List.cons_append, resume_step run]
  simp only [List.cons_append, List.nil_append]
  have stays : f.sibling.depth ≠ e.sibling.depth ∨ t.depth = e.sibling.depth + 2 →
      f.sibling.depth ≠ e.sibling.depth + 2 ∨ t.Even → t.depth ≠ e.sibling.depth →
        ¬ Sinks (Context.plug [e, f] .nil) t := by
    intro notOne notTwo notLevel sinks
    rcases (sinks_cons rights).mp sinks with level | ⟨one, first⟩ | ⟨two, leans, last⟩
    · exact notLevel level
    · simp only [List.map_cons, List.map_nil, List.cons_prefix_cons] at first
      omega
    · simp only [List.map_cons, List.map_nil, List.cons.injEq, reduceCtorEq, false_or, and_true, and_false,
        or_false] at last
      exact notTwo.elim (fun other => other last) fun even => even _ leans
  -- the last node is even, leans right, has been lifted by a right subtree that leans right, or by an even one
  rcases outcome with ⟨level, depthW, evenW⟩ | ⟨deep, depthW, leansW⟩ | ⟨deep, outward, depthW, evenW⟩ |
    ⟨deep, even, depthW, _⟩
  · omega
  · by_cases low : f.sibling.depth = e.sibling.depth
    · obtain ⟨w', run', avlW', depthW', evenW'⟩ := balance_outward keeps (by decide) avlW other
        (not_crooked (by omega)) (by omega) (by omega) (by omega) (rightF ▸ leansW)
      refine ⟨w', resume_step run', .sinks avlW' ((sinks_cons rights).mpr (.inr (.inl ⟨deep, ?_⟩))) evenW' (by omega)⟩
      simp [low]
    · obtain ⟨w', run', avlW', depthW', _⟩ := balance_near keeps avlW other (by omega) (by omega) (by omega) (by omega)
      exact ⟨w', resume_step run', .stays avlW' (stays (.inl low) (.inl (by omega)) (by omega)) (by omega)⟩
  · by_cases low : f.sibling.depth = e.sibling.depth
    · obtain ⟨w', run', avlW', depthW', _⟩ := balance_even keeps (by decide) avlW other
        (not_crooked (by omega)) (by omega) (by omega) (by omega) evenW
      exact ⟨w', resume_step run', .stays avlW' (stays (.inr deep) (.inl (by omega)) (by omega)) (by omega)⟩
    · obtain ⟨w', run', avlW', depthW', leansW'⟩ := balance_near keeps avlW other (by omega) (by omega) (by omega)
        (by omega)
      refine ⟨w', resume_step run', ?_⟩
      by_cases high : f.sibling.depth = e.sibling.depth + 2
      · have level : w.depth = f.sibling.depth := by omega
        refine .sinks avlW' ((sinks_cons rights).mpr (.inr (.inr ⟨deep, outward, .inr (.inl ?_)⟩))) ?_ (by omega)
        · simp [high]
        · exact (even_plug.mpr level).congr leansW'
      · exact .stays avlW' (stays (.inl low) (.inl high) (by omega)) (by omega)
  · have high : f.sibling.depth = e.sibling.depth + 2 := by
      rcases grafts with low | ⟨_, ⟨outward, _⟩ | ⟨_, none | first⟩⟩
      · omega
      · exact absurd outward (even _)
      · simp at none
      · simp only [List.map_cons, List.map_nil, List.cons_prefix_cons] at first
        exact first.1.symm
    obtain ⟨w', run', avlW', depthW', _⟩ := balance_near keeps avlW other (by omega) (by omega) (by omega) (by omega)
    exact ⟨w', resume_step run', .stays avlW' (stays (.inl (by omega)) (.inr even) (by omega)) (by omega)⟩

/-- The longest right edge that the left subtree can have when it is balanced again. -/
theorem graft_three {g : Frame (NodeData K V)} (outer : Context (NodeData K V))
    (rights : Context.OneSided .right [e, f, g])
    (avl : Avl 0 (Context.plug [e, f, g] .nil)) (avl' : Avl 0 t)
    (near : (Context.plug [e, f, g] .nil).depth ≤ t.depth + 1) (grafts : Grafts (Context.plug [e, f, g] .nil) t) :
    ∃ w, resume narrow ([e, f, g] ++ outer) t = resume narrow outer w ∧ Regrown (Context.plug [e, f, g] .nil) t w := by
  have rightE : e.side = .right := rights e (by simp)
  have rightF : f.side = .right := rights f (by simp)
  have rightG : g.side = .right := rights g (by simp)
  obtain ⟨avlF, otherG, closeG, _⟩ := avl_plug.mp avl
  obtain ⟨avlE, otherF, closeF, _⟩ := avl_plug.mp avlF
  obtain ⟨_, _, ⟨_, short⟩, _⟩ := avl_plug.mp avlE
  -- the two subtrees are within one of each other, which leaves few depths
  have most : t.depth ≤ e.sibling.depth + 2 := by
    rcases (grafts_cons rights).mp grafts with low | ⟨two, _⟩ <;> omega
  obtain ⟨depthL, deep, lowF, highF, lowG, highG⟩ : (Context.plug [e, f, g] .nil).depth = e.sibling.depth + 3 ∧
      t.depth = e.sibling.depth + 2 ∧ e.sibling.depth ≤ f.sibling.depth ∧ f.sibling.depth ≤ e.sibling.depth + 1 ∧
      e.sibling.depth + 1 ≤ g.sibling.depth ∧ g.sibling.depth ≤ e.sibling.depth + 2 := by
    simp only [Context.plug_cons, Context.plug_nil, depth_plug, depth_nil] at closeF closeG near ⊢
    omega
  clear closeF closeG near most
  rw [depth_nil] at short
  obtain ⟨outward, apart⟩ : t.Leans .right ∧
      ¬ (f.sibling.depth = e.sibling.depth ∧ g.sibling.depth = e.sibling.depth + 1) := by
    rcases (grafts_cons rights).mp grafts with low | ⟨_, ⟨outward, apart⟩ | ⟨_, none | first⟩⟩
    · omega
    · refine ⟨outward, fun same => apart ?_⟩
      simp [same]
    · simp at none
    · simp only [List.map_cons, List.map_nil, List.cons_prefix_cons] at first
      omega
  obtain ⟨w, run, avlW, outcome⟩ := balance_last keeps rightE avlE avl' (by omega) (by omega)
    fun _ leans => leans.not_other outward
  obtain ⟨depthW, evenW⟩ : w.depth = e.sibling.depth + 2 ∧ w.Even := by
    rcases outcome with ⟨level, _⟩ | ⟨one, _⟩ | ⟨_, _, depthW, evenW⟩ | ⟨_, even, _⟩
    · omega
    · omega
    · exact ⟨depthW, evenW⟩
    · exact absurd outward (even _)
  have stays : ¬ (f.sibling.depth = e.sibling.depth + 1 ∧ g.sibling.depth = e.sibling.depth + 1) →
      ¬ Sinks (Context.plug [e, f, g] .nil) t := by
    intro notLevel sinks
    rcases (sinks_cons rights).mp sinks with level | ⟨one, _⟩ | ⟨_, _, last⟩
    · omega
    · omega
    · exact notLevel (by simpa using last)
  simp only [List.cons_append, List.nil_append]
  rw [resume_step run]
  by_cases low : f.sibling.depth = e.sibling.depth
  · have straight : ¬ f.sibling.Crooked f.side.other := not_crooked (by omega)
    obtain ⟨w', run', avlW', depthW', _⟩ := balance_even keeps (by decide) avlW otherF straight (by omega) (by omega)
      (by omega) evenW
    obtain ⟨w'', run'', avlW'', depthW'', _⟩ := balance_near keeps avlW' otherG (by omega) (by omega) (by omega)
      (by omega)
    rw [resume_step run']
    exact ⟨w'', resume_step run'', .stays avlW'' (stays (by omega)) (by omega)⟩
  · obtain ⟨w', run', avlW', depthW', same⟩ := balance_near keeps avlW otherF (by omega) (by omega) (by omega)
      (by omega)
    have leansW' : w'.Leans g.side := by
      rw [same, rightG, ← rightF, leans_plug]
      omega
    rw [resume_step run']
    by_cases low' : g.sibling.depth = e.sibling.depth + 1
    · have straight : ¬ g.sibling.Crooked g.side.other := not_crooked (by omega)
      obtain ⟨w'', run'', avlW'', depthW'', evenW''⟩ := balance_outward keeps (by decide) avlW' otherG straight
        (by omega)
        (by omega) (by omega) leansW'
      refine ⟨w'', resume_step run'',
        .sinks avlW'' ((sinks_cons rights).mpr (.inr (.inr ⟨deep, outward, .inr (.inr ?_)⟩)))
        evenW'' (by omega)⟩
      simp only [List.map_cons, List.map_nil, low', (by omega : f.sibling.depth = e.sibling.depth + 1)]
    · obtain ⟨w'', run'', avlW'', depthW'', _⟩ := balance_near keeps avlW' otherG (by omega) (by omega)
        (by omega) (by omega)
      exact ⟨w'', resume_step run'', .stays avlW'' (stays (by omega)) (by omega)⟩

/-- The way up the right edge of the left subtree. -/
theorem graft {edges : Context (NodeData K V)} (outer : Context (NodeData K V)) (rights : edges.OneSided .right)
    (nonempty : edges ≠ []) (avl : Avl 0 (edges.plug .nil)) (avl' : Avl 0 t) (present : 0 < t.depth)
    (near : t.depth ≤ (edges.plug .nil).depth + 1) (near' : (edges.plug .nil).depth ≤ t.depth + 1)
    (grafts : Grafts (edges.plug .nil) t) :
    ∃ w, resume narrow (edges ++ outer) t = resume narrow outer w ∧ Regrown (edges.plug .nil) t w := by
  match edges with
  | [] => exact absurd rfl nonempty
  | [e] =>
    refine graft_one keeps outer rights avl avl' present near fun deep => ?_
    rcases (grafts_cons rights).mp grafts with low | ⟨_, ⟨outward, _⟩ | ⟨even, _⟩⟩
    · omega
    · exact fun leans => leans.not_other outward
    · exact even _
  | [e, f] => exact graft_two keeps outer rights avl avl' near' grafts
  | [e, f, g] => exact graft_three keeps outer rights avl avl' near' grafts
  | e :: f :: g :: k :: rest =>
    -- the left subtree would be more than one deeper than the right one
    have last : e.sibling.depth < (e.plug .nil).depth := sibling_lt_depth_plug
    have second : (e.plug .nil).depth < (f.plug (e.plug .nil)).depth := lt_depth_plug
    have third : (f.plug (e.plug .nil)).depth < (g.plug (f.plug (e.plug .nil))).depth := lt_depth_plug
    have fourth : (g.plug (f.plug (e.plug .nil))).depth < (k.plug (g.plug (f.plug (e.plug .nil)))).depth :=
      lt_depth_plug
    have tall : (k.plug (g.plug (f.plug (e.plug .nil)))).depth ≤ (Context.plug (e :: f :: g :: k :: rest) .nil).depth :=
      Context.depth_le_plug
    have low : t.depth ≤ e.sibling.depth + 2 := by
      rcases (grafts_cons rights).mp grafts with low | ⟨two, _⟩ <;> omega
    omega

end

end AvlTree

end SmallObject
