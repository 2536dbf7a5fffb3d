import SmallObject.RangeMap.Flaw
import SmallObject.RangeMap.Graft

/-! Grafts that rebalancing does not make good.

The cases are those that `Grafts` leaves out. In each of them some node comes to differ by two
or more with nothing left that would rotate it, on a path that is not lower than before.
-/

set_option autoImplicit false

namespace SmallObject

open Linked LinkTree

variable {K V : Type}

namespace AvlTree

/-- A node with two children, about to be erased: the right edge of its left subtree, its right
subtree, and the path from it to the root. -/
structure Splice (e : Frame (NodeData K V)) (fs ctx : Context (NodeData K V)) (r old : AvlTree K V) : Prop where
  rights : Context.OneSided .right (e :: fs)
  left : Avl 0 (Context.plug (e :: fs) .nil)
  right : Avl 0 r
  present : 0 < r.depth
  near : r.depth ≤ (Context.plug (e :: fs) .nil).depth + 1
  near' : (Context.plug (e :: fs) .nil).depth ≤ r.depth + 1
  whole : Avl 0 (ctx.plug old)
  depth : old.depth = max (Context.plug (e :: fs) .nil).depth r.depth + 1
  high : (ctx.plug old).depth ≤ 100

/-- The next rotation up the path happens to make good the wrong one at the root of the left subtree. -/
def Mended (ctx : Context (NodeData K V)) (l r : AvlTree K V) : Prop :=
  match edge l, ctx with
  | [m, d], k :: _ => d = m + 1 ∧ r.depth = m + 2 ∧ r.Even ∧ k.side = .left ∧ k.sibling.depth = m + 2 ∧
      ¬ k.sibling.Crooked .right
  | _, _ => False

theorem mended_cons {e k : Frame (NodeData K V)} {fs ks : Context (NodeData K V)} {r : AvlTree K V}
    (rights : Context.OneSided .right (e :: fs)) : Mended (k :: ks) (Context.plug (e :: fs) .nil) r ↔
      ∃ f, fs = [f] ∧ f.sibling.depth = e.sibling.depth + 1 ∧ r.depth = e.sibling.depth + 2 ∧ r.Even ∧ k.side = .left ∧
        k.sibling.depth = e.sibling.depth + 2 ∧ ¬ k.sibling.Crooked .right := by
  simp only [Mended, edge_cons rights]
  match fs with
  | [] => simp
  | [f] => simp
  | f :: g :: fs => simp

theorem avl_siblings {edges : Context (NodeData K V)} {t : AvlTree K V} (avl : Avl 0 (edges.plug t)) :
    ∀ f ∈ edges, Avl 0 f.sibling ∧ f.sibling.depth < (edges.plug t).depth := by
  induction edges generalizing t with
  | nil => simp
  | cons f fs ih =>
    have outside : Avl 0 (Context.plug fs (f.plug t)) := avl
    intro g member
    rcases List.mem_cons.mp member with rfl | inside
    · have lower : g.sibling.depth < (g.plug t).depth := by
        rw [depth_plug]
        omega
      exact ⟨(avl_plug.mp outside.inner).2.1, lower.trans_le Context.depth_le_plug⟩
    · exact ih outside g inside

section

variable {narrow : Narrowing} {e f : Frame (NodeData K V)} {fs ctx : Context (NodeData K V)} {r old t' : AvlTree K V}

theorem Splice.depth_le (splice : Splice e fs ctx r old) : old.depth ≤ 100 :=
  Context.depth_le_plug.trans splice.high

theorem Splice.last (splice : Splice e fs ctx r old) : Avl 0 e.sibling ∧ e.sibling.depth ≤ 1 := by
  have outside : Avl 0 (Context.plug fs (e.plug .nil)) := splice.left
  obtain ⟨_, other, ⟨_, short⟩, _⟩ := avl_plug.mp outside.inner
  exact ⟨other, by simpa using short⟩

/-- The rest of the path, from a subtree that is as deep as the erased node was. -/
theorem Splice.overtops (splice : Splice e fs ctx r old) {edges : Context (NodeData K V)} {t : AvlTree K V} {d : Nat}
    (rest : Context.plug (e :: fs) .nil = edges.plug t) (enough : old.depth ≤ d) : Overtops (edges ++ ctx) d := by
  have left := splice.left
  have depth := splice.depth
  have high := splice.depth_le
  rw [rest] at left depth
  refine Overtops.append (fun g member => ?_) (overtops_of_avl splice.whole splice.high enough)
  obtain ⟨avl, low⟩ := avl_siblings left g member
  exact ⟨avl, by omega, by omega⟩

variable (keeps : ∀ z, -128 ≤ z → z ≤ 127 → narrow z = .ok z)
include keeps

/-- A difference of three or more under the last node. -/
theorem Splice.deep (splice : Splice e fs ctx r old) (deep : e.sibling.depth + 3 ≤ r.depth)
    (run : resume narrow (e :: fs ++ ctx) r = .ok t') : ¬ t'.Balanced := by
  have rightE : e.side = .right := splice.rights e List.mem_cons_self
  have other : Avl 0 e.sibling := (avl_siblings splice.left e List.mem_cons_self).1
  have high := splice.depth_le
  have depth := splice.depth
  have near' := splice.near'
  by_cases level : old.depth ≤ r.depth + 1
  · have rest : Context.plug (e :: fs) .nil = Context.plug fs (e.plug .nil) := rfl
    exact resume_apart keeps splice.right.exact other deep (splice.overtops rest (by omega)) (by omega) run
  · -- the left subtree is the deeper one, so that there are two more nodes on its right edge
    have rested := balance_rests (f := e) keeps splice.right.exact other.exact (by omega) (by omega) (by omega)
      (by omega)
    rw [List.cons_append, resume_step rested] at run
    have exactW : HeightsLag 0 ((refit 0 e r).plug r) := heightsLag_refit splice.right.exact other.exact
    have depthW : ((refit 0 e r).plug r).depth = r.depth + 1 := by
      simp only [depth_plug, refit_sibling]
      omega
    have low : (((refit 0 e r).plug r).child .left).depth = e.sibling.depth := by
      rw [child_refit, show Side.left = e.side.other by rw [rightE]; rfl, child_other_plug]
    have tall : (((refit 0 e r).plug r).child .right).depth = r.depth := by
      rw [child_refit, ← rightE, child_plug]
    cases fs with
    | nil =>
      have short : (Context.plug [e] .nil).depth = max 0 e.sibling.depth + 1 := by simp
      omega
    | cons f fs =>
      have rightF : f.side = .right := splice.rights f (by simp)
      obtain ⟨otherF, lowF⟩ := avl_siblings splice.left f (by simp)
      by_cases lift : ((refit 0 e r).plug r).depth = f.sibling.depth + 2
      · obtain ⟨w, lifted, _, _, _, _, lowered⟩ := balance_heavy keeps (by decide) exactW otherF (by omega) lift
          (by omega)
        have hole : ((refit 0 e r).plug r).child f.side.other = e.sibling := by
          rw [child_refit, rightF, ← rightE, child_other_plug]
        -- the short sibling of the right subtree is with a deep one now
        have flaw : ¬ (w.child f.side.other).Balanced := by
          intro balanced
          have := (lowered.mp balanced).2.2.2
          rw [hole] at this
          omega
        rw [List.cons_append, resume_step lifted] at run
        cases fs with
        | nil =>
          have short : (Context.plug [e, f] .nil).depth = max (max 0 e.sibling.depth + 1) f.sibling.depth + 1 := by simp
          omega
        | cons g fs =>
          have rightG : g.side = .right := splice.rights g (by simp)
          rw [List.cons_append, resume_cons] at run
          obtain ⟨w', balanced, resumed⟩ := bind_eq_ok run
          rw [rightF, ← rightG] at flaw
          exact resume_flawed (balance_flawed balanced (.inr flaw)) resumed
      · have rest : Context.plug (e :: f :: fs) .nil = Context.plug fs (f.plug (e.plug .nil)) := rfl
        refine resume_stuck keeps exactW otherF ?_ lift (by omega) (splice.overtops rest (by omega)) (by omega) run
        intro balanced
        have := ((balanced_child .left).mp balanced).2.2.2
        rw [Side.other] at this
        omega

/-- A tree as deep as the erased node was takes its place, and nothing above it changes. -/
theorem Splice.same (splice : Splice e fs ctx r old) {w : AvlTree K V} (exact : HeightsLag 0 w)
    (level : w.depth = old.depth) :
    ∃ t', resume narrow ctx w = .ok t' ∧ HeightsLag 0 t' ∧ (t'.Balanced ↔ w.Balanced) := by
  have high := splice.high
  obtain ⟨t', run, exact', _, balanced⟩ := resume_same keeps [] splice.whole exact level (by omega) (by omega)
  rw [List.append_nil] at run
  exact ⟨t', run, exact', balanced⟩

/-- The right subtree is two deeper and leans inward: lifted as it is, it leans by two the other way. -/
theorem Splice.crooked (splice : Splice e fs ctx r old) (deep : r.depth = e.sibling.depth + 2) (leans : r.Leans .left) :
    ∃ w, (∀ outer, resume narrow (e :: outer) r = resume narrow outer w) ∧ HeightsLag 0 w ∧ ¬ w.Balanced ∧
      w.depth = e.sibling.depth + 3 ∧ (w.child .left).depth = e.sibling.depth + 2 ∧
      (w.child .right).depth = e.sibling.depth := by
  have rightE : e.side = .right := splice.rights e List.mem_cons_self
  obtain ⟨other, short⟩ := splice.last
  obtain ⟨w, lifted, exact, present, outer, inner, _⟩ := balance_heavy keeps (by decide) splice.right.exact other
    (by omega) deep (by omega)
  simp only [rightE, Side.other] at outer inner
  have depthR := depth_child (s := .left) (t := r) (by omega)
  have close := ((balanced_child .left).mp splice.right.balanced).2.2.1
  have leans : (r.child .right).depth < (r.child .left).depth := leans
  have depthW := depth_child .left present
  simp only [Side.other] at depthR close depthW
  rw [outer] at depthW
  have low : (w.child .right).depth = e.sibling.depth := by
    rw [outer]
    omega
  refine ⟨w, fun _ => resume_step lifted, exact, fun balanced => ?_, by omega, by omega, low⟩
  have near := ((balanced_child .left).mp balanced).2.2.1
  rw [Side.other, low] at near
  omega

/-- Under the last node this is not made good. -/
theorem Splice.inward (splice : Splice e fs ctx r old) (deep : r.depth = e.sibling.depth + 2) (leans : r.Leans .left)
    (run : resume narrow (e :: fs ++ ctx) r = .ok t') : ¬ t'.Balanced := by
  have high := splice.depth_le
  have depth := splice.depth
  have near' := splice.near'
  obtain ⟨_, short⟩ := splice.last
  obtain ⟨w, step, exactW, flawed, depthW, leftW, rightW⟩ := splice.crooked keeps deep leans
  rw [List.cons_append, step] at run
  cases fs with
  | nil =>
    have depthL : (Context.plug [e] .nil).depth = max 0 e.sibling.depth + 1 := by simp
    obtain ⟨t'', done, _, same⟩ := splice.same keeps exactW (by omega)
    obtain rfl := Except.ok.inj (done.symm.trans run)
    exact fun balanced => flawed (same.mp balanced)
  | cons f fs =>
    have rightF : f.side = .right := splice.rights f (by simp)
    obtain ⟨otherF, lowF⟩ := avl_siblings splice.left f (by simp)
    have rest : Context.plug (e :: f :: fs) .nil = Context.plug fs (f.plug (e.plug .nil)) := rfl
    by_cases lift : w.depth = f.sibling.depth + 2
    · refine resume_tilts keeps exactW otherF lift ?_ (splice.overtops rest ?_) (by omega) run
      · rw [rightF, Side.other, leftW, rightW]
        omega
      · rw [rightF, Side.other, leftW]
        omega
    · exact resume_stuck keeps exactW otherF flawed lift (by omega) (splice.overtops rest (by omega)) (by omega) run

/-- The last node is lifted well, and then its parent, which comes to lean inward itself. -/
theorem Splice.second {g : Frame (NodeData K V)} (splice : Splice e (f :: g :: fs) ctx r old)
    (deep : r.depth = e.sibling.depth + 2) (leans : r.Leans .right) (lowF : f.sibling.depth = e.sibling.depth)
    (lowG : g.sibling.depth = e.sibling.depth + 1) (run : resume narrow (e :: f :: g :: fs ++ ctx) r = .ok t') :
    ¬ t'.Balanced := by
  have rightE : e.side = .right := splice.rights e (by simp)
  have rightF : f.side = .right := splice.rights f (by simp)
  have rightG : g.side = .right := splice.rights g (by simp)
  obtain ⟨otherE, short⟩ := splice.last
  obtain ⟨otherF, _⟩ := avl_siblings splice.left f (by simp)
  obtain ⟨otherG, _⟩ := avl_siblings splice.left g (by simp)
  have near' := splice.near'
  have depth := splice.depth
  obtain ⟨w, run₁, avl₁, depth₁, even₁⟩ := balance_outward keeps (by decide) splice.right otherE
    (not_crooked (by omega))
    (by omega) deep (by omega) (rightE ▸ leans)
  obtain ⟨w', run₂, avl₂, depth₂, leans₂⟩ := balance_even keeps (by decide) avl₁ otherF (not_crooked (by omega))
    (by omega) (by omega) (by omega) even₁
  rw [rightF, ← rightG] at leans₂
  obtain ⟨w'', run₃, exact₃, depth₃, flawed⟩ := balance_inward keeps (by decide) avl₂ otherG (by omega) (by omega)
    (by omega) leans₂
  have none : fs = [] := by
    cases fs with
    | nil => rfl
    | cons k rest =>
      have tall : (k.plug (g.plug (f.plug (e.plug .nil)))).depth ≤
        (Context.plug (e :: f :: g :: k :: rest) .nil).depth :=
        Context.depth_le_plug
      simp only [depth_plug, depth_nil] at tall
      omega
  subst none
  have tall : (Context.plug [e, f, g] .nil).depth =
      max (max (max 0 e.sibling.depth + 1) f.sibling.depth + 1) g.sibling.depth + 1 := by simp
  obtain ⟨t'', done, _, same⟩ := splice.same keeps exact₃ (by omega)
  simp only [List.cons_append, List.nil_append] at run
  rw [resume_step run₁, resume_step run₂, resume_step run₃, done] at run
  obtain rfl := Except.ok.inj run
  exact fun balanced => flawed (same.mp balanced)

/-- The right subtree is two deeper and even: the last node is lifted well, and comes to lean inward. -/
theorem Splice.leaning (splice : Splice e fs ctx r old) (deep : r.depth = e.sibling.depth + 2) (even : r.Even) :
    ∃ w, (∀ outer, resume narrow (e :: outer) r = resume narrow outer w) ∧ Avl 0 w ∧ w.depth = e.sibling.depth + 3 ∧
      (w.child .left).depth = e.sibling.depth + 2 ∧ (w.child .right).depth = e.sibling.depth + 1 := by
  have rightE : e.side = .right := splice.rights e List.mem_cons_self
  obtain ⟨otherE, short⟩ := splice.last
  have straight : ¬ e.sibling.Crooked e.side.other := not_crooked (by omega)
  obtain ⟨w, run, avl, depth, leans⟩ := balance_even keeps (by decide) splice.right otherE straight (by omega) deep
    (by omega) even
  have leans : (w.child e.side.other.other).depth < (w.child e.side.other).depth := leans
  have depthW := depth_child (s := .left) (t := w) (by omega)
  have close := ((balanced_child .left).mp avl.balanced).2.2.1
  simp only [rightE, Side.other] at leans depthW close
  exact ⟨w, fun outer => resume_step run, avl, by omega, by omega, by omega⟩

/-- Then a parent whose left subtree is three lower stays as it is. -/
theorem Splice.even_low (splice : Splice e (f :: fs) ctx r old) (deep : r.depth = e.sibling.depth + 2) (even : r.Even)
    (low : f.sibling.depth = e.sibling.depth) (run : resume narrow (e :: f :: fs ++ ctx) r = .ok t') :
      ¬ t'.Balanced := by
  obtain ⟨otherF, _⟩ := avl_siblings splice.left f (by simp)
  obtain ⟨otherE, short⟩ := splice.last
  have near' := splice.near'
  have depth := splice.depth
  obtain ⟨w, step, avl, depthW, _⟩ := splice.leaning keeps deep even
  have rest : Context.plug (e :: f :: fs) .nil = Context.plug fs (f.plug (e.plug .nil)) := rfl
  simp only [List.cons_append] at run
  rw [step] at run
  exact resume_apart keeps avl.exact otherF (by omega) (splice.overtops rest (by omega)) (by omega) run

/-- A parent whose left subtree is two lower has the last node lifted as it is, and leans by two then. -/
theorem Splice.twice (splice : Splice e (f :: fs) ctx r old) (deep : r.depth = e.sibling.depth + 2) (even : r.Even)
    (mid : f.sibling.depth = e.sibling.depth + 1) :
    ∃ w, (∀ outer, resume narrow (e :: f :: outer) r = resume narrow outer w) ∧ HeightsLag 0 w ∧ ¬ w.Balanced ∧
      w.depth = e.sibling.depth + 4 ∧ (w.child .left).depth = e.sibling.depth + 3 ∧
      (w.child .right).depth = e.sibling.depth + 1 ∧ (w.child .left).Balanced ∧ (w.child .right).Balanced := by
  have rightF : f.side = .right := splice.rights f (by simp)
  obtain ⟨otherF, _⟩ := avl_siblings splice.left f (by simp)
  obtain ⟨_, short⟩ := splice.last
  obtain ⟨w, step, avl, depthW, leftW, rightW⟩ := splice.leaning keeps deep even
  have straight : ¬ f.sibling.Crooked f.side.other := not_crooked (by omega)
  obtain ⟨w', lifted, exact, present, outer, inner, lowered⟩ := balance_heavy keeps (by decide) avl.exact otherF
    (by omega)
    (by omega) (by omega)
  simp only [rightF, Side.other] at outer inner lowered
  have depthW' := depth_child .left present
  rw [Side.other, outer] at depthW'
  have low : (w'.child .right).depth = e.sibling.depth + 1 := outer ▸ rightW
  refine ⟨w', fun outer => by rw [step, resume_step lifted], exact, fun balanced => ?_, by omega, by omega, low, ?_, ?_⟩
  · have := ((balanced_child .right).mp balanced).2.2.2
    rw [Side.other] at this
    omega
  · exact lowered.mpr ⟨avl.balanced.child _, by rw [rightF] at straight; exact straight, by omega, by omega⟩
  · rw [outer]
    exact avl.balanced.child _

/-- With one more node on the right edge this is not made good. -/
theorem Splice.even_third {g : Frame (NodeData K V)} (splice : Splice e (f :: g :: fs) ctx r old)
    (deep : r.depth = e.sibling.depth + 2) (even : r.Even) (mid : f.sibling.depth = e.sibling.depth + 1)
    (run : resume narrow (e :: f :: g :: fs ++ ctx) r = .ok t') : ¬ t'.Balanced := by
  have rightG : g.side = .right := splice.rights g (by simp)
  obtain ⟨otherG, lowG⟩ := avl_siblings splice.left g (by simp)
  obtain ⟨_, short⟩ := splice.last
  have near' := splice.near'
  have depth := splice.depth
  have outside : Avl 0 (Context.plug fs (g.plug (f.plug (e.plug .nil)))) := splice.left
  have close := (avl_plug.mp outside.inner).2.2.1
  have tall : (g.plug (f.plug (e.plug .nil))).depth ≤ (Context.plug (e :: f :: g :: fs) .nil).depth :=
    Context.depth_le_plug
  simp only [depth_plug, depth_nil] at close tall
  obtain ⟨w, step, exact, flawed, depthW, leftW, rightW, _⟩ := splice.twice keeps deep even mid
  have rest : Context.plug (e :: f :: g :: fs) .nil = Context.plug fs (g.plug (f.plug (e.plug .nil))) := rfl
  simp only [List.cons_append] at run
  rw [step] at run
  -- lifted or not, the next node does not make it good
  by_cases lift : w.depth = g.sibling.depth + 2
  · refine resume_tilts keeps exact otherG lift ?_ (splice.overtops rest ?_) (by omega) run
    · rw [rightG, Side.other, leftW, rightW]
      omega
    · rw [rightG, Side.other, leftW]
      omega
  · exact resume_stuck keeps exact otherG flawed lift (by omega) (splice.overtops rest (by omega)) (by omega) run

omit keeps in
/-- The depths of the erased node, where the right edge of its left subtree has two nodes. -/
theorem Splice.depth_two (splice : Splice e [f] ctx r old) (deep : r.depth = e.sibling.depth + 2)
    (mid : f.sibling.depth = e.sibling.depth + 1) : old.depth = e.sibling.depth + 3 := by
  have depth := splice.depth
  simp only [Context.plug_cons, Context.plug_nil, depth_plug, depth_nil] at depth
  omega

/-- When the parent is the root of the left subtree, the node above it may be lifted next. -/
theorem Splice.even_second (splice : Splice e [f] ctx r old) (deep : r.depth = e.sibling.depth + 2) (even : r.Even)
    (mid : f.sibling.depth = e.sibling.depth + 1)
    (spoils : ∀ k ks, ctx = k :: ks → k.side = .left → k.sibling.depth = e.sibling.depth + 2 → k.sibling.Crooked .right)
    (run : resume narrow (e :: f :: ctx) r = .ok t') : ¬ t'.Balanced := by
  obtain ⟨_, short⟩ := splice.last
  obtain ⟨w, step, exact, flawed, depthW, leftW, rightW, _⟩ := splice.twice keeps deep even mid
  have depth := splice.depth_two deep mid
  rw [step] at run
  cases ctx with
  | nil =>
    obtain rfl := Except.ok.inj run
    exact flawed
  | cons k ks =>
    have outside : Avl 0 (Context.plug ks (k.plug old)) := splice.whole
    have high' : (Context.plug ks (k.plug old)).depth ≤ 100 := splice.high
    obtain ⟨_, other, near, _⟩ := avl_plug.mp outside.inner
    have above : ∀ d, max old.depth k.sibling.depth + 1 ≤ d → Overtops ks d := fun d enough =>
      overtops_of_avl outside high' (by rw [depth_plug]; exact enough)
    by_cases lift : w.depth = k.sibling.depth + 2
    · cases side : k.side with
      | right =>
        refine resume_tilts keeps exact other lift ?_ (above _ ?_) (by omega) run
        · rw [side, Side.other, leftW, rightW]
          omega
        · rw [side, Side.other, leftW]
          omega
      | left =>
        -- the node above is lifted the other way, and its other subtree is flawed then
        obtain ⟨w', lifted, exact', present, outer, inner, lowered⟩ := balance_heavy keeps (by decide) exact other
          (by omega) lift (by omega)
        have depthW' := depth_child k.side present
        rw [outer, inner] at depthW'
        rw [resume_step lifted] at run
        simp only [side, Side.other] at outer inner depthW' lowered
        refine resume_overtops keeps exact' ⟨.right, fun balanced => ?_⟩ (above _ (by omega)) (by omega) run
        exact (lowered.mp balanced).2.1 (spoils k ks rfl side (by omega))
    · exact resume_stuck keeps exact other flawed lift (by omega) (above _ (by omega)) (by omega) run

/-- The lucky case: the erased node was a left child, and its parent is lifted the other way. -/
theorem Splice.mends {k : Frame (NodeData K V)} {ks : Context (NodeData K V)} (splice : Splice e [f] (k :: ks) r old)
    (deep : r.depth = e.sibling.depth + 2) (even : r.Even) (mid : f.sibling.depth = e.sibling.depth + 1)
    (side : k.side = .left) (level : k.sibling.depth = e.sibling.depth + 2) (straight : ¬ k.sibling.Crooked .right) :
    ∃ t', resume narrow (e :: f :: k :: ks) r = .ok t' ∧ Avl 0 t' := by
  obtain ⟨_, short⟩ := splice.last
  obtain ⟨w, step, exact, _, depthW, leftW, rightW, balancedL, balancedR⟩ := splice.twice keeps deep even mid
  have depth := splice.depth_two deep mid
  have outside : Avl 0 (Context.plug ks (k.plug old)) := splice.whole
  have high' : (Context.plug ks (k.plug old)).depth ≤ 100 := splice.high
  obtain ⟨_, other, near, _⟩ := avl_plug.mp outside.inner
  obtain ⟨w', lifted, exact', present, outer, inner, lowered⟩ := balance_heavy keeps (by decide) exact other (by omega)
    (by omega) (by omega)
  simp only [side, Side.other] at outer inner lowered
  have depthW' := depth_child .left present
  rw [Side.other, outer] at depthW'
  -- the deep half is outside now, and the other one fits the sibling
  have balanced : w'.Balanced := by
    rw [balanced_child .left, Side.other, outer]
    exact ⟨balancedL, lowered.mpr ⟨balancedR, straight, by omega, by omega⟩, by omega, by omega⟩
  have same : w'.depth = (k.plug old).depth := by
    rw [depth_plug]
    omega
  obtain ⟨t', run, exactT, _, keepsBalance⟩ := resume_same keeps [] outside exact' same (by omega) (by omega)
  rw [List.append_nil] at run
  exact ⟨t', by rw [step, resume_step lifted]; exact run, keepsBalance.mpr balanced, exactT⟩

/-- The graft is made good in no other case. -/
theorem Splice.spoils (splice : Splice e fs ctx r old) (notGrafts : ¬ Grafts (Context.plug (e :: fs) .nil) r)
    (notMended : ¬ Mended ctx (Context.plug (e :: fs) .nil) r) (run : resume narrow (e :: fs ++ ctx) r = .ok t') :
    ¬ t'.Balanced := by
  rw [grafts_cons splice.rights] at notGrafts
  obtain ⟨notLow, notTwo⟩ := not_or.mp notGrafts
  by_cases deep : r.depth = e.sibling.depth + 2
  · -- two deeper: which way the right subtree leans decides
    obtain ⟨notOutward, notEven⟩ := not_or.mp fun cases => notTwo ⟨deep, cases⟩
    rcases leans_or_even .left r with inward | even | outward
    · exact splice.inward keeps deep inward run
    · cases fs with
      | nil => exact absurd ⟨even, .inl rfl⟩ notEven
      | cons f fs =>
        have outside : Avl 0 (Context.plug fs (f.plug (e.plug .nil))) := splice.left
        have close := (avl_plug.mp outside.inner).2.2.1
        have short := splice.last.2
        simp only [depth_plug, depth_nil] at close
        have notHigh : f.sibling.depth ≠ e.sibling.depth + 2 := fun high => notEven ⟨even, .inr (by simp [high])⟩
        by_cases low : f.sibling.depth = e.sibling.depth
        · exact splice.even_low keeps deep even low run
        · have mid : f.sibling.depth = e.sibling.depth + 1 := by omega
          cases fs with
          | nil =>
            refine splice.even_second keeps deep even mid (fun k ks path side level => ?_) run
            by_contra straight
            subst path
            exact notMended ((mended_cons splice.rights).mpr ⟨f, rfl, mid, deep, even, side, level, straight⟩)
          | cons g fs => exact splice.even_third keeps deep even mid run
    · have two : [e.sibling.depth, e.sibling.depth + 1] <+: fs.map fun f => f.sibling.depth := by
        by_contra apart
        exact notOutward ⟨outward, apart⟩
      obtain ⟨f, g, rest, rfl⟩ : ∃ f g rest, fs = f :: g :: rest := by
        rcases fs with _ | ⟨f, _ | ⟨g, rest⟩⟩
        · simp at two
        · simp at two
        · exact ⟨f, g, rest, rfl⟩
      simp only [List.map_cons, List.cons_prefix_cons] at two
      exact splice.second keeps deep outward two.1.symm two.2.1.symm run
  · exact splice.deep keeps (by omega) run

end

end AvlTree

end SmallObject
