import SmallObject.Library.Execution
import SmallObject.RangeMap.Heights
import SmallObject.RangeMap.Iterate

/-! Insertions that leave the tree balanced.

On the way up from a new leaf the first node whose subtrees come to differ by two is the last
one that changes. Its deeper child is lifted as it is, so the tree is balanced again when that
child leans outward; and nothing is lifted at all when the other child is missing, since the
stored heights of nothing and of a leaf are the same.
-/

set_option autoImplicit false

namespace SmallObject

open Linked LinkTree

variable {K V : Type}

namespace AvlTree

/-- A subtree at the end of a path has become one deeper, and the first rotation on the way up,
if there is one, is of a child that leans outward. -/
def Settles (lag : Nat) : Context (NodeData K V) → AvlTree K V → Prop
  | [], _ => True
  | f :: fs, t =>
    if t.depth = f.sibling.depth + 2 then
      lag ≤ f.sibling.depth ∧ t.Leans f.side ∧ ¬ f.sibling.Crooked f.side.other
    else t.depth ≤ f.sibling.depth ∨ Settles lag fs (f.plug t)

instance decidableSettles (lag : Nat) : (ctx : Context (NodeData K V)) → (t : AvlTree K V) →
    Decidable (Settles lag ctx t)
  | [], _ => isTrue trivial
  | f :: fs, t =>
    have := decidableSettles lag fs (f.plug t)
    inferInstanceAs (Decidable (if t.depth = f.sibling.depth + 2 then _
      else t.depth ≤ f.sibling.depth ∨ Settles lag fs (f.plug t)))

/-- Only the depths count. -/
theorem settles_congr {lag : Nat} {ctx : Context (NodeData K V)} {t t' : AvlTree K V} (deep : t'.depth = t.depth)
    (leans : ∀ s, t'.Leans s ↔ t.Leans s) : Settles lag ctx t' ↔ Settles lag ctx t := by
  induction ctx generalizing t t' with
  | nil => rfl
  | cons f fs ih =>
    have next : Settles lag fs (f.plug t') ↔ Settles lag fs (f.plug t) := by
      apply ih
      · simp [deep]
      · intro s
        rcases Side.eq_or_other f.side s with rfl | rfl
        · simp [deep]
        · simp [deep]
    simp only [Settles, deep, leans, next]

section

variable {narrow : Narrowing} (keeps : ∀ z, -128 ≤ z → z ≤ 127 → narrow z = .ok z) {lag : Nat}
  {ctx : Context (NodeData K V)} {t u : AvlTree K V}

include keeps

/-- The way up from a subtree that has become one deeper. -/
theorem resume_settles (few : lag ≤ 1) (avl : Avl lag (ctx.plug u)) (avl' : Avl lag t)
    (grown : t.depth = u.depth + 1) (settles : Settles lag ctx t) (high : (ctx.plug u).depth ≤ 100) :
    ∃ t', resume narrow ctx t = .ok t' ∧ Avl lag t' := by
  induction ctx generalizing t u with
  | nil => exact ⟨t, rfl, avl'⟩
  | cons f fs ih =>
    have outside : Avl lag (Context.plug fs (f.plug u)) := avl
    obtain ⟨_, other, near, _⟩ := avl_plug.mp outside.inner
    have high' : (Context.plug fs (f.plug u)).depth ≤ 100 := high
    have bound := Context.depth_le_plug.trans high'
    rw [depth_plug] at bound
    -- a node as deep as it was before ends the way up
    have ends : ∀ w : AvlTree K V, Avl lag w → w.depth = (f.plug u).depth →
        ∃ t', resume narrow fs w = .ok t' ∧ Avl lag t' := by
      intro w avlW same
      have low : lag ≤ (f.plug u).depth := by
        rw [depth_plug]
        omega
      obtain ⟨t', run, exact, _, balanced⟩ := resume_same keeps [] outside avlW.exact same low (by omega)
      rw [List.append_nil] at run
      exact ⟨t', run, balanced.mpr avlW.balanced, exact⟩
    rw [resume_cons]
    by_cases turned : t.depth = f.sibling.depth + 2
    · -- a node that is turned is as deep as it was before
      simp only [Settles, turned, if_true] at settles
      obtain ⟨low, leans, straight⟩ := settles
      obtain ⟨w, run, avlW, depthW, _⟩ := balance_outward keeps few avl' other straight low turned (by omega) leans
      rw [run, ok_bind]
      refine ends w avlW ?_
      rw [depth_plug]
      omega
    · simp only [Settles, turned, if_false] at settles
      obtain ⟨w, run, avlW, depthW, leansW⟩ := balance_near keeps avl' other (by omega) (by omega) (by omega) (by omega)
      rw [run, ok_bind]
      by_cases absorbed : t.depth ≤ f.sibling.depth
      · refine ends w avlW ?_
        rw [depth_plug]
        omega
      · refine ih outside avlW ?_ ?_ high
        · rw [depth_plug]
          omega
        · exact (settles_congr (by rw [depthW, depth_plug]) leansW).mpr (settles.resolve_left absorbed)

end

section Insert

variable [LinearOrder K] {t : AvlTree K V} {n : Addr} {range : Range K} {mapped : V}

/-- The insertion is rejected, or the way up from the new leaf settles. -/
def InsertSettles (n : Addr) (range : Range K) (mapped : V) (t : AvlTree K V) : Prop :=
  match attachPoint range t [] with
  | none => True
  | some ctx => Settles 1 ctx (leaf n range mapped)

instance : Decidable (InsertSettles n range mapped t) := by
  unfold InsertSettles
  cases attachPoint range t [] with
  | none => exact instDecidableTrue
  | some ctx => exact decidableSettles 1 ctx (leaf n range mapped)

theorem insert_settles {narrow : Narrowing} (keeps : ∀ z, -128 ≤ z → z ≤ 127 → narrow z = .ok z)
    (avl : Avl 1 t) (high : t.depth ≤ 100) (settles : InsertSettles n range mapped t) :
    ∃ t' inserted, t.insert narrow n range mapped = .ok (t', inserted) ∧ Avl 1 t' := by
  have avlLeaf : Avl 1 (leaf n range mapped) := ⟨⟨trivial, trivial, by simp, by simp⟩, trivial, trivial, rfl⟩
  unfold InsertSettles at settles
  unfold AvlTree.insert
  cases found : attachPoint range t [] with
  | none => exact ⟨t, false, rfl, avl⟩
  | some ctx =>
    simp only [found] at settles
    have whole : ctx.plug .nil = t := attachPoint_plug found
    obtain ⟨t', run, avl'⟩ := resume_settles keeps (by decide) (whole ▸ avl) avlLeaf rfl settles (whole ▸ high)
    cases ctx with
    | nil =>
      obtain rfl : leaf n range mapped = t' := Except.ok.inj run
      exact ⟨_, true, rfl, avl'⟩
    | cons f fs =>
      have unwound : unwind narrow fs (f.plug (leaf n range mapped)) = .ok t' := run
      exact ⟨t', true, by simp [unwound], avl'⟩

end Insert

end AvlTree

namespace RangeMap

open AvlTree

variable [LinearOrder K] {m : RangeMap K V}

/-- The insertion of a range with the address of its node. -/
def insertEntry (m : RangeMap K V) (e : Entry K V) : Except Fault (RangeMap K V) :=
  (m.insert wrapInt8 (some e.1) e.2.1.min e.2.1.max e.2.2).map Prod.fst

/-- The range is proper, and its node is allocated at an address that no node has. -/
def Insertable (m : RangeMap K V) (e : Entry K V) : Prop :=
  e.2.1.min < e.2.1.max ∧ m.nodes.lookup e.1 = none ∧ e.1 < 2 ^ 64

/-- Such an insertion whose way up settles. -/
def Settling (m : RangeMap K V) (e : Entry K V) : Prop :=
  m.Insertable e ∧ ∃ t, m.Stores t ∧ t.InsertSettles e.1 e.2.1 e.2.2

/-- What settling insertions keep. -/
structure Poised (m : RangeMap K V) (t : AvlTree K V) : Prop where
  stores : m.Stores t
  ordered : Ordered t.entries
  avl : t.Avl 1
  addrs : ∀ a ∈ t.addrs, a < 2 ^ 64

def Upright (m : RangeMap K V) : Prop := ∃ t, m.Poised t

/-- Distinct addresses below a bound. -/
theorem length_le_of_lt {as : List Addr} {bound : Nat} (nodup : as.Nodup) (below : ∀ a ∈ as, a < bound) :
    as.length ≤ bound := by
  have within : as ⊆ List.range bound := fun a member => List.mem_range.mpr (below a member)
  simpa using (List.subperm_of_subset nodup within).length_le

theorem Poised.insert {t : AvlTree K V} (poised : m.Poised t) {e : Entry K V} (settling : m.Settling e) :
    ∃ m' t', m.insertEntry e = .ok m' ∧ m'.Poised t' := by
  obtain ⟨⟨_, fresh, inRange⟩, t₀, stores₀, settles⟩ := settling
  obtain rfl := poised.stores.unique stores₀
  have few := length_le_of_lt poised.stores.nodup poised.addrs
  rw [LinkTree.length_addrs] at few
  have shallow := poised.avl.balanced.depth_le few
  obtain ⟨t', inserted, spec, avl'⟩ := insert_settles (fun z => wrapInt8_eq) poised.avl (by omega) settles
  have follows := insertNode_follows wrapInt8 e.2.1 e.2.2 poised.stores fresh
  simp only [spec] at follows
  obtain ⟨m', run, stores', _, _⟩ := follows
  obtain ⟨t₁, stores₁, ordered₁, outcome⟩ := insert_stores poised.stores poised.ordered fresh run
  obtain rfl := stores'.unique stores₁
  refine ⟨m', t', by simp [insertEntry, RangeMap.insert, run, Except.map], stores', ordered₁, avl', ?_⟩
  rw [← map_fst_entries]
  rcases outcome with ⟨_, pre, post, split, gained⟩ | ⟨_, _, rfl, _⟩
  · intro a member
    have old : ∀ b ∈ (pre ++ post).map Prod.fst, b < 2 ^ 64 := by
      rw [← split, map_fst_entries]
      exact poised.addrs
    rw [gained] at member
    simp only [List.map_append, List.map_cons, List.mem_append, List.mem_cons] at member old
    rcases member with below | rfl | above
    · exact old a (.inl below)
    · exact inRange
    · exact old a (.inr above)
  · rw [map_fst_entries]
    exact poised.addrs

/-- Runs of settling insertions stay balanced, and the next one completes. -/
theorem run_balanced (run : Execution.Runs (· = init) Settling insertEntry m) :
    ∃ t, m.Stores t ∧ t.Balanced ∧ ∀ e, m.Settling e → ∃ m', m.insertEntry e = .ok m' := by
  have upright : m.Upright := by
    apply run.invariant
    · rintro m rfl
      exact ⟨.nil, stores_init, .nil, ⟨trivial, trivial⟩, by simp⟩
    · rintro m e m₁ ⟨t, poised⟩ settling stepped
      obtain ⟨m', t', done, poised'⟩ := poised.insert settling
      obtain rfl : m' = m₁ := Except.ok.inj (done.symm.trans stepped)
      exact ⟨t', poised'⟩
  obtain ⟨t, poised⟩ := upright
  refine ⟨t, poised.stores, poised.avl.balanced, fun e settling => ?_⟩
  obtain ⟨m', _, run, _⟩ := poised.insert settling
  exact ⟨m', run⟩

/-- The second range goes to the left of the first one, and the third one to the right of it. -/
theorem run_balanced_three : ∃ (m : RangeMap Nat Nat) (t : AvlTree Nat Nat),
    insertAll .init [(10, ⟨2, 3⟩, 0), (11, ⟨0, 1⟩, 1), (12, ⟨4, 5⟩, 2)] = .ok m ∧ m.Stores t ∧
      t.addrs = [11, 10, 12] ∧ t.Balanced := by
  have first : Execution.Runs (· = init) Settling insertEntry (_ : RangeMap Nat Nat) :=
    .step (a := (10, ⟨2, 3⟩, 0)) (.start rfl)
      ⟨⟨by decide, rfl, by decide⟩, .nil, stores_init, by decide⟩ rfl
  have second := first.step (a := (11, ⟨0, 1⟩, 1))
    ⟨⟨by decide, rfl, by decide⟩, leaf 10 ⟨2, 3⟩ 0, ⟨rfl, by simp [Represents, leaf]; decide, by decide⟩, by decide⟩ rfl
  have third := second.step (a := (12, ⟨4, 5⟩, 2))
    ⟨⟨by decide, rfl, by decide⟩, .node 10 (leaf 11 ⟨0, 1⟩ 1) ⟨1, ⟨2, 3⟩, 0⟩ .nil,
      ⟨rfl, by simp [Represents, leaf]; decide, by decide⟩, by decide⟩ rfl
  obtain ⟨t, stores, balanced, _⟩ := run_balanced third
  have same : t = .node 10 (leaf 11 ⟨0, 1⟩ 1) ⟨1, ⟨2, 3⟩, 0⟩ (leaf 12 ⟨4, 5⟩ 2) :=
    stores.unique ⟨rfl, by simp [Represents, leaf]; decide, by decide⟩
  exact ⟨_, t, rfl, stores, by rw [same]; rfl, balanced⟩

/-- Three ranges in ascending order make a chain: the stored heights of the missing left child
and of a leaf are the same, so nothing is rotated. -/
theorem chain_unbalanced : ∃ (m : RangeMap Nat Nat) (t : AvlTree Nat Nat),
    Execution.Runs (· = init) Insertable insertEntry m ∧
    insertAll .init [(10, ⟨0, 1⟩, 0), (11, ⟨2, 3⟩, 1), (12, ⟨4, 5⟩, 2)] = .ok m ∧ m.Stores t ∧ ¬ t.Balanced := by
  refine ⟨_, .node 10 .nil ⟨2, ⟨0, 1⟩, 0⟩ (.node 11 .nil ⟨1, ⟨2, 3⟩, 1⟩ (leaf 12 ⟨4, 5⟩ 2)), ?_, rfl, ?_, by decide⟩
  · have first : Execution.Runs (· = init) Insertable insertEntry (_ : RangeMap Nat Nat) :=
      .step (a := (10, ⟨0, 1⟩, 0)) (.start rfl) ⟨by decide, rfl, by decide⟩ rfl
    have second := first.step (a := (11, ⟨2, 3⟩, 1)) ⟨by decide, rfl, by decide⟩ rfl
    exact second.step (a := (12, ⟨4, 5⟩, 2)) ⟨by decide, rfl, by decide⟩ rfl
  · exact ⟨rfl, by simp [Represents, leaf]; decide, by decide⟩

end RangeMap

end SmallObject
