import SmallObject.RangeMap.Balance

/-! `do_rebalance_from`: climbing by the parent links is unwinding a context.

A range map stores a tree when its nodes represent the tree under a null parent
link and its root pointer designates the root of the tree.
-/

set_option autoImplicit false

namespace SmallObject

open Linked

variable {K V : Type}

/-- The links of the map are mutually consistent and form the tree, whose root has no parent. -/
structure RangeMap.Stores (m : RangeMap K V) (t : AvlTree K V) : Prop where
  root : m.root = t.root
  rep : Represents m.nodes none t
  nodup : t.addrs.Nodup

theorem RangeMap.Stores.unique {m : RangeMap K V} {t t' : AvlTree K V} (first : m.Stores t)
    (second : m.Stores t') : t = t' :=
  first.rep.unique second.rep (first.root.symm.trans second.root)

theorem RangeMap.stores_init : (RangeMap.init : RangeMap K V).Stores .nil := ⟨rfl, trivial, by simp⟩

/-! ## Hanging a subtree under a parent -/

/-- The source asks whether a node is its parent's left child to know its side. -/
theorem parent_cell {h : Nodes K V} {f : Frame (NodeData K V)} {fs : Context (NodeData K V)}
    {t : AvlTree K V} {a : Addr} (rep : Context.Represents h none (f :: fs) (some a)) (root : t.root = some a)
    (nodup : (Context.plug (f :: fs) t).addrs.Nodup) :
    ∃ cell, h.lookup f.addr = some cell ∧ (cell.left == some a) = (f.side == .left) := by
  have apart := Context.apart_of_nodup nodup
  obtain ⟨side, b, x, s⟩ := f
  cases side with
  | left =>
    obtain ⟨here, _, _⟩ := rep
    exact ⟨_, here, by simp⟩
  | right =>
    obtain ⟨here, _, _⟩ := rep
    have other : s.root ≠ some a := by
      intro same
      exact apart a (Context.mem_addrs_cons.mpr (.inr (.inl (LinkTree.root_mem_addrs same))))
        (LinkTree.root_mem_addrs root)
    exact ⟨_, here, by simp [other]⟩

/-! ## Climbing -/

section

variable (narrow : Narrowing) {h : Nodes K V}

/-- The last step at the root: it is balanced and its parent link cleared. -/
theorem rebalanceRoot_follows {a : Addr} {t : AvlTree K V} (root : t.root = some a)
    (rep : Represents h none t) (nodup : t.addrs.Nodup) :
    match AvlTree.balance narrow t with
    | .error e => (AvlTreeNode.balance narrow h a >>= fun r => AvlTreeNode.makeRoot r.1 r.2 >>= fun h' =>
        (.ok ⟨h', some r.2⟩ : Except Fault (RangeMap K V))) = .error e
    | .ok t' => ∃ m', (AvlTreeNode.balance narrow h a >>= fun r =>
        AvlTreeNode.makeRoot r.1 r.2 >>= fun h' => (.ok ⟨h', some r.2⟩ : Except Fault (RangeMap K V))) =
          .ok m' ∧ m'.Stores t' ∧ AgreeOff t.addrs h m'.nodes ∧ t'.addrs = t.addrs := by
  have balanced := balance_follows narrow root rep nodup
  cases spec : AvlTree.balance narrow t with
  | error e =>
    simp only [Follows, spec] at balanced
    simp [balanced]
  | ok t' =>
    simp only [Follows, spec] at balanced
    obtain ⟨h₁, c, run, atRoot, ⟨_, rep₁⟩, agree, same⟩ := balanced
    obtain ⟨h₂, made, rep₂, agree'⟩ := makeRoot_represents rep₁ (same ▸ nodup) atRoot
    have inside : ∀ b ∈ t'.root.toList, b ∈ t.addrs := fun b member =>
      same ▸ LinkTree.mem_of_root_toList member
    exact ⟨⟨h₂, some c⟩, by simp [run, made], ⟨atRoot.symm, rep₂, same ▸ nodup⟩,
      agree.trans (agree'.mono inside), same⟩

theorem doRebalanceFrom_follows (ctx : Context (NodeData K V)) {a : Addr} {t : AvlTree K V}
    (root : t.root = some a) (rep : Represents h none (ctx.plug t)) (nodup : (ctx.plug t).addrs.Nodup) :
    match AvlTree.unwind narrow ctx t with
    | .error e => RangeMap.doRebalanceFrom narrow h a = .error e
    | .ok t' => ∃ m', RangeMap.doRebalanceFrom narrow h a = .ok m' ∧ m'.Stores t' ∧
        AgreeOff (ctx.plug t).addrs h m'.nodes ∧ t'.addrs = (ctx.plug t).addrs := by
  unfold RangeMap.doRebalanceFrom
  -- the number of rounds is that of the heap at the start; only that it is enough matters below
  have enough : ctx.length < rounds h := by
    have := Context.size_add_length_le rep nodup
    unfold rounds
    omega
  generalize rounds h = fuel at enough
  induction ctx generalizing h t a fuel with
  | nil =>
    obtain ⟨fuel, rfl⟩ : ∃ k, fuel = k + 1 := ⟨fuel - 1, by simp at enough; omega⟩
    obtain ⟨cell, found, noTop⟩ := Represents.root_cell rep root
    have climbed : RangeMap.climb narrow (fuel + 1) h a = .ok (h, a) := by
      simp [RangeMap.climb, deref_of_lookup found, noTop]
    simp only [climbed, ok_bind]
    exact rebalanceRoot_follows narrow root rep nodup
  | cons f fs ih =>
    obtain ⟨fuel, rfl⟩ : ∃ k, fuel = k + 1 := ⟨fuel - 1, by simp at enough; omega⟩
    obtain ⟨context, stored⟩ := Context.represents_plug.mp rep
    have balanced := balance_follows narrow root stored (Context.nodup_inner nodup)
    obtain ⟨cell, found, toTop⟩ := stored.root_cell root
    rw [Context.top_cons] at toTop
    rw [root] at context
    obtain ⟨parent, foundParent, side⟩ := parent_cell context root nodup
    simp only [AvlTree.unwind, RangeMap.climb, deref_of_lookup found, toTop,
      deref_of_lookup foundParent, ok_bind]
    cases spec : AvlTree.balance narrow t with
    | error e =>
      simp only [Follows, spec] at balanced
      simp [balanced]
    | ok t' =>
      simp only [Follows, spec] at balanced
      obtain ⟨h₁, c, run, atRoot, ⟨_, rep₁⟩, agree, same⟩ := balanced
      obtain ⟨h₂, set, rep₂, touched, flat⟩ := rehang rep nodup rep₁ agree same
      have next := ih (f.root_plug t') rep₂ (flat ▸ nodup) fuel (by simp at enough; omega)
      rw [atRoot] at set
      simp only [run, ok_bind, side, set]
      cases rest : AvlTree.unwind narrow fs (f.plug t') with
      | error e => simpa only [rest] using next
      | ok t'' =>
        simp only [rest] at next
        obtain ⟨m', done, stores, agree', same'⟩ := next
        exact ⟨m', done, stores, touched.trans (flat ▸ agree'), same'.trans flat⟩

end

end SmallObject
