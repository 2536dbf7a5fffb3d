import SmallObject.RangeMap.Insert

/-! Erasure: unlinking a node, then rebalancing one path.

A node with two children is replaced by its left subtree, and its right subtree is
hung under the last node of the left one. Which path is rebalanced depends on the
case; the elements that remain do not.
-/

set_option autoImplicit false

namespace SmallObject

open Linked

variable {K V : Type}

section Spine

variable {h : Nodes K V} {top : Ptr} {t : AvlTree K V}

/-- Going right from the root ends at the last node of the tree. -/
theorem rightmost_follows {fuel : Nat} {a : Addr} (rep : Represents h top t) (root : t.root = some a)
    (enough : t.size ≤ fuel) :
    ∃ spine b l x, t = Context.plug spine (.node b l x .nil) ∧ Context.OneSided .right spine ∧
      AvlTreeNode.rightmost h fuel a = .ok b := by
  induction t generalizing a fuel top with
  | nil => simp at root
  | node b l x r ihl ihr =>
    obtain rfl : b = a := by simpa using root
    obtain ⟨here, left, right⟩ := rep
    obtain ⟨fuel, rfl⟩ : ∃ k, fuel = k + 1 := ⟨fuel - 1, by simp at enough; omega⟩
    cases r with
    | nil =>
      refine ⟨[], b, l, x, rfl, by simp [Context.OneSided], ?_⟩
      simp [AvlTreeNode.rightmost, deref_of_lookup here]
    | node c rl y rr =>
      have enough : (LinkTree.node c rl y rr).size ≤ fuel := by
        simp only [LinkTree.size_node] at enough ⊢
        omega
      obtain ⟨spine, d, l', x', same, right', run⟩ := ihr right rfl enough
      refine ⟨spine ++ [⟨.right, b, x, l⟩], d, l', x', ?_, ?_, ?_⟩
      · rw [Context.plug_append, ← same]
        rfl
      · intro f member
        rcases List.mem_append.mp member with inSpine | isLast
        · exact right' f inSpine
        · rw [List.mem_singleton.mp isLast]
      · simp [AvlTreeNode.rightmost, deref_of_lookup here, run]

/-- Going left from the root ends at the first node of the tree. -/
theorem leftmost_follows {fuel : Nat} {a : Addr} (rep : Represents h top t) (root : t.root = some a)
    (enough : t.size ≤ fuel) :
    ∃ spine b x r, t = Context.plug spine (.node b .nil x r) ∧ Context.OneSided .left spine ∧
      AvlTreeNode.leftmost h fuel a = .ok b := by
  induction t generalizing a fuel top with
  | nil => simp at root
  | node b l x r ihl ihr =>
    obtain rfl : b = a := by simpa using root
    obtain ⟨here, left, right⟩ := rep
    obtain ⟨fuel, rfl⟩ : ∃ k, fuel = k + 1 := ⟨fuel - 1, by simp at enough; omega⟩
    cases l with
    | nil =>
      refine ⟨[], b, x, r, rfl, by simp [Context.OneSided], ?_⟩
      simp [AvlTreeNode.leftmost, deref_of_lookup here]
    | node c ll y lr =>
      have enough : (LinkTree.node c ll y lr).size ≤ fuel := by
        simp only [LinkTree.size_node] at enough ⊢
        omega
      obtain ⟨spine, d, x', r', same, left', run⟩ := ihl left rfl enough
      refine ⟨spine ++ [⟨.left, b, x, r⟩], d, x', r', ?_, ?_, ?_⟩
      · rw [Context.plug_append, ← same]
        rfl
      · intro f member
        rcases List.mem_append.mp member with inSpine | isLast
        · exact left' f inSpine
        · rw [List.mem_singleton.mp isLast]
      · simp [AvlTreeNode.leftmost, deref_of_lookup here, run]

end Spine

section Unlink

variable {h : Nodes K V} {ctx : Context (NodeData K V)} {a : Addr} {l r s : AvlTree K V}
  {x : NodeData K V}

/-- The node is replaced under its parent, or at the root, and destroyed. -/
theorem unlink_represents {b : Addr} {outer : Ptr} (context : Context.Represents h none ctx (some a))
    (stored : Represents h outer s) (root : ctx ≠ [] ∨ s.root = some b)
    (nodup : (ctx.plug s).addrs.Nodup) (nodupOld : (ctx.plug (.node a l x r)).addrs.Nodup)
    (destroyed : ∃ cell, h.lookup a = some cell) (within : ∀ c ∈ s.addrs, c ∈ l.addrs ∨ c ∈ r.addrs) :
    ∃ h', (match ctx with
        | f :: _ => RangeMap.replaceChild h f.addr a s.root >>= fun h => RangeMap.destroyNode h a
        | [] => AvlTreeNode.makeRoot h b >>= fun h => RangeMap.destroyNode h a) = .ok h' ∧
      Represents h' none (ctx.plug s) ∧ h'.lookup a = none ∧
      AgreeOff (ctx.plug (.node a l x r)).addrs h h' := by
  obtain ⟨cell, found⟩ := destroyed
  have apart := Context.apart_of_nodup nodupOld
  obtain ⟨_, _, offLeft, offRight, _⟩ := LinkTree.nodup_node.mp (Context.nodup_inner nodupOld)
  have offTree : a ∉ s.addrs := by
    intro member
    rcases within a member with inLeft | inRight
    · exact offLeft inLeft
    · exact offRight inRight
  have offContext : a ∉ ctx.addrs := fun member => apart a member (by simp)
  have inOld : ∀ c ∈ s.addrs, c ∈ (ctx.plug (.node a l x r)).addrs := by
    intro c member
    rw [Context.mem_addrs_plug]
    rcases within c member with inLeft | inRight
    · exact .inl (by simp [inLeft])
    · exact .inl (by simp [inRight])
  have here : a ∈ (ctx.plug (.node a l x r)).addrs := Context.mem_addrs_plug.mpr (.inl (by simp))
  -- either way the tree is linked first, and the node goes then
  have linked : ∃ h₁, (match ctx with
      | f :: _ => RangeMap.replaceChild h f.addr a s.root
      | [] => AvlTreeNode.makeRoot h b) = .ok h₁ ∧ Represents h₁ none (ctx.plug s) ∧
      AgreeOff (ctx.plug (.node a l x r)).addrs h h₁ ∧ h₁.lookup a = some cell := by
    cases ctx with
    | nil =>
      have isRoot : s.root = some b := root.resolve_left (by simp)
      obtain ⟨h₁, made, rep, agree⟩ := makeRoot_represents stored nodup isRoot
      refine ⟨h₁, made, rep, agree.mono fun c member => ?_, (agree a fun member => ?_).trans found⟩
      · exact inOld c (LinkTree.mem_of_root_toList member)
      · exact offTree (LinkTree.mem_of_root_toList member)
    | cons f fs =>
      obtain ⟨parent, foundParent, side⟩ := parent_cell (t := .node a l x r) context rfl nodupOld
      obtain ⟨h₁, hung, rep, agree⟩ := hang_represents context stored nodup
      refine ⟨h₁, ?_, rep, agree.mono ?_, (agree a ?_).trans found⟩
      · simp [RangeMap.replaceChild, deref_of_lookup foundParent, side, hung]
      · intro c member
        rcases List.mem_cons.mp member with rfl | isRoot
        · exact Context.mem_addrs_plug.mpr (.inr (Context.mem_addrs_cons.mpr (.inl rfl)))
        · exact inOld c (LinkTree.mem_of_root_toList isRoot)
      · intro member
        rcases List.mem_cons.mp member with rfl | isRoot
        · exact offContext (Context.mem_addrs_cons.mpr (.inl rfl))
        · exact offTree (LinkTree.mem_of_root_toList isRoot)
  obtain ⟨h₁, run, rep, agree, kept⟩ := linked
  refine ⟨h₁.erase a, ?_, ?_, AList.lookup_erase _ _, agree.erase here⟩
  · cases ctx <;> simp only at run ⊢ <;> simp [run, RangeMap.destroyNode, deref_of_lookup kept]
  · refine rep.transport fun c member => AList.lookup_erase_ne ?_
    rintro rfl
    rcases Context.mem_addrs_plug.mp member with inTree | inContext
    · exact offTree inTree
    · exact offContext inContext

end Unlink

section Erase

variable {m : RangeMap K V} {ctx : Context (NodeData K V)} {a : Addr}
  {l r : AvlTree K V} {x : NodeData K V}

/-- What an erasure has come to when only the rebalancing is left: a tree of the remaining
elements, its links consistent, the node destroyed, and the node to rebalance from. -/
def ErasedTo (m : RangeMap K V) (ctx : Context (NodeData K V)) (a : Addr) (l r : AvlTree K V)
    (x : NodeData K V) : Prop :=
  ∃ (ctx' : Context (NodeData K V)) (s : AvlTree K V) (h' : Nodes K V) (b : Addr), s.root = some b ∧
    (ctx'.plug s).toList = ctx.before ++ (l.toList ++ r.toList) ++ ctx.after ∧
    Represents h' none (ctx'.plug s) ∧ h'.lookup a = none ∧
    AgreeOff (ctx.plug (.node a l x r)).addrs m.nodes h' ∧
    ∀ narrow, m.doEraseNode narrow a = RangeMap.doRebalanceFrom narrow h' b

/-- The same, with what is to be rebalanced: the subtree at the end of a path. -/
def ErasedBy (m : RangeMap K V) (ctx : Context (NodeData K V)) (a : Addr) (l r : AvlTree K V)
    (x : NodeData K V) (ctx' : Context (NodeData K V)) (s : AvlTree K V) : Prop :=
  ∃ (h' : Nodes K V) (b : Addr), s.root = some b ∧
    (ctx'.plug s).toList = ctx.before ++ (l.toList ++ r.toList) ++ ctx.after ∧
    Represents h' none (ctx'.plug s) ∧ h'.lookup a = none ∧
    AgreeOff (ctx.plug (.node a l x r)).addrs m.nodes h' ∧
    ∀ narrow, m.doEraseNode narrow a = RangeMap.doRebalanceFrom narrow h' b

theorem ErasedBy.erasedTo {ctx' : Context (NodeData K V)} {s : AvlTree K V} (erased : ErasedBy m ctx a l r x ctx' s) :
    ErasedTo m ctx a l r x :=
  ⟨ctx', s, erased⟩

theorem nodup_remaining (nodup : (ctx.plug (.node a l x r)).addrs.Nodup) {t : AvlTree K V}
    (remaining : t.toList = ctx.before ++ (l.toList ++ r.toList) ++ ctx.after) : t.addrs.Nodup := by
  refine List.Nodup.sublist ?_ nodup
  unfold LinkTree.addrs
  rw [remaining, Context.toList_plug, LinkTree.toList_node]
  refine List.Sublist.map _ ?_
  simp

theorem mem_remaining {ctx' : Context (NodeData K V)} {s : AvlTree K V}
    (flat : (ctx'.plug s).toList = ctx.before ++ (l.toList ++ r.toList) ++ ctx.after) (b : Addr) :
    b ∈ (ctx.plug (.node a l x r)).addrs ↔ b = a ∨ b ∈ (ctx'.plug s).addrs := by
  simp only [LinkTree.addrs, flat, Context.toList_plug, LinkTree.toList_node, List.map_append, List.map_cons,
    List.mem_append, List.mem_cons]
  tauto

/-- What erasing leaves fits when the tree did. -/
theorem heightsFit_remaining {ctx' : Context (NodeData K V)} {s : AvlTree K V}
    (fit : AvlTree.HeightsFit (ctx.plug (.node a l x r)))
    (flat : (ctx'.plug s).toList = ctx.before ++ (l.toList ++ r.toList) ++ ctx.after) :
    AvlTree.HeightsFit (ctx'.plug s) := by
  intro e inside
  refine fit e ?_
  rw [flat] at inside
  simp only [Context.toList_plug, LinkTree.toList_node, List.mem_append, List.mem_cons] at inside ⊢
  tauto

/-- A node with at most one child: the child, if any, takes its place, and the tree is rebalanced
from the parent, or from the child when that is the root now. -/
theorem eraseSingle {s : AvlTree K V} (stores : m.Stores (ctx.plug (.node a l x r)))
    (only : (l = .nil ∧ s = r) ∨ (r = .nil ∧ s = l)) (notLast : ctx ≠ [] ∨ s ≠ .nil) :
    match ctx with
    | [] => ErasedBy m [] a l r x [] s
    | f :: fs => ErasedBy m (f :: fs) a l r x fs (f.plug s) := by
  obtain ⟨_, rep, nodup⟩ := stores
  obtain ⟨context, here, left, right⟩ := Context.represents_plug.mp rep
  have stored : Represents m.nodes (some a) s := by rcases only with ⟨_, rfl⟩ | ⟨_, rfl⟩ <;> assumption
  have flat : s.toList = l.toList ++ r.toList := by
    rcases only with ⟨rfl, rfl⟩ | ⟨rfl, rfl⟩ <;> simp
  have within : ∀ c ∈ s.addrs, c ∈ l.addrs ∨ c ∈ r.addrs := by
    rcases only with ⟨_, rfl⟩ | ⟨_, rfl⟩ <;> simp +contextual
  have remaining : (ctx.plug s).toList = ctx.before ++ (l.toList ++ r.toList) ++ ctx.after := by
    rw [Context.toList_plug, flat]
  have nodup' := nodup_remaining nodup remaining
  -- at the root the child becomes the root, below it the child is hung under the parent
  cases ctx with
  | nil =>
    have present := notLast.resolve_left (by simp)
    obtain ⟨b, root⟩ : ∃ b, s.root = some b := by cases s <;> simp at present ⊢
    obtain ⟨h', run, rep', gone, agree⟩ := unlink_represents (b := b) context stored (.inr root) nodup'
      nodup ⟨_, here⟩ within
    refine ⟨h', b, root, remaining, rep', gone, agree, fun narrow => ?_⟩
    simp only at run
    obtain ⟨h₁, made, destroyed⟩ := bind_eq_ok run
    rcases only with ⟨rfl, rfl⟩ | ⟨rfl, rfl⟩ <;>
      simp [RangeMap.doEraseNode, deref_of_lookup here, root, made, destroyed]
  | cons f fs =>
    obtain ⟨h', run, rep', gone, agree⟩ := unlink_represents (b := 0) context stored (.inl (by simp))
      nodup' nodup ⟨_, here⟩ within
    refine ⟨h', f.addr, f.root_plug s, remaining, rep', gone, agree, fun narrow => ?_⟩
    simp only at run
    obtain ⟨h₁, made, destroyed⟩ := bind_eq_ok run
    rcases only with ⟨rfl, rfl⟩ | ⟨rfl, rfl⟩ <;> cases s <;>
      simp only [LinkTree.root_nil, LinkTree.root_node] at made <;>
      simp [RangeMap.doEraseNode, deref_of_lookup here, made, destroyed]

/-- The right subtree under the last node of the left one; this touches that node and the
root of the right subtree only. -/
theorem graft_represents {h : Nodes K V} {spine : Context (NodeData K V)} {b : Addr} {ml : AvlTree K V}
    {y : NodeData K V} (context : Context.Represents h none ctx (some a))
    (left : Represents h (some a) (spine.plug (.node b ml y .nil))) (right : Represents h (some a) r)
    (nodup : (ctx.plug (spine.plug (.node b ml y r))).addrs.Nodup) :
    ∃ h', AvlTreeNode.setRight h b r.root = .ok h' ∧ Context.Represents h' none ctx (some a) ∧
      Represents h' (some a) (spine.plug (.node b ml y r)) ∧ AgreeOff (b :: r.root.toList) h h' := by
  have nodupGraft := Context.nodup_inner nodup
  obtain ⟨inner, last, lastLeft, _⟩ := Context.represents_plug.mp left
  obtain ⟨h', set, rep, agree⟩ := setRight_represents last lastLeft right (Context.nodup_inner nodupGraft)
  have touched : ∀ c ∈ b :: r.root.toList, c ∈ (LinkTree.node b ml y r).addrs := by
    intro c member
    rcases List.mem_cons.mp member with rfl | isRoot
    · simp
    · simp [LinkTree.mem_of_root_toList isRoot]
  have inner' : Context.Represents h' (some a) spine (some b) := inner.frame agree fun c inSpine member =>
    Context.apart_of_nodup nodupGraft c inSpine (touched c member)
  have context' : Context.Represents h' none ctx (some a) := context.frame agree fun c inContext member =>
    Context.apart_of_nodup nodup c inContext (Context.mem_addrs_plug.mpr (.inl (touched c member)))
  exact ⟨h', set, context', Context.represents_plug.mpr ⟨inner', rep⟩, agree⟩

/-- A node with two children: the left subtree takes its place, and the right one is hung under
the last node of the left one. The tree is rebalanced from there, or at the root only. -/
theorem eraseDouble (stores : m.Stores (ctx.plug (.node a l x r))) (hasLeft : l ≠ .nil)
    (hasRight : r ≠ .nil) :
    ∃ spine b ml y, l = Context.plug spine (.node b ml y .nil) ∧ Context.OneSided .right spine ∧
      match ctx with
      | [] => ErasedBy m [] a l r x [] (Context.plug spine (.node b ml y r))
      | f :: fs => ErasedBy m (f :: fs) a l r x (spine ++ f :: fs) (.node b ml y r) := by
  obtain ⟨_, rep, nodup⟩ := stores
  obtain ⟨context, here, left, right⟩ := Context.represents_plug.mp rep
  obtain ⟨nodupLeft, _, offLeft, offRight, _⟩ := LinkTree.nodup_node.mp (Context.nodup_inner nodup)
  obtain ⟨p, rootLeft⟩ : ∃ p, l.root = some p := by cases l <;> simp at hasLeft ⊢
  obtain ⟨q, rootRight⟩ : ∃ q, r.root = some q := by cases r <;> simp at hasRight ⊢
  obtain ⟨spine, b, ml, y, rfl, oneSided, found⟩ := rightmost_follows left rootLeft
    (size_lt_rounds left nodupLeft).le
  have remaining : (ctx.plug (spine.plug (.node b ml y r))).toList =
      ctx.before ++ ((spine.plug (.node b ml y .nil)).toList ++ r.toList) ++ ctx.after := by
    simp [Context.toList_plug, oneSided.after_eq_nil]
  have nodup' := nodup_remaining nodup remaining
  obtain ⟨h₁, set, context₁, grafted, agree₁⟩ := graft_represents context left right nodup'
  -- the graft does not touch the node that is erased
  have offGraft : a ∉ b :: r.root.toList := by
    intro member
    rcases List.mem_cons.mp member with rfl | isRoot
    · exact offLeft (Context.mem_addrs_plug.mpr (.inl (by simp)))
    · exact offRight (LinkTree.mem_of_root_toList isRoot)
  have within : ∀ c ∈ (spine.plug (.node b ml y r)).addrs,
      c ∈ (spine.plug (.node b ml y .nil)).addrs ∨ c ∈ r.addrs := by
    intro c member
    simp only [Context.mem_addrs_plug, LinkTree.addrs_node, List.mem_append, List.mem_cons] at member ⊢
    tauto
  have touched : ∀ c ∈ b :: r.root.toList, c ∈ (ctx.plug (.node a (spine.plug (.node b ml y .nil)) x r)).addrs := by
    intro c member
    rw [Context.mem_addrs_plug, LinkTree.addrs_node, List.mem_append, List.mem_cons]
    rcases List.mem_cons.mp member with rfl | isRoot
    · exact .inl (.inl (Context.mem_addrs_plug.mpr (.inl (by simp))))
    · exact .inl (.inr (.inr (LinkTree.mem_of_root_toList isRoot)))
  have rootGraft : (spine.plug (.node b ml y r)).root = some p := by
    rw [← rootLeft]
    exact Context.root_plug rfl
  obtain ⟨h₂, run, rep₂, gone, agree₂⟩ := unlink_represents (b := p) context₁ grafted (.inr rootGraft) nodup'
    nodup ⟨_, (agree₁ a offGraft).trans here⟩ within
  have agree := (agree₁.mono touched).trans agree₂
  rw [rootRight] at set
  refine ⟨spine, b, ml, y, rfl, oneSided, ?_⟩
  cases ctx with
  | nil =>
    simp only at run
    obtain ⟨h₃, made, destroyed⟩ := bind_eq_ok run
    refine ⟨h₂, p, rootGraft, remaining, rep₂, gone, agree, fun narrow => ?_⟩
    simp [RangeMap.doEraseNode, deref_of_lookup here, rootLeft, rootRight, found, set, made, destroyed]
  | cons f fs =>
    simp only at run
    obtain ⟨h₃, made, destroyed⟩ := bind_eq_ok run
    rw [rootGraft] at made
    refine ⟨h₂, b, rfl, ?_, ?_, gone, agree, fun narrow => ?_⟩
    · rw [Context.plug_append]
      exact remaining
    · rw [Context.plug_append]
      exact rep₂
    · simp [RangeMap.doEraseNode, deref_of_lookup here, rootLeft, rootRight, found, set, made, destroyed]

/-- Erasing the last element empties the map; any other erasure ends by rebalancing. -/
theorem doEraseNode_follows (stores : m.Stores (ctx.plug (.node a l x r))) :
    (ctx = [] ∧ l = .nil ∧ r = .nil ∧
      ∀ narrow, m.doEraseNode narrow a = .ok { m with root := none }) ∨ ErasedTo m ctx a l r x := by
  have single : ∀ s, (l = .nil ∧ s = r) ∨ (r = .nil ∧ s = l) → ctx ≠ [] ∨ s ≠ .nil → ErasedTo m ctx a l r x := by
    intro s only notLast
    have erased := eraseSingle stores only notLast
    cases ctx with
    | nil => exact erased.erasedTo
    | cons f fs => exact erased.erasedTo
  by_cases noLeft : l = .nil
  · by_cases last : ctx = [] ∧ r = .nil
    · obtain ⟨rfl, rfl⟩ := last
      subst noLeft
      have here := stores.rep.1
      exact .inl ⟨rfl, rfl, rfl, fun narrow => by simp [RangeMap.doEraseNode, deref_of_lookup here]⟩
    · exact .inr (single r (.inl ⟨noLeft, rfl⟩) (by tauto))
  · by_cases noRight : r = .nil
    · exact .inr (single l (.inr ⟨noRight, rfl⟩) (.inr noLeft))
    · obtain ⟨spine, b, ml, y, _, _, erased⟩ := eraseDouble stores noLeft noRight
      cases ctx with
      | nil => exact .inr erased.erasedTo
      | cons f fs => exact .inr erased.erasedTo

end Erase

end SmallObject
