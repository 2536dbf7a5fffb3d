import SmallObject.RangeMap.Unwind

/-! Insertion: one search path decides, and the pointer code follows a tree function.

The search stops at the first element that is neither before nor after the new range.
It sees the neighbours of the place it ends at, and the elements are a chain in both
bounds; so a range that passes is comparable with every element.
-/

set_option autoImplicit false

namespace SmallObject

open Linked

variable {K V : Type}

namespace AvlTree

abbrev Entry (K V : Type) := Addr × Range K × V

/-- The place where the search for a range leaves the tree; none when it meets an
element that it cannot be compared with. -/
def attachPoint [LinearOrder K] (range : Range K) :
    AvlTree K V → Context (NodeData K V) → Option (Context (NodeData K V))
  | .nil, ctx => some ctx
  | .node a l x r, ctx =>
    let compare := range.compareTo x.range
    if compare = 0 then none
    else if compare = 1 then attachPoint range r (⟨.right, a, x, l⟩ :: ctx)
    else attachPoint range l (⟨.left, a, x, r⟩ :: ctx)

def leaf (a : Addr) (range : Range K) (mapped : V) : AvlTree K V :=
  .node a .nil { height := 0, range, mapped } .nil

/-- Insertion on trees, with the outcome that `insert` reports. -/
def insert [LinearOrder K] (narrow : Narrowing) (a : Addr) (range : Range K) (mapped : V)
    (t : AvlTree K V) : Except Fault (AvlTree K V × Bool) :=
  match attachPoint range t [] with
  | none => .ok (t, false)
  | some [] => .ok (leaf a range mapped, true)
  | some (f :: fs) => do
    let t ← unwind narrow fs (f.plug (leaf a range mapped))
    .ok (t, true)

end AvlTree

open AvlTree

/-- The elements are a strictly increasing chain in both bounds. -/
def Ordered [LinearOrder K] (es : List (Entry K V)) : Prop :=
  es.Pairwise fun e f => e.2.1.Before f.2.1

/-- The range is strictly before or strictly after another one. -/
def Comparable [LinearOrder K] (range other : Range K) : Prop :=
  other.Before range ∨ range.Before other

section Order

variable [LinearOrder K] {range : Range K} {t : AvlTree K V}

theorem attachPoint_plug {ctx ctx' : Context (NodeData K V)}
    (found : attachPoint range t ctx = some ctx') : ctx'.plug .nil = ctx.plug t := by
  induction t generalizing ctx with
  | nil =>
    obtain rfl : ctx = ctx' := by simpa [attachPoint] using found
    rfl
  | node a l x r ihl ihr =>
    simp only [attachPoint] at found
    split at found
    · simp at found
    · split at found
      · simpa [Frame.plug] using ihr found
      · simpa [Frame.plug] using ihl found

/-- What is on the two sides of the place where the search ends. -/
theorem attachPoint_sides {ctx ctx' : Context (NodeData K V)} (ordered : Ordered t.entries)
    (found : attachPoint range t ctx = some ctx') :
    ∃ pre post : List (Addr × NodeData K V), t.toList = pre ++ post ∧
      ctx'.before = ctx.before ++ pre ∧ ctx'.after = post ++ ctx.after ∧
      (∀ e ∈ pre, e.2.range.Before range) ∧ (∀ e ∈ post, range.Before e.2.range) := by
  induction t generalizing ctx with
  | nil =>
    obtain rfl : ctx = ctx' := by simpa [attachPoint] using found
    exact ⟨[], [], by simp⟩
  | node a l x r ihl ihr =>
    simp only [Ordered, entries_node, List.pairwise_append, List.pairwise_cons] at ordered
    obtain ⟨orderedLeft, ⟨beforeRight, orderedRight⟩, acrossLeft⟩ := ordered
    simp only [attachPoint] at found
    split at found
    · simp at found
    next notZero =>
      -- what the search goes past is on the side that it leaves
      split at found
      next isAfter =>
        have here : x.range.Before range := Range.compareTo_eq_one.mp isAfter
        obtain ⟨pre, post, flat, before, after, below, above⟩ := ihr orderedRight found
        refine ⟨l.toList ++ (a, x) :: pre, post, by simp [flat], by simp [before, Context.before],
          by simp [after, Context.after], ?_, above⟩
        intro e member
        simp only [List.mem_append, List.mem_cons] at member
        rcases member with inLeft | rfl | inPre
        · have toHere := acrossLeft _ (List.mem_map_of_mem inLeft) (a, x.range, x.mapped) (by simp)
          exact toHere.trans here
        · exact here
        · exact below e inPre
      next notAfter =>
        have here : range.Before x.range := by
          by_contra notBefore
          exact notZero (Range.compareTo_eq_zero.mpr
            ⟨fun isAfter => notAfter (Range.compareTo_eq_one.mpr isAfter), notBefore⟩)
        obtain ⟨pre, post, flat, before, after, below, above⟩ := ihl orderedLeft found
        refine ⟨pre, post ++ (a, x) :: r.toList, by simp [flat], by simp [before, Context.before],
          by simp [after, Context.after], below, ?_⟩
        intro e member
        simp only [List.mem_append, List.mem_cons] at member
        rcases member with inPost | rfl | inRight
        · exact above e inPost
        · exact here
        · exact here.trans (beforeRight _ (List.mem_map_of_mem inRight))

theorem attachPoint_rejects {ctx : Context (NodeData K V)} (missed : attachPoint range t ctx = none) :
    ∃ e ∈ t.entries, ¬ Comparable range e.2.1 := by
  induction t generalizing ctx with
  | nil => simp [attachPoint] at missed
  | node a l x r ihl ihr =>
    simp only [attachPoint] at missed
    split at missed
    next isZero =>
      have apart := Range.compareTo_eq_zero.mp isZero
      exact ⟨(a, x.range, x.mapped), by simp, not_or.mpr apart⟩
    next =>
      split at missed
      · obtain ⟨e, member, apart⟩ := ihr missed
        exact ⟨e, by simp [member], apart⟩
      · obtain ⟨e, member, apart⟩ := ihl missed
        exact ⟨e, by simp [member], apart⟩

omit [LinearOrder K] in
theorem leaf_entries (a : Addr) (range : Range K) (mapped : V) :
    entries (leaf a range mapped) = [(a, range, mapped)] := rfl

/-- Insertion adds exactly the new element in its place, or leaves the tree as it is. -/
theorem AvlTree.insert_entries {narrow : Narrowing} {a : Addr} {mapped : V} {t' : AvlTree K V}
    {inserted : Bool} (ordered : Ordered t.entries)
    (run : t.insert narrow a range mapped = .ok (t', inserted)) :
    (inserted = true ∧ ∃ pre post, t.entries = pre ++ post ∧
      t'.entries = pre ++ (a, range, mapped) :: post ∧
      (∀ e ∈ pre, e.2.1.Before range) ∧ (∀ e ∈ post, range.Before e.2.1)) ∨
    (inserted = false ∧ t' = t ∧ ∃ e ∈ t.entries, ¬ Comparable range e.2.1) := by
  unfold AvlTree.insert at run
  split at run
  next missed =>
    obtain ⟨rfl, rfl⟩ : t = t' ∧ false = inserted := by simpa using run
    exact .inr ⟨rfl, rfl, attachPoint_rejects missed⟩
  next found =>
    obtain ⟨rfl, rfl⟩ : leaf a range mapped = t' ∧ true = inserted := by simpa using run
    have empty : t = .nil := by simpa using (attachPoint_plug found).symm
    subst empty
    exact .inl ⟨rfl, [], [], by simp [leaf_entries]⟩
  next f fs found =>
    obtain ⟨s, unwound, done⟩ := bind_eq_ok run
    obtain ⟨rfl, rfl⟩ : s = t' ∧ true = inserted := by simpa using done
    -- rebalancing keeps the order, so the new element is where the search has ended
    obtain ⟨pre, post, flat, before, after, below, above⟩ := attachPoint_sides ordered found
    refine .inl ⟨rfl, pre.map fun e => (e.1, e.2.range, e.2.mapped),
      post.map fun e => (e.1, e.2.range, e.2.mapped), ?_, ?_, ?_, ?_⟩
    · simp [entries, flat]
    · rw [unwind_entries unwound, ← Context.plug_cons, entries_plug, before, after, leaf_entries]
      simp [Context.before, Context.after]
    · intro e member
      obtain ⟨source, inside, rfl⟩ := List.mem_map.mp member
      exact below source inside
    · intro e member
      obtain ⟨source, inside, rfl⟩ := List.mem_map.mp member
      exact above source inside

theorem ordered_insert {pre post : List (Entry K V)} {e : Entry K V} (ordered : Ordered (pre ++ post))
    (below : ∀ f ∈ pre, f.2.1.Before e.2.1) (above : ∀ f ∈ post, e.2.1.Before f.2.1) :
    Ordered (pre ++ e :: post) := by
  simp only [Ordered, List.pairwise_append, List.pairwise_cons] at ordered ⊢
  refine ⟨ordered.1, ⟨above, ordered.2.1⟩, ?_⟩
  intro f inPre g member
  rcases List.mem_cons.mp member with rfl | inPost
  · exact below f inPre
  · exact ordered.2.2 f inPre g inPost

theorem AvlTree.insert_agrees {narrow wider : Narrowing} {a : Addr} {mapped : V}
    {result : AvlTree K V × Bool} (agree : ∀ x y, narrow x = .ok y → wider x = .ok y)
    (run : t.insert narrow a range mapped = .ok result) : t.insert wider a range mapped = .ok result := by
  unfold AvlTree.insert at run ⊢
  split at run
  · exact run
  · exact run
  · obtain ⟨s, unwound, done⟩ := bind_eq_ok run
    simp only [unwind_agrees agree unwound, ok_bind]
    exact done

/-- Under `exactInt8` insertion fails only for a height that is too large. -/
theorem AvlTree.insert_fit (a : Addr) (range : Range K) (mapped : V) (fit : t.HeightsFit) :
    t.insert exactInt8 a range mapped = .error .narrow ∨
      ∃ t' inserted, t.insert exactInt8 a range mapped = .ok (t', inserted) ∧ t'.HeightsFit := by
  have fitLeaf : HeightsFit (leaf a range mapped) := by simp [leaf, HeightsFit]
  unfold AvlTree.insert
  split
  · exact .inr ⟨_, _, rfl, fit⟩
  · exact .inr ⟨_, _, rfl, fitLeaf⟩
  next f fs found =>
    have before : HeightsFit (Context.plug (f :: fs) .nil) := by
      rw [attachPoint_plug found]
      exact fit
    have plugged : HeightsFit (Context.plug (f :: fs) (leaf a range mapped)) := heightsFit_replace before fitLeaf
    rw [Context.plug_cons] at plugged
    rcases unwind_fit plugged (f.plug_ne_nil _) with wide | ⟨t', run, fit', _⟩
    · exact .inl (by simp [wide])
    · exact .inr ⟨t', true, by simp [run], fit'⟩

end Order

/-! ## The pointer code -/

section Follow

variable {h : Nodes K V} (range : Range K) (mapped : V)

/-- A fresh leaf is created and hung at a position. -/
theorem hangLeaf_represents {n : Addr} (f : Frame (NodeData K V)) (fs : Context (NodeData K V))
    (rep : Represents h none (Context.plug (f :: fs) .nil))
    (nodup : (Context.plug (f :: fs) (.nil : AvlTree K V)).addrs.Nodup) (fresh : h.lookup n = none) :
    ∃ h', RangeMap.hang (h.insert n (AvlTreeNode.init range mapped)) (f.side == .left) f.addr (some n) =
        .ok h' ∧
      Represents h' none (Context.plug (f :: fs) (leaf n range mapped)) ∧
      (Context.plug (f :: fs) (leaf n range mapped)).addrs.Nodup ∧ AgreeOff [n, f.addr] h h' := by
  have outside : n ∉ (Context.plug (f :: fs) (.nil : AvlTree K V)).addrs := by
    intro member
    obtain ⟨cell, found⟩ := rep.allocated n member
    simp [fresh] at found
  have created : AgreeOff [n] h (h.insert n (AvlTreeNode.init range mapped)) :=
    (AgreeOff.refl _ _).insert (by simp) _
  have context : Context.Represents (h.insert n (AvlTreeNode.init range mapped)) none (f :: fs) none :=
    (Context.represents_plug.mp rep).1.frame created fun a member same =>
      outside (Context.mem_addrs_plug.mpr (.inr (List.mem_singleton.mp same ▸ member)))
  have stored : Represents (h.insert n (AvlTreeNode.init range mapped)) none (leaf n range mapped) :=
    ⟨by simp [AvlTreeNode.init], trivial, trivial⟩
  have nodup' : (Context.plug (f :: fs) (leaf n range mapped)).addrs.Nodup := by
    refine (Context.addrs_plug_perm _ _).nodup_iff.mpr (List.nodup_cons.mpr ⟨?_, ?_⟩)
    · exact fun member => outside (Context.mem_addrs_plug.mpr (.inr member))
    · exact (Context.addrs_plug_perm _ _).nodup_iff.mp nodup
  obtain ⟨h', hung, rep', agree⟩ := hang_represents context stored nodup'
  refine ⟨h', hung, rep', nodup', (created.mono (by simp)).trans (agree.mono ?_)⟩
  simp [leaf]

variable [LinearOrder K]

/-- The search loop ends where the tree search does. -/
theorem doInsertNode_follows (memory : Ptr) {top : Ptr} {t : AvlTree K V} (ctx : Context (NodeData K V))
    {fuel : Nat} {a : Addr} (rep : Represents h top t) (root : t.root = some a) (enough : t.size ≤ fuel) :
    match attachPoint range t ctx with
    | none => RangeMap.doInsertNode h memory range mapped fuel a = .ok (h, none)
    | some ctx' => ∃ f fs, ctx' = f :: fs ∧
        RangeMap.doInsertNode h memory range mapped fuel a =
          (RangeMap.createNode h memory range mapped >>= fun made =>
            RangeMap.hang made.1 (f.side == .left) f.addr (some made.2) >>= fun h' =>
              .ok (h', some f.addr)) := by
  induction t generalizing ctx fuel a top with
  | nil => simp at root
  | node b l x r ihl ihr =>
    obtain rfl : b = a := by simpa using root
    obtain ⟨here, left, right⟩ := rep
    obtain ⟨fuel, rfl⟩ : ∃ k, fuel = k + 1 := ⟨fuel - 1, by simp at enough; omega⟩
    simp only [attachPoint, RangeMap.doInsertNode, deref_of_lookup here, ok_bind]
    -- neither before nor after: the range is rejected
    by_cases isZero : range.compareTo x.range = 0
    · simp only [isZero, if_true]
    by_cases isOne : range.compareTo x.range = 1
    · simp only [isOne, if_true, if_neg (show ¬ (1 : Int) = 0 by decide), RangeMap.doInsertRight,
        deref_of_lookup here, ok_bind]
      cases r with
      | nil => exact ⟨⟨.right, b, x, l⟩, ctx, rfl, by simp [RangeMap.hang, bind_assoc]⟩
      | node c rl y rr =>
        simp only [LinkTree.root_node, ok_bind, Bool.false_eq_true, if_false, nonNull_some]
        exact ihr _ right rfl (by simp only [LinkTree.size_node] at enough ⊢; omega)
    · simp only [isZero, isOne, if_false, RangeMap.doInsertLeft, deref_of_lookup here, ok_bind]
      cases l with
      | nil => exact ⟨⟨.left, b, x, r⟩, ctx, rfl, by simp [RangeMap.hang, bind_assoc]⟩
      | node c ll y lr =>
        simp only [LinkTree.root_node, ok_bind, Bool.false_eq_true, if_false, nonNull_some]
        exact ihl _ left rfl (by simp only [LinkTree.size_node] at enough ⊢; omega)

/-- `insert` on a map that stores a tree is insertion into the tree. -/
theorem insertNode_follows (narrow : Narrowing) (range : Range K) (mapped : V) {m : RangeMap K V}
    {t : AvlTree K V} {n : Addr} (stores : m.Stores t) (fresh : m.nodes.lookup n = none) :
    match t.insert narrow n range mapped with
    | .error e => m.insertNode narrow (some n) range mapped = .error e
    | .ok (t', inserted) => ∃ m', m.insertNode narrow (some n) range mapped = .ok (m', inserted) ∧
        m'.Stores t' ∧ AgreeOff (n :: t.addrs) m.nodes m'.nodes ∧ (inserted = false → m' = m) := by
  obtain ⟨root, rep, nodup⟩ := stores
  cases t with
  | nil =>
    refine ⟨⟨m.nodes.insert n (AvlTreeNode.init range mapped), some n⟩, ?_, ⟨rfl, ?_, ?_⟩, ?_, by simp⟩
    · simp [RangeMap.insertNode, root, RangeMap.createNode]
    · exact ⟨by simp [AvlTreeNode.init], trivial, trivial⟩
    · simp [leaf]
    · exact (AgreeOff.refl _ _).insert (by simp) _
  | node a l x r =>
    have searched := doInsertNode_follows range mapped (some n) [] rep rfl (size_lt_rounds rep nodup).le
    unfold AvlTree.insert RangeMap.insertNode
    simp only [root, LinkTree.root_node]
    cases found : attachPoint range (.node a l x r) [] with
    | none =>
      simp only [found] at searched
      exact ⟨m, by simp [searched], ⟨root, rep, nodup⟩, AgreeOff.refl _ _, fun _ => rfl⟩
    | some ctx =>
      simp only [found] at searched
      obtain ⟨f, fs, rfl, run⟩ := searched
      have plugged := attachPoint_plug found
      rw [Context.plug_nil] at plugged
      obtain ⟨h', hung, rep', nodup', agree⟩ := hangLeaf_represents range mapped f fs (plugged ▸ rep)
        (plugged ▸ nodup) fresh
      have rebalanced := doRebalanceFrom_follows narrow fs (f.root_plug _) rep' nodup'
      simp only [run, RangeMap.createNode, ok_bind, hung]
      -- the memory that is written is that of the tree and of the new node
      have touched : ∀ b, b ∈ (Context.plug (f :: fs) (leaf n range mapped)).addrs →
          b ∈ n :: (LinkTree.node a l x r).addrs := by
        intro b member
        rw [← plugged, List.mem_cons, Context.mem_addrs_plug]
        rcases Context.mem_addrs_plug.mp member with isNew | inContext
        · exact .inl (by simpa [leaf] using isNew)
        · exact .inr (.inr inContext)
      cases unwound : AvlTree.unwind narrow fs (f.plug (leaf n range mapped)) with
      | error e =>
        simp only [unwound] at rebalanced
        simp [rebalanced]
      | ok t' =>
        simp only [unwound] at rebalanced
        obtain ⟨m', done, stores', agree', _⟩ := rebalanced
        refine ⟨m', by simp [done], stores', ?_, by simp⟩
        refine AgreeOff.trans (agree.mono fun b member => touched b ?_) (agree'.mono touched)
        rw [Context.mem_addrs_plug, Context.mem_addrs_cons]
        simp only [List.mem_cons, List.not_mem_nil, or_false] at member
        rcases member with rfl | rfl
        · exact .inl (by simp [leaf])
        · exact .inr (.inl rfl)

end Follow

/-- A completed insertion into a map that stores an ordered tree. -/
theorem insert_stores [LinearOrder K] {narrow : Narrowing} {m m' : RangeMap K V} {t : AvlTree K V} {n : Addr}
    {min max : K} {val : V} {inserted : Bool} (stores : m.Stores t) (ordered : Ordered t.entries)
    (fresh : m.nodes.lookup n = none) (run : m.insert narrow (some n) min max val = .ok (m', inserted)) :
    ∃ t', m'.Stores t' ∧ Ordered t'.entries ∧
      ((inserted = true ∧ ∃ pre post, t.entries = pre ++ post ∧ t'.entries = pre ++ (n, ⟨min, max⟩, val) :: post) ∨
        (inserted = false ∧ m' = m ∧ t' = t ∧ ∃ e ∈ t.entries, ¬ Comparable ⟨min, max⟩ e.2.1)) := by
  have follows := insertNode_follows narrow ⟨min, max⟩ val stores fresh
  cases spec : t.insert narrow n ⟨min, max⟩ val with
  | error e =>
    simp only [spec] at follows
    simp [RangeMap.insert, follows] at run
  | ok result =>
    obtain ⟨t', ok⟩ := result
    simp only [spec] at follows
    obtain ⟨m₁, done, stores', _, unchanged⟩ := follows
    obtain ⟨rfl, rfl⟩ : m₁ = m' ∧ ok = inserted := by simpa [RangeMap.insert, done] using run
    refine ⟨t', stores', ?_⟩
    rcases AvlTree.insert_entries ordered spec with
      ⟨yes, pre, post, split, gained, below, above⟩ | ⟨no, same, apart⟩
    · refine ⟨?_, .inl ⟨yes, pre, post, split, gained⟩⟩
      rw [gained]
      exact ordered_insert (split ▸ ordered) below above
    · exact ⟨same ▸ ordered, .inr ⟨no, unchanged no, same, apart⟩⟩

/-- An insertion whose heights fit is the same under both conversions. -/
theorem insert_fits [LinearOrder K] {m : RangeMap K V} {t : AvlTree K V} {n : Addr} {min max : K} {val : V}
    (stores : m.Stores t) (fit : t.HeightsFit) (fresh : m.nodes.lookup n = none)
    (fits : m.insert exactInt8 (some n) min max val ≠ .error .narrow) :
    ∃ (t' : AvlTree K V) (inserted : Bool) (m' : RangeMap K V),
      t.insert exactInt8 n ⟨min, max⟩ val = .ok (t', inserted) ∧ t'.HeightsFit ∧
      m.insert wrapInt8 (some n) min max val = .ok (m', inserted) ∧ m'.Stores t' ∧ (inserted = false → m' = m) := by
  have exact := insertNode_follows exactInt8 ⟨min, max⟩ val stores fresh
  have wrapped := insertNode_follows wrapInt8 ⟨min, max⟩ val stores fresh
  rcases AvlTree.insert_fit n ⟨min, max⟩ val fit with wide | ⟨t', inserted, run, fit'⟩
  · simp only [wide] at exact
    exact absurd exact fits
  · simp only [AvlTree.insert_agrees (fun x y => wrapInt8_of_exactInt8) run] at wrapped
    obtain ⟨m', done, stores', _, unchanged⟩ := wrapped
    exact ⟨t', inserted, m', run, fit', done, stores', unchanged⟩

/-- Without memory for a node nothing is inserted. -/
theorem insert_without_memory [LinearOrder K] (narrow : Narrowing) (min max : K) (val : V) {m : RangeMap K V}
    {t : AvlTree K V} (stores : m.Stores t) :
    m.insert narrow none min max val = .error .badAlloc ∨
      (m.insert narrow none min max val = .ok (m, false) ∧ ∃ e ∈ t.entries, ¬ Comparable ⟨min, max⟩ e.2.1) := by
  obtain ⟨root, rep, nodup⟩ := stores
  cases t with
  | nil => exact .inl (by simp [RangeMap.insert, RangeMap.insertNode, root, RangeMap.createNode])
  | node a l x r =>
    have searched := doInsertNode_follows ⟨min, max⟩ val none [] rep rfl (size_lt_rounds rep nodup).le
    simp only [RangeMap.insert, RangeMap.insertNode, root, LinkTree.root_node]
    cases found : attachPoint ⟨min, max⟩ (.node a l x r) [] with
    | none =>
      simp only [found] at searched
      exact .inr ⟨by simp [searched], attachPoint_rejects found⟩
    | some ctx =>
      simp only [found] at searched
      obtain ⟨f, fs, rfl, run⟩ := searched
      exact .inl (by simp [run, RangeMap.createNode])

end SmallObject
