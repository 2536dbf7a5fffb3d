import SmallObject.Library.Access
import SmallObject.RangeMap.Destroy

/-! Destruction with a record of every access to a node.

The functions are those of the destruction once more, over a heap that keeps a record.
Forgetting the record gives the functions back, so the walk completes; what it has
recorded then tells which nodes were destroyed and what was touched after that.
-/

set_option autoImplicit false

namespace SmallObject

open Linked Recorded

variable {K V : Type}

/-- A function of the range map over nodes whose accesses are recorded. -/
abbrev RecordedMap (K V β : Type) := Recorded (AvlTreeNode K V) Fault β

namespace RecordedMap

def setLeft (self : Addr) (newLeft : Ptr) : RecordedMap K V Unit := do
  updateCell .null self fun n => { n with left := newLeft }
  match newLeft with
  | none => pure ()
  | some child => updateCell .null child fun c => { c with top := some self }

def setRight (self : Addr) (newRight : Ptr) : RecordedMap K V Unit := do
  updateCell .null self fun n => { n with right := newRight }
  match newRight with
  | none => pure ()
  | some child => updateCell .null child fun c => { c with top := some self }

def hang (isLeft : Bool) (top : Addr) (p : Ptr) : RecordedMap K V Unit :=
  if isLeft then setLeft top p else setRight top p

def leftmost : Nat → Addr → RecordedMap K V Addr
  | 0, _ => throw .endless
  | fuel + 1, it => do
    let n ← readCell .null it
    match n.left with
    | none => pure it
    | some next => leftmost fuel next

def rightmost : Nat → Addr → RecordedMap K V Addr
  | 0, _ => throw .endless
  | fuel + 1, it => do
    let n ← readCell .null it
    match n.right with
    | none => pure it
    | some next => rightmost fuel next

/-- `while (it->right()) ...; while (it->left()) ...`, at most as many rounds as there are nodes. -/
def descend (it : Addr) : RecordedMap K V Addr := do
  let s ← get
  let it ← rightmost (rounds s.heap) it
  leftmost (rounds s.heap) it

def destroyNode (node : Addr) : RecordedMap K V Unit := destroyCell .null node

def doDestroyTree : Nat → Ptr → RecordedMap K V Unit
  | _, none => pure ()
  | 0, some _ => throw .endless
  | fuel + 1, some it => do
    let it ← descend it
    let n ← readCell .null it
    match n.right with
    | some right => doDestroyTree fuel (some right)
    | none =>
      match n.top with
      | none => doDestroyTree fuel n.left
      | some top => do
        let t ← readCell .null top
        hang (t.left == some it) top none
        destroyNode it
        doDestroyTree fuel (some top)

/-- `do_destroy_tree(root_); destroy_node(root_);`, in `clear` and in the destructor. -/
def destroyAll (fuel : Nat) (root : Addr) : RecordedMap K V Unit := do
  doDestroyTree fuel (some root)
  destroyNode root

section Forget

/-! ## Without the record -/

theorem read_reads (node : Addr) :
    Reads (readCell Fault.null node : RecordedMap K V (AvlTreeNode K V)) fun h => deref h (some node) :=
  readCell_reads Fault.null node

/-- The members of a node are assigned one after the other. -/
theorem update_writes (node : Addr) (change : AvlTreeNode K V → AvlTreeNode K V) :
    Writes (updateCell Fault.null node change : RecordedMap K V Unit) fun h =>
      deref h (some node) >>= fun n => .ok (h.insert node (change n)) := by
  refine (updateCell_writes Fault.null node change).congr fun h => ?_
  cases found : h.lookup node with
  | none => simp [deref, found]
  | some n => simp [deref, found]

theorem setLeft_writes (self : Addr) (newLeft : Ptr) :
    Writes (setLeft self newLeft : RecordedMap K V Unit) fun h => AvlTreeNode.setLeft h self newLeft := by
  cases newLeft with
  | none =>
    refine ((update_writes self _).bind writes_pure).congr fun h => ?_
    simp only [AvlTreeNode.setLeft]
    cases deref h (some self) <;> rfl
  | some child =>
    refine ((update_writes self _).bind (update_writes child _)).congr fun h => ?_
    simp only [AvlTreeNode.setLeft]
    cases deref h (some self) <;> rfl

theorem setRight_writes (self : Addr) (newRight : Ptr) :
    Writes (setRight self newRight : RecordedMap K V Unit) fun h => AvlTreeNode.setRight h self newRight := by
  cases newRight with
  | none =>
    refine ((update_writes self _).bind writes_pure).congr fun h => ?_
    simp only [AvlTreeNode.setRight]
    cases deref h (some self) <;> rfl
  | some child =>
    refine ((update_writes self _).bind (update_writes child _)).congr fun h => ?_
    simp only [AvlTreeNode.setRight]
    cases deref h (some self) <;> rfl

theorem hang_writes (isLeft : Bool) (top : Addr) (p : Ptr) :
    Writes (hang isLeft top p : RecordedMap K V Unit) fun h => RangeMap.hang h isLeft top p := by
  cases isLeft with
  | true => exact setLeft_writes top p
  | false => exact setRight_writes top p

theorem rightmost_reads (fuel : Nat) (it : Addr) :
    Reads (rightmost fuel it : RecordedMap K V Addr) fun h => AvlTreeNode.rightmost h fuel it := by
  induction fuel generalizing it with
  | zero => exact fun s => .error _
  | succ fuel ih =>
    refine (read_reads it).bind fun n => ?_
    cases n.right with
    | none => exact reads_pure it
    | some next => exact ih next

theorem leftmost_reads (fuel : Nat) (it : Addr) :
    Reads (leftmost fuel it : RecordedMap K V Addr) fun h => AvlTreeNode.leftmost h fuel it := by
  induction fuel generalizing it with
  | zero => exact fun s => .error _
  | succ fuel ih =>
    refine (read_reads it).bind fun n => ?_
    cases n.left with
    | none => exact reads_pure it
    | some next => exact ih next

theorem descend_reads (it : Addr) :
    Reads (descend it : RecordedMap K V Addr) fun h =>
      AvlTreeNode.rightmost h (rounds h) it >>= fun it => AvlTreeNode.leftmost h (rounds h) it := by
  intro s
  exact (rightmost_reads (rounds s.heap) it).bind (fun it => leftmost_reads (rounds s.heap) it) s

theorem destroyNode_writes (node : Addr) :
    Writes (destroyNode node : RecordedMap K V Unit) fun h => RangeMap.destroyNode h node := by
  refine (destroyCell_writes Fault.null node).congr fun h => ?_
  cases found : h.lookup node with
  | none => simp [RangeMap.destroyNode, deref, found]
  | some n => simp [RangeMap.destroyNode, deref, found]

theorem doDestroyTree_writes (fuel : Nat) (p : Ptr) :
    Writes (doDestroyTree fuel p : RecordedMap K V Unit) fun h => RangeMap.doDestroyTree fuel h p := by
  induction fuel generalizing p with
  | zero =>
    cases p with
    | none => exact writes_pure
    | some it => exact fun s => .error _
  | succ fuel ih =>
    cases p with
    | none => exact writes_pure
    | some it =>
      intro s
      simp only [RangeMap.doDestroyTree]
      rw [← bind_assoc]
      refine Matching.bind (x := descend it s) (descend_reads it s) ?_
      rintro ⟨it, s⟩ _ ⟨rfl, kept⟩
      rw [← kept]
      refine Matching.bind (x := readCell Fault.null it s) (read_reads it s) ?_
      rintro ⟨n, s⟩ _ ⟨rfl, kept⟩
      rw [← kept]
      -- both walks look at one node, and take the same branch
      obtain ⟨top, left, right, x⟩ := n
      cases right with
      | some right => exact ih (some right) s
      | none =>
        cases top with
        | none => exact ih left s
        | some top =>
          refine Matching.bind (x := readCell Fault.null top s) (read_reads top s) ?_
          rintro ⟨t, s⟩ _ ⟨rfl, kept⟩
          rw [← kept]
          exact (hang_writes _ top none).bind ((destroyNode_writes it).bind (ih (some top))) s

theorem destroyAll_writes (fuel : Nat) (root : Addr) :
    Writes (destroyAll fuel root : RecordedMap K V Unit) fun h =>
      RangeMap.doDestroyTree fuel h (some root) >>= fun h => RangeMap.destroyNode h root :=
  (doDestroyTree_writes fuel (some root)).bind (destroyNode_writes root)

end Forget

/-! ## The record -/

section Honesty

theorem setLeft_honest (self : Addr) (newLeft : Ptr) : Honest (setLeft self newLeft : RecordedMap K V Unit) := by
  refine (honest_updateCell _).bind fun _ => ?_
  cases newLeft with
  | none => exact honest_pure ()
  | some child => exact honest_updateCell _

theorem setRight_honest (self : Addr) (newRight : Ptr) : Honest (setRight self newRight : RecordedMap K V Unit) := by
  refine (honest_updateCell _).bind fun _ => ?_
  cases newRight with
  | none => exact honest_pure ()
  | some child => exact honest_updateCell _

theorem hang_honest (isLeft : Bool) (top : Addr) (p : Ptr) : Honest (hang isLeft top p : RecordedMap K V Unit) := by
  cases isLeft with
  | true => exact setLeft_honest top p
  | false => exact setRight_honest top p

theorem rightmost_honest (fuel : Nat) (it : Addr) : Honest (rightmost fuel it : RecordedMap K V Addr) := by
  induction fuel generalizing it with
  | zero => exact honest_throw _
  | succ fuel ih =>
    refine honest_readCell.bind fun n => ?_
    cases n.right with
    | none => exact honest_pure it
    | some next => exact ih next

theorem leftmost_honest (fuel : Nat) (it : Addr) : Honest (leftmost fuel it : RecordedMap K V Addr) := by
  induction fuel generalizing it with
  | zero => exact honest_throw _
  | succ fuel ih =>
    refine honest_readCell.bind fun n => ?_
    cases n.left with
    | none => exact honest_pure it
    | some next => exact ih next

theorem descend_honest (it : Addr) : Honest (descend it : RecordedMap K V Addr) :=
  honest_get.bind fun s => (rightmost_honest (rounds s.heap) it).bind fun it => leftmost_honest (rounds s.heap) it

theorem doDestroyTree_honest (fuel : Nat) (p : Ptr) : Honest (doDestroyTree fuel p : RecordedMap K V Unit) := by
  induction fuel generalizing p with
  | zero =>
    cases p with
    | none => exact honest_pure ()
    | some it => exact honest_throw _
  | succ fuel ih =>
    cases p with
    | none => exact honest_pure ()
    | some it =>
      refine (descend_honest it).bind fun it => honest_readCell.bind fun n => ?_
      obtain ⟨top, left, right, x⟩ := n
      cases right with
      | some right => exact ih (some right)
      | none =>
        cases top with
        | none => exact ih left
        | some top =>
          refine honest_readCell.bind fun t => ?_
          exact (hang_honest _ top none).bind fun _ => honest_destroyCell.bind fun _ => ih (some top)

theorem destroyAll_honest (fuel : Nat) (root : Addr) : Honest (destroyAll fuel root : RecordedMap K V Unit) :=
  (doDestroyTree_honest fuel (some root)).bind fun _ => honest_destroyCell

end Honesty

/-! ## Every node once -/

/-- A walk that has ended does not use the rounds it has left. -/
theorem doDestroyTree_mono {fuel more : Nat} {h h' : Nodes K V} {p : Ptr} (least : fuel ≤ more)
    (run : RangeMap.doDestroyTree fuel h p = .ok h') : RangeMap.doDestroyTree more h p = .ok h' := by
  induction fuel generalizing more h p with
  | zero =>
    cases p with
    | none => cases more <;> exact run
    | some it => cases run
  | succ fuel ih =>
    obtain ⟨more, rfl⟩ : ∃ k, more = k + 1 := ⟨more - 1, by omega⟩
    have least : fuel ≤ more := by omega
    cases p with
    | none => exact run
    | some it =>
      simp only [RangeMap.doDestroyTree] at run ⊢
      obtain ⟨last, toLast, run⟩ := bind_eq_ok run
      obtain ⟨leaf, toLeaf, run⟩ := bind_eq_ok run
      obtain ⟨n, found, run⟩ := bind_eq_ok run
      simp only [toLast, toLeaf, found, ok_bind]
      obtain ⟨top, left, right, x⟩ := n
      cases right with
      | some right => exact ih least run
      | none =>
        cases top with
        | none => exact ih least run
        | some top =>
          obtain ⟨t, foundTop, run⟩ := bind_eq_ok run
          obtain ⟨h₁, hung, run⟩ := bind_eq_ok run
          obtain ⟨h₂, destroyed, run⟩ := bind_eq_ok run
          simp only [foundTop, hung, destroyed, ok_bind]
          exact ih least run

/-- So two walks that end make the same of the nodes, however many rounds they were given. -/
theorem doDestroyTree_unique {fuel fuel' : Nat} {h h' h'' : Nodes K V} {p : Ptr}
    (run : RangeMap.doDestroyTree fuel h p = .ok h') (run' : RangeMap.doDestroyTree fuel' h p = .ok h'') :
    h' = h'' :=
  Except.ok.inj ((doDestroyTree_mono (Nat.le_max_left fuel fuel') run).symm.trans
    (doDestroyTree_mono (Nat.le_max_right fuel fuel') run'))

/-- From a tree whose links are consistent, of any shape, the destruction ends within two rounds
a node. It destroys the nodes of the tree, each of them once, touches none of them after that,
and changes no other memory. -/
theorem destroyAll_once {m : RangeMap K V} {t : AvlTree K V} {root : Addr} {fuel : Nat} (stores : m.Stores t)
    (nonempty : m.root = some root) (enough : 2 * t.size < fuel) :
    ∃ h' log, destroyAll fuel root ⟨m.nodes, []⟩ = .ok ((), ⟨h', log⟩) ∧ (destroyed log).Perm t.addrs ∧
      (∀ a before after, log = before ++ .destroy a :: after → ∀ e ∈ after, e.addr ≠ a) ∧
      AgreeOff t.addrs m.nodes h' ∧ m.clear = .ok { nodes := h', root := none } := by
  have present : t.root = some root := stores.root.symm.trans nonempty
  obtain ⟨h₁, walked, a, x, isRoot, last, others, agree⟩ :=
    doDestroyTree_follows [] fuel present stores.rep stores.nodup enough
  obtain rfl : a = root := Option.some.inj (isRoot.symm.trans present)
  have member : a ∈ t.addrs := LinkTree.root_mem_addrs present
  have finished : RangeMap.destroyNode h₁ a = .ok (h₁.erase a) := by
    simp [RangeMap.destroyNode, deref_of_lookup last]
  -- the walk has destroyed all nodes but the root, which comes last
  have gone : ∀ b ∈ t.addrs, (h₁.erase a).lookup b = none := by
    intro b inTree
    by_cases same : b = a
    · rw [same]
      exact AList.lookup_erase _ _
    · rw [AList.lookup_erase_ne same]
      exact others b inTree same
  obtain ⟨log, run⟩ : ∃ log, destroyAll fuel a ⟨m.nodes, []⟩ = .ok ((), ⟨h₁.erase a, log⟩) := by
    have mirrored := destroyAll_writes fuel a ⟨m.nodes, []⟩
    simp only [walked, ok_bind, finished] at mirrored
    obtain ⟨⟨_, h', log⟩, run, rfl⟩ := mirrored.completes
    exact ⟨log, run⟩
  obtain ⟨_, rfl, recorded⟩ := destroyAll_honest fuel a _ _ _ run
  have performs : Performs m.nodes log (h₁.erase a) := recorded
  have agreeOff : AgreeOff t.addrs m.nodes (h₁.erase a) := agree.erase member
  refine ⟨h₁.erase a, _, run, ?_, fun b before after same => ?_, agreeOff, ?_⟩
  · refine (List.perm_ext_iff_of_nodup performs.destroyed_nodup stores.nodup).mpr fun b => ?_
    apply performs.mem_destroyed.trans
    constructor
    · rintro ⟨⟨cell, found⟩, absent⟩
      by_contra outside
      have kept := agreeOff b outside
      simp [found, absent] at kept
    · intro inTree
      exact ⟨stores.rep.allocated b inTree, gone b inTree⟩
  · rw [same] at performs
    exact performs.untouched_after
  -- `clear` has enough rounds, and a walk does not depend on how many it has left
  · have within : 2 * t.size < 2 * rounds m.nodes := by
      have := size_lt_rounds stores.rep stores.nodup
      omega
    obtain ⟨h₂, walked', _⟩ := doDestroyTree_follows [] (2 * rounds m.nodes) present stores.rep stores.nodup within
    obtain rfl : h₁ = h₂ := doDestroyTree_unique walked walked'
    simp [RangeMap.clear, nonempty, walked', finished]

/-- The last node is below a left child, to the right of it. -/
theorem destroyAll_once_crooked : ∃ (nodes h' : Nodes Nat Nat) (log : List Access),
    destroyAll 7 10 ⟨nodes, []⟩ = .ok ((), ⟨h', log⟩) ∧ (destroyed log).Perm [11, 12, 10] ∧
      ∀ before after, log = before ++ .destroy 12 :: after → ∀ e ∈ after, e.addr ≠ 12 := by
  let nodes : Nodes Nat Nat := ((AList.singleton 10 ⟨none, some 11, none, ⟨0, ⟨4, 5⟩, 2⟩⟩).insert 11
    ⟨some 10, none, some 12, ⟨0, ⟨0, 1⟩, 0⟩⟩).insert 12 ⟨some 11, none, none, ⟨0, ⟨2, 3⟩, 1⟩⟩
  let t : AvlTree Nat Nat := .node 10 (.node 11 .nil ⟨0, ⟨0, 1⟩, 0⟩ (.node 12 .nil ⟨0, ⟨2, 3⟩, 1⟩ .nil))
    ⟨0, ⟨4, 5⟩, 2⟩ .nil
  have stores : (⟨nodes, some 10⟩ : RangeMap Nat Nat).Stores t := by
    refine ⟨rfl, ?_, by decide⟩
    simp [Represents, nodes, t]
    decide
  obtain ⟨h', log, run, once, after, _⟩ := destroyAll_once stores rfl (show 2 * t.size < 7 by decide)
  exact ⟨nodes, h', log, run, once, after 12⟩

end RecordedMap

end SmallObject
