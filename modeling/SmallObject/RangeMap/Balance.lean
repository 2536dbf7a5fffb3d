import SmallObject.RangeMap.BasicRangeMap

/-! Rotation and balancing on trees, and the pointer code as their implementation.

The tree functions say which tree the linked nodes form after each step of the
pointer code, for any narrowing to `int8_t`; where the pointer code faults they
fault alike.
-/

set_option autoImplicit false

namespace SmallObject

open Linked

variable {K V : Type}

abbrev AvlTree (K V : Type) := LinkTree (NodeData K V)

namespace AvlTree

def height : AvlTree K V → Int
  | .nil => 0
  | .node _ _ x _ => x.height

@[simp] theorem height_nil : height (.nil : AvlTree K V) = 0 := rfl
@[simp] theorem height_node (a : Addr) (l r : AvlTree K V) (x : NodeData K V) :
    height (.node a l x r) = x.height := rfl

def fixHeight (narrow : Narrowing) : AvlTree K V → Except Fault (AvlTree K V)
  | .nil => .error .null
  | .node a l x r => do
    let fixed ← narrow ((if height l > height r then height l else height r) + 1)
    .ok (.node a l { x with height := fixed } r)

def factor (narrow : Narrowing) : AvlTree K V → Except Fault Int
  | .nil => .ok 0
  | .node _ l _ r => narrow (height l - height r)

def rotateRight (narrow : Narrowing) : AvlTree K V → Except Fault (AvlTree K V)
  | .node a l x (.node b m y r) => do
    let lowered ← fixHeight narrow (.node a l x m)
    fixHeight narrow (.node b lowered y r)
  | _ => .error .null

def rotateLeft (narrow : Narrowing) : AvlTree K V → Except Fault (AvlTree K V)
  | .node a (.node b l y m) x r => do
    let lowered ← fixHeight narrow (.node a m x r)
    fixHeight narrow (.node b l y lowered)
  | _ => .error .null

/-- What `balance` does once the height is fixed and the factor is known. -/
def rotate (narrow : Narrowing) (f : Int) : AvlTree K V → Except Fault (AvlTree K V)
  | .nil => .error .null
  | .node a l x r =>
    if f = 2 then do
      let inner ← factor narrow r
      if inner < 0 then do
        let lifted ← rotateRight narrow r
        rotateLeft narrow (.node a l x lifted)
      else rotateLeft narrow (.node a l x r)
    else if f = -2 then do
      let inner ← factor narrow l
      if inner > 0 then do
        let lifted ← rotateLeft narrow l
        rotateRight narrow (.node a lifted x r)
      else rotateRight narrow (.node a l x r)
    else .ok (.node a l x r)

def balance (narrow : Narrowing) (t : AvlTree K V) : Except Fault (AvlTree K V) := do
  let fixed ← fixHeight narrow t
  let f ← factor narrow fixed
  rotate narrow f fixed

/-- Balance every node from a position up to the root. -/
def unwind (narrow : Narrowing) : Context (NodeData K V) → AvlTree K V → Except Fault (AvlTree K V)
  | [], t => balance narrow t
  | f :: fs, t => do
    let balanced ← balance narrow t
    unwind narrow fs (f.plug balanced)

end AvlTree

/-! ## The links after a link is set -/

section Links

variable {h : Nodes K V} {a : Addr} {top old outer : Ptr} {x : NodeData K V} {l r : AvlTree K V}

/-- The second half of `set_left` and of `set_right`: a child, if there is one, gets its parent. -/
def adopt (h : Nodes K V) (self : Addr) : Ptr → Except Fault (Nodes K V)
  | none => .ok h
  | some child => do
    let c ← deref h (some child)
    .ok (h.insert child { c with top := some self })

theorem setLeft_eq (h : Nodes K V) (self : Addr) (p : Ptr) : AvlTreeNode.setLeft h self p =
    (deref h (some self) >>= fun n => adopt (h.insert self { n with left := p }) self p) := by
  cases p <;> rfl

theorem setRight_eq (h : Nodes K V) (self : Addr) (p : Ptr) : AvlTreeNode.setRight h self p =
    (deref h (some self) >>= fun n => adopt (h.insert self { n with right := p }) self p) := by
  cases p <;> rfl

theorem adopt_represents {t : AvlTree K V} (rep : Represents h outer t) (nodup : t.addrs.Nodup) (a : Addr) :
    ∃ h', adopt h a t.root = .ok h' ∧ Represents h' (some a) t ∧ AgreeOff t.root.toList h h' := by
  cases t with
  | nil => exact ⟨h, rfl, trivial, AgreeOff.refl _ _⟩
  | node c l y r =>
    refine ⟨h.insert c ⟨some a, l.root, r.root, y⟩, ?_, ?_, (AgreeOff.refl _ _).insert (by simp) _⟩
    · simp [adopt, deref_of_lookup rep.1]
    · exact rep.retop nodup

theorem makeRoot_represents {t : AvlTree K V} {b : Addr} (rep : Represents h outer t) (nodup : t.addrs.Nodup)
    (root : t.root = some b) :
    ∃ h', AvlTreeNode.makeRoot h b = .ok h' ∧ Represents h' none t ∧ AgreeOff t.root.toList h h' := by
  cases t with
  | nil => simp at root
  | node c l y r =>
    obtain rfl : c = b := by simpa using root
    refine ⟨h.insert c ⟨none, l.root, r.root, y⟩, ?_, rep.retop nodup, (AgreeOff.refl _ _).insert (by simp) _⟩
    simp [AvlTreeNode.makeRoot, deref_of_lookup rep.1]

/-- The parent is written first, and then the child; the other child notices neither. -/
theorem setLeft_represents (cell : h.lookup a = some ⟨top, old, r.root, x⟩)
    (left : Represents h outer l) (right : Represents h (some a) r)
    (nodup : (LinkTree.node a l x r).addrs.Nodup) :
    ∃ h', AvlTreeNode.setLeft h a l.root = .ok h' ∧ Represents h' top (.node a l x r) ∧
      AgreeOff (a :: l.root.toList) h h' := by
  obtain ⟨nodupLeft, _, notLeft, notRight, apart⟩ := LinkTree.nodup_node.mp nodup
  have written : AgreeOff [a] h (h.insert a ⟨top, l.root, r.root, x⟩) :=
    (AgreeOff.refl _ _).insert (by simp) _
  have away : ∀ t : AvlTree K V, a ∉ t.addrs → ∀ b ∈ t.addrs, b ∉ [a] :=
    fun t off b member here => off (List.mem_singleton.mp here ▸ member)
  obtain ⟨h', adopted, left', agree⟩ := adopt_represents (left.frame written (away l notLeft)) nodupLeft a
  have offRoot : ∀ b, b ∉ l.addrs → b ∉ l.root.toList :=
    fun b off member => off (LinkTree.mem_of_root_toList member)
  refine ⟨h', ?_, ⟨?_, left', ?_⟩, (written.mono (by simp)).trans (agree.mono (by simp))⟩
  · simp [setLeft_eq, deref_of_lookup cell, adopted]
  · rw [agree a (offRoot a notLeft), AList.lookup_insert]
  · exact (right.frame written (away r notRight)).frame agree
      fun b member => offRoot b (fun inLeft => apart inLeft member)

theorem setRight_represents (cell : h.lookup a = some ⟨top, l.root, old, x⟩)
    (left : Represents h (some a) l) (right : Represents h outer r)
    (nodup : (LinkTree.node a l x r).addrs.Nodup) :
    ∃ h', AvlTreeNode.setRight h a r.root = .ok h' ∧ Represents h' top (.node a l x r) ∧
      AgreeOff (a :: r.root.toList) h h' := by
  obtain ⟨_, nodupRight, notLeft, notRight, apart⟩ := LinkTree.nodup_node.mp nodup
  have written : AgreeOff [a] h (h.insert a ⟨top, l.root, r.root, x⟩) :=
    (AgreeOff.refl _ _).insert (by simp) _
  have away : ∀ t : AvlTree K V, a ∉ t.addrs → ∀ b ∈ t.addrs, b ∉ [a] :=
    fun t off b member here => off (List.mem_singleton.mp here ▸ member)
  obtain ⟨h', adopted, right', agree⟩ := adopt_represents (right.frame written (away r notRight)) nodupRight a
  have offRoot : ∀ b, b ∉ r.addrs → b ∉ r.root.toList :=
    fun b off member => off (LinkTree.mem_of_root_toList member)
  refine ⟨h', ?_, ⟨?_, ?_, right'⟩, (written.mono (by simp)).trans (agree.mono (by simp))⟩
  · simp [setRight_eq, deref_of_lookup cell, adopted]
  · rw [agree a (offRoot a notRight), AList.lookup_insert]
  · exact (left.frame written (away l notLeft)).frame agree
      fun b member => offRoot b (fun inRight => apart member inRight)

/-- Whatever hung at a position, the subtree that is set there takes its place. -/
theorem hang_represents {f : Frame (NodeData K V)} {fs : Context (NodeData K V)}
    {s : AvlTree K V} {hole : Ptr} (rep : Context.Represents h top (f :: fs) hole)
    (stored : Represents h outer s) (nodup : (Context.plug (f :: fs) s).addrs.Nodup) :
    ∃ h', RangeMap.hang h (f.side == .left) f.addr s.root = .ok h' ∧
      Represents h' top (Context.plug (f :: fs) s) ∧ AgreeOff (f.addr :: s.root.toList) h h' := by
  have nodupOutside : (Context.plug fs (f.plug s)).addrs.Nodup := nodup
  have nodupHere := Context.nodup_inner nodupOutside
  have apart := Context.apart_of_nodup nodupOutside
  obtain ⟨side, a, x, sib⟩ := f
  have away : ∀ b ∈ Context.addrs fs, b ∉ a :: s.root.toList := by
    intro b inContext member
    refine apart b inContext ?_
    simp only [List.mem_cons, Option.mem_toList] at member
    rcases member with rfl | isRoot
    · cases side <;> simp [Frame.plug]
    · have := LinkTree.root_mem_addrs isRoot
      cases side <;> simp [Frame.plug, this]
  -- the writes are outside of the context, which stays as it is
  cases side with
  | left =>
    obtain ⟨here, sibling, outside⟩ := rep
    obtain ⟨h', set, rep', agree⟩ := setLeft_represents here stored sibling nodupHere
    have whole : Represents h' top (Context.plug fs (.node a s x sib)) :=
      Context.represents_plug.mpr ⟨outside.frame agree away, rep'⟩
    exact ⟨h', set, whole, agree⟩
  | right =>
    obtain ⟨here, sibling, outside⟩ := rep
    obtain ⟨h', set, rep', agree⟩ := setRight_represents here sibling stored nodupHere
    have whole : Represents h' top (Context.plug fs (.node a sib x s)) :=
      Context.represents_plug.mpr ⟨outside.frame agree away, rep'⟩
    exact ⟨h', set, whole, agree⟩

/-- What was rebuilt at a position is hung back there. -/
theorem rehang {h' : Nodes K V} {f : Frame (NodeData K V)} {fs : Context (NodeData K V)} {t t' : AvlTree K V}
    (rep : Represents h top (Context.plug (f :: fs) t)) (nodup : (Context.plug (f :: fs) t).addrs.Nodup)
    (rebuilt : Represents h' outer t') (agree : AgreeOff t.addrs h h') (same : t'.addrs = t.addrs) :
    ∃ h'', RangeMap.hang h' (f.side == .left) f.addr t'.root = .ok h'' ∧
      Represents h'' top (Context.plug (f :: fs) t') ∧ AgreeOff (Context.plug (f :: fs) t).addrs h h'' ∧
      (Context.plug (f :: fs) t').addrs = (Context.plug (f :: fs) t).addrs := by
  have flat : (Context.plug (f :: fs) t').addrs = (Context.plug (f :: fs) t).addrs := by
    rw [Context.addrs_plug, Context.addrs_plug, same]
  obtain ⟨context, _⟩ := Context.represents_plug.mp rep
  obtain ⟨h'', set, rep', agree'⟩ := hang_represents
    (context.frame agree (Context.apart_of_nodup nodup)) rebuilt (flat ▸ nodup)
  refine ⟨h'', set, rep', ?_, flat⟩
  apply AgreeOff.trans (agree.mono fun e member => Context.mem_addrs_plug.mpr (.inl member))
  apply agree'.mono
  intro e member
  rw [← flat, Context.mem_addrs_plug]
  rcases List.mem_cons.mp member with rfl | isRoot
  · exact .inr (Context.mem_addrs_cons.mpr (.inl rfl))
  · exact .inl (LinkTree.mem_of_root_toList isRoot)

end Links

/-! ## The pointer code follows the tree functions -/

/-- A pointer computation that rebuilds the nodes of a tree, and the tree function it follows. -/
def Follows (h : Nodes K V) (t : AvlTree K V) (run : Except Fault (Nodes K V × Addr))
    (spec : Except Fault (AvlTree K V)) : Prop :=
  match spec with
  | .error e => run = .error e
  | .ok t' => ∃ h' a, run = .ok (h', a) ∧ t'.root = some a ∧ (∃ top, Represents h' top t') ∧
      AgreeOff t.addrs h h' ∧ t'.addrs = t.addrs

section Follow

variable (narrow : Narrowing) {h : Nodes K V} {top : Ptr}

theorem height_follows {t : AvlTree K V} (rep : Represents h top t) :
    AvlTreeNode.height h t.root = .ok t.height := by
  cases t with
  | nil => rfl
  | node a l x r => simp [AvlTreeNode.height, AvlTree.height, deref_of_lookup rep.1]

theorem bFactor_follows {t : AvlTree K V} (rep : Represents h top t) :
    AvlTreeNode.bFactor narrow h t.root = t.factor narrow := by
  cases t with
  | nil => rfl
  | node a l x r =>
    obtain ⟨here, left, right⟩ := rep
    simp [AvlTreeNode.bFactor, AvlTreeNode.factor, AvlTree.factor, deref_of_lookup here,
      height_follows left, height_follows right]

theorem fixHeight_follows {a : Addr} {l r : AvlTree K V} {x : NodeData K V}
    (rep : Represents h top (.node a l x r)) (nodup : (LinkTree.node a l x r).addrs.Nodup) :
    match AvlTree.fixHeight narrow (.node a l x r) with
    | .error e => AvlTreeNode.fixHeight narrow h a = .error e
    | .ok t => ∃ h', AvlTreeNode.fixHeight narrow h a = .ok h' ∧ Represents h' top t ∧
        AgreeOff [a] h h' ∧ ∃ fixed, t = .node a l { x with height := fixed } r := by
  obtain ⟨here, left, right⟩ := rep
  obtain ⟨_, _, notLeft, notRight, _⟩ := LinkTree.nodup_node.mp nodup
  have run : AvlTreeNode.fixHeight narrow h a =
      (narrow ((if l.height > r.height then l.height else r.height) + 1) >>= fun fixed =>
        .ok (h.insert a ⟨top, l.root, r.root, { x with height := fixed }⟩)) := by
    simp [AvlTreeNode.fixHeight, deref_of_lookup here, height_follows left, height_follows right]
  rw [run]
  simp only [AvlTree.fixHeight]
  cases narrow ((if l.height > r.height then l.height else r.height) + 1) with
  | error e => simp
  | ok fixed =>
    refine ⟨_, rfl, ⟨by simp, left.transport ?_, right.transport ?_⟩, ?_, fixed, rfl⟩
    · exact fun b member => AList.lookup_insert_ne (fun same => notLeft (same ▸ member))
    · exact fun b member => AList.lookup_insert_ne (fun same => notRight (same ▸ member))
    · exact (AgreeOff.refl _ _).insert (by simp) _

/-- A computation that starts after some links of the same tree have been set. -/
theorem Follows.after {h h' : Nodes K V} {t t' : AvlTree K V}
    {run : Except Fault (Nodes K V × Addr)} {spec : Except Fault (AvlTree K V)}
    (follows : Follows h' t' run spec) (agree : AgreeOff t.addrs h h') (same : t'.addrs = t.addrs) :
    Follows h t run spec := by
  cases spec with
  | error e => exact follows
  | ok s =>
    obtain ⟨h'', a, done, root, rep, agree', addrs⟩ := follows
    exact ⟨h'', a, done, root, rep, agree.trans (same ▸ agree'), addrs.trans same⟩

/-- A height update as the last step of a rotation. -/
theorem fixLast_follows {a : Addr} {l r : AvlTree K V} {x : NodeData K V}
    (rep : Represents h top (.node a l x r)) (nodup : (LinkTree.node a l x r).addrs.Nodup) :
    Follows h (.node a l x r) (AvlTreeNode.fixHeight narrow h a >>= fun h' => .ok (h', a))
      (AvlTree.fixHeight narrow (.node a l x r)) := by
  have last := fixHeight_follows narrow rep nodup
  cases spec : AvlTree.fixHeight narrow (.node a l x r) with
  | error e =>
    simp only [spec] at last
    simp [Follows, last]
  | ok t =>
    simp only [spec] at last
    obtain ⟨h', run, rep', agree, fixed, rfl⟩ := last
    exact ⟨h', a, by simp [run], rfl, ⟨top, rep'⟩, agree.mono (by simp), by simp⟩

/-- The two height updates at the end of a rotation, of a child and then of its parent. -/
theorem fixPair_follows (f : Frame (NodeData K V)) {a : Addr} {l r : AvlTree K V} {x : NodeData K V}
    (rep : Represents h top (f.plug (.node a l x r))) (nodup : (f.plug (.node a l x r)).addrs.Nodup) :
    Follows h (f.plug (.node a l x r))
      (AvlTreeNode.fixHeight narrow h a >>= fun h' => AvlTreeNode.fixHeight narrow h' f.addr >>= fun h'' =>
        .ok (h'', f.addr))
      (AvlTree.fixHeight narrow (.node a l x r) >>= fun lowered => AvlTree.fixHeight narrow (f.plug lowered)) := by
  have whole : Represents h top (Context.plug [f] (.node a l x r)) := rep
  have nodupWhole : (Context.plug [f] (.node a l x r)).addrs.Nodup := nodup
  obtain ⟨context, inner⟩ := Context.represents_plug.mp whole
  have first := fixHeight_follows narrow inner (Context.nodup_inner nodupWhole)
  cases lower : AvlTree.fixHeight narrow (.node a l x r) with
  | error e =>
    simp only [lower] at first
    simp [Follows, first]
  | ok t =>
    simp only [lower] at first
    obtain ⟨h₁, run, inner₁, agree, fixed, rfl⟩ := first
    -- the parent is stored as before, around the child with its new height
    have offContext : ∀ b ∈ Context.addrs [f], b ∉ [a] := by
      intro b inContext member
      apply Context.apart_of_nodup nodupWhole b inContext
      simp [List.mem_singleton.mp member]
    have rep₁ : Represents h₁ top (Context.plug [f] (.node a l { x with height := fixed } r)) :=
      Context.represents_plug.mpr ⟨context.frame agree offContext, inner₁⟩
    have flat : (f.plug (.node a l { x with height := fixed } r)).addrs = (f.plug (.node a l x r)).addrs := by
      obtain ⟨⟨⟩, _, _, _⟩ := f <;> simp [Frame.plug]
    have inside : ∀ b ∈ [a], b ∈ (f.plug (.node a l x r)).addrs := by
      obtain ⟨⟨⟩, _, _, _⟩ := f <;> simp [Frame.plug]
    simp only [ok_bind, run]
    apply Follows.after _ (agree.mono inside) flat
    obtain ⟨⟨⟩, b, y, s⟩ := f
    · exact fixLast_follows narrow rep₁ (flat ▸ nodup)
    · exact fixLast_follows narrow rep₁ (flat ▸ nodup)

theorem rotateRight_follows {a : Addr} {l r : AvlTree K V} {x : NodeData K V}
    (rep : Represents h top (.node a l x r)) (nodup : (LinkTree.node a l x r).addrs.Nodup) :
    Follows h (.node a l x r) (AvlTreeNode.rotateRight narrow h a)
      (AvlTree.rotateRight narrow (.node a l x r)) := by
  cases r with
  | nil => simp [Follows, AvlTree.rotateRight, AvlTreeNode.rotateRight, deref_of_lookup rep.1]
  | node b m y r =>
    obtain ⟨here, left, lifted, middle, right⟩ := rep
    have flat : (LinkTree.node b (.node a l x m) y r).addrs = (LinkTree.node a l x (.node b m y r)).addrs := by
      simp
    have nodup' : (LinkTree.node b (.node a l x m) y r).addrs.Nodup := flat ▸ nodup
    obtain ⟨nodupLow, _, offLow, _, apart⟩ := LinkTree.nodup_node.mp nodup'
    -- the first link that is set is inside of what becomes the left child
    have inLow : ∀ c ∈ a :: m.root.toList, c ∈ (LinkTree.node a l x m).addrs := by
      intro c member
      rcases List.mem_cons.mp member with rfl | inMiddle
      · simp
      · simp [LinkTree.mem_of_root_toList inMiddle]
    obtain ⟨h₁, set₁, rep₁, agree₁⟩ := setRight_represents here left middle nodupLow
    obtain ⟨h₂, set₂, rep₂, agree₂⟩ := setLeft_represents
      ((agree₁ b (fun member => offLow (inLow b member))).trans lifted) rep₁
      (right.frame agree₁ (fun c member inside => apart (inLow c inside) member)) nodup'
    have run : AvlTreeNode.rotateRight narrow h a =
        (AvlTreeNode.fixHeight narrow h₂ a >>= fun h' => AvlTreeNode.fixHeight narrow h' b >>= fun h'' =>
          .ok (h'', b)) := by
      simp only [LinkTree.root_node] at set₂
      simp [AvlTreeNode.rotateRight, deref_of_lookup here, deref_of_lookup lifted, set₁, set₂]
    rw [run]
    apply (fixPair_follows narrow ⟨.left, b, y, r⟩ rep₂ nodup').after _ flat
    apply (agree₁.mono fun c member => ?_).trans (agree₂.mono (by simp))
    rw [← flat, LinkTree.addrs_node]
    exact List.mem_append_left _ (inLow c member)

theorem rotateLeft_follows {a : Addr} {l r : AvlTree K V} {x : NodeData K V}
    (rep : Represents h top (.node a l x r)) (nodup : (LinkTree.node a l x r).addrs.Nodup) :
    Follows h (.node a l x r) (AvlTreeNode.rotateLeft narrow h a)
      (AvlTree.rotateLeft narrow (.node a l x r)) := by
  cases l with
  | nil => simp [Follows, AvlTree.rotateLeft, AvlTreeNode.rotateLeft, deref_of_lookup rep.1]
  | node b l y m =>
    obtain ⟨here, ⟨lifted, left, middle⟩, right⟩ := rep
    have flat : (LinkTree.node b l y (.node a m x r)).addrs = (LinkTree.node a (.node b l y m) x r).addrs := by
      simp
    have nodup' : (LinkTree.node b l y (.node a m x r)).addrs.Nodup := flat ▸ nodup
    obtain ⟨_, nodupLow, _, offLow, apart⟩ := LinkTree.nodup_node.mp nodup'
    -- the first link that is set is inside of what becomes the right child
    have inLow : ∀ c ∈ a :: m.root.toList, c ∈ (LinkTree.node a m x r).addrs := by
      intro c member
      rcases List.mem_cons.mp member with rfl | inMiddle
      · simp
      · simp [LinkTree.mem_of_root_toList inMiddle]
    obtain ⟨h₁, set₁, rep₁, agree₁⟩ := setLeft_represents here middle right nodupLow
    obtain ⟨h₂, set₂, rep₂, agree₂⟩ := setRight_represents
      ((agree₁ b (fun member => offLow (inLow b member))).trans lifted)
      (left.frame agree₁ (fun c member inside => apart member (inLow c inside))) rep₁ nodup'
    have run : AvlTreeNode.rotateLeft narrow h a =
        (AvlTreeNode.fixHeight narrow h₂ a >>= fun h' => AvlTreeNode.fixHeight narrow h' b >>= fun h'' =>
          .ok (h'', b)) := by
      simp only [LinkTree.root_node] at set₂
      simp [AvlTreeNode.rotateLeft, deref_of_lookup here, deref_of_lookup lifted, set₁, set₂]
    rw [run]
    apply (fixPair_follows narrow ⟨.right, b, y, l⟩ rep₂ nodup').after _ flat
    apply (agree₁.mono fun c member => ?_).trans (agree₂.mono (by simp))
    rw [← flat, LinkTree.addrs_node]
    exact List.mem_append_right _ (List.mem_cons_of_mem _ (inLow c member))

/-- A rotation in memory and its function on trees. -/
def Rotates (turn : Nodes K V → Addr → Except Fault (Nodes K V × Addr))
    (spec : AvlTree K V → Except Fault (AvlTree K V)) : Prop :=
  ∀ {h : Nodes K V} {top : Ptr} {a : Addr} {l r : AvlTree K V} {x : NodeData K V},
    Represents h top (.node a l x r) → (LinkTree.node a l x r).addrs.Nodup →
      Follows h (.node a l x r) (turn h a) (spec (.node a l x r))

/-- The double rotations: a child is rotated and hung back, and then its parent is rotated. -/
theorem double_follows (f : Frame (NodeData K V)) {t : AvlTree K V}
    {turn turn' : Nodes K V → Addr → Except Fault (Nodes K V × Addr)}
    {spec spec' : AvlTree K V → Except Fault (AvlTree K V)} (first : Rotates turn spec)
    (second : Rotates turn' spec') (missing : spec .nil = .error .null) (rep : Represents h top (f.plug t))
    (nodup : (f.plug t).addrs.Nodup) :
    Follows h (f.plug t)
      (nonNull t.root >>= fun child => turn h child >>= fun lifted =>
        RangeMap.hang lifted.1 (f.side == .left) f.addr (some lifted.2) >>= fun h => turn' h f.addr)
      (spec t >>= fun lifted => spec' (f.plug lifted)) := by
  have whole : Represents h top (Context.plug [f] t) := rep
  have nodupWhole : (Context.plug [f] t).addrs.Nodup := nodup
  cases t with
  | nil => simp [Follows, missing]
  | node b m y r =>
    have inner := first (Context.represents_plug.mp whole).2 (Context.nodup_inner nodupWhole)
    cases rotated : spec (.node b m y r) with
    | error e =>
      simp only [Follows, rotated] at inner
      simp [Follows, inner]
    | ok lifted =>
      simp only [Follows, rotated] at inner
      obtain ⟨h₁, c, run, root, ⟨_, rep₁⟩, agree, same⟩ := inner
      -- the child that has been rotated is hung back where it was
      obtain ⟨h₂, set, rep₂, agree₂, flat⟩ := rehang whole nodupWhole rep₁ agree same
      rw [root] at set
      simp only [LinkTree.root_node, nonNull_some, ok_bind, run, set]
      apply Follows.after _ agree₂ flat
      obtain ⟨⟨⟩, a, x, s⟩ := f
      · exact second rep₂ (flat ▸ nodupWhole)
      · exact second rep₂ (flat ▸ nodupWhole)

/-- `balance` on a stored tree: the height is fixed, and one of the four rotations follows it. -/
theorem balanceNode_follows {a : Addr} {l r : AvlTree K V} {x : NodeData K V}
    (rep : Represents h top (.node a l x r)) (nodup : (LinkTree.node a l x r).addrs.Nodup) :
    Follows h (.node a l x r) (AvlTreeNode.balance narrow h a)
      (AvlTree.balance narrow (.node a l x r)) := by
  have fix := fixHeight_follows narrow rep nodup
  unfold AvlTree.balance AvlTreeNode.balance
  cases spec : AvlTree.fixHeight narrow (.node a l x r) with
  | error e =>
    simp only [spec] at fix
    simp [Follows, fix]
  | ok t =>
    simp only [spec] at fix
    obtain ⟨h₁, run, rep₁, agree, fixed, rfl⟩ := fix
    have flat : (LinkTree.node a l { x with height := fixed } r).addrs = (LinkTree.node a l x r).addrs := by simp
    have nodup₁ := flat ▸ nodup
    suffices Follows h₁ (.node a l { x with height := fixed } r) _ _ from this.after (agree.mono (by simp)) flat
    have factor := bFactor_follows narrow rep₁
    rw [LinkTree.root_node] at factor
    simp only [ok_bind, run, factor]
    cases AvlTree.factor narrow (.node a l { x with height := fixed } r) with
    | error e => simp [Follows]
    | ok f =>
      have factorLeft := bFactor_follows narrow rep₁.2.1
      have factorRight := bFactor_follows narrow rep₁.2.2
      simp only [ok_bind, AvlTree.rotate, deref_of_lookup rep₁.1, factorLeft, factorRight]
      -- the lighter child decides whether there are two rotations
      by_cases leftHeavy : f = 2
      · simp only [leftHeavy, if_true]
        cases AvlTree.factor narrow r with
        | error e => simp [Follows]
        | ok inner =>
          simp only [ok_bind]
          split
          · exact double_follows ⟨.right, a, { x with height := fixed }, l⟩ (rotateRight_follows narrow)
              (rotateLeft_follows narrow) rfl rep₁ nodup₁
          · exact rotateLeft_follows narrow rep₁ nodup₁
      · by_cases rightHeavy : f = -2
        · simp only [rightHeavy, if_true, if_neg (show ¬ (-2 : Int) = 2 by decide)]
          cases AvlTree.factor narrow l with
          | error e => simp [Follows]
          | ok inner =>
            simp only [ok_bind]
            split
            · exact double_follows ⟨.left, a, { x with height := fixed }, r⟩ (rotateLeft_follows narrow)
                (rotateRight_follows narrow) rfl rep₁ nodup₁
            · exact rotateRight_follows narrow rep₁ nodup₁
        · simp only [leftHeavy, rightHeavy, if_false]
          exact ⟨h₁, a, rfl, rfl, ⟨top, rep₁⟩, AgreeOff.refl _ _, rfl⟩

theorem balance_follows {a : Addr} {t : AvlTree K V} (root : t.root = some a) (rep : Represents h top t)
    (nodup : t.addrs.Nodup) : Follows h t (AvlTreeNode.balance narrow h a) (AvlTree.balance narrow t) := by
  cases t with
  | nil => simp at root
  | node b l x r =>
    obtain rfl : b = a := by simpa using root
    exact balanceNode_follows narrow rep nodup

end Follow

end SmallObject
