import SmallObject.Library.Heap

/-! Binary trees whose nodes are heap cells linked to their children and to their parent.

A `LinkTree` carries the address of every node, so a heap represents at most one tree
at a root. A `Context` is the path from a position up to the root: climbing by the
parent links is walking along its frames.
-/

set_option autoImplicit false

namespace Linked

variable {α : Type}

/-- A node in memory: the links to the parent and to the children, and the rest. -/
structure Cell (α : Type) where
  top : Ptr
  left : Ptr
  right : Ptr
  load : α
  deriving DecidableEq, Repr

inductive LinkTree (α : Type) where
  | nil
  | node (addr : Addr) (left : LinkTree α) (load : α) (right : LinkTree α)
  deriving DecidableEq, Repr

namespace LinkTree

def root : LinkTree α → Ptr
  | nil => none
  | node a _ _ _ => some a

/-- The nodes in order, each with its address. -/
def toList : LinkTree α → List (Addr × α)
  | nil => []
  | node a l x r => l.toList ++ (a, x) :: r.toList

def addrs (t : LinkTree α) : List Addr := t.toList.map Prod.fst

def size (t : LinkTree α) : Nat := t.toList.length

@[simp] theorem root_nil : (nil : LinkTree α).root = none := rfl
@[simp] theorem root_node (a : Addr) (l r : LinkTree α) (x : α) : (node a l x r).root = some a := rfl
@[simp] theorem toList_nil : (nil : LinkTree α).toList = [] := rfl
@[simp] theorem toList_node (a : Addr) (l r : LinkTree α) (x : α) :
    (node a l x r).toList = l.toList ++ (a, x) :: r.toList := rfl
@[simp] theorem addrs_nil : (nil : LinkTree α).addrs = [] := rfl
@[simp] theorem addrs_node (a : Addr) (l r : LinkTree α) (x : α) :
    (node a l x r).addrs = l.addrs ++ a :: r.addrs := by simp [addrs]
@[simp] theorem size_nil : (nil : LinkTree α).size = 0 := rfl
@[simp] theorem size_node (a : Addr) (l r : LinkTree α) (x : α) :
    (node a l x r).size = l.size + r.size + 1 := by simp [size]; omega

theorem length_addrs (t : LinkTree α) : t.addrs.length = t.size := by simp [addrs, size]

theorem root_mem_addrs {t : LinkTree α} {a : Addr} (top : t.root = some a) : a ∈ t.addrs := by
  cases t with
  | nil => simp at top
  | node b l x r =>
    obtain rfl : b = a := by simpa using top
    simp

theorem mem_of_root_toList {t : LinkTree α} {a : Addr} (member : a ∈ t.root.toList) : a ∈ t.addrs :=
  root_mem_addrs (Option.mem_toList.mp member)

theorem nodup_node {a : Addr} {l r : LinkTree α} {x : α} : (node a l x r).addrs.Nodup ↔
    l.addrs.Nodup ∧ r.addrs.Nodup ∧ a ∉ l.addrs ∧ a ∉ r.addrs ∧ l.addrs.Disjoint r.addrs := by
  rw [addrs_node, List.nodup_append', List.nodup_cons, List.disjoint_cons_right]
  tauto

@[simp] theorem root_eq_none {t : LinkTree α} : t.root = none ↔ t = nil := by cases t <;> simp

end LinkTree

/-- The heap stores the tree, with the given parent link in its root. -/
def Represents (h : Heap (Cell α)) : Ptr → LinkTree α → Prop
  | _, .nil => True
  | top, .node a l x r =>
    h.lookup a = some ⟨top, l.root, r.root, x⟩ ∧ Represents h (some a) l ∧ Represents h (some a) r

namespace Represents

variable {h h' : Heap (Cell α)} {top : Ptr} {t : LinkTree α}

/-- Every node of the tree has its cell. -/
theorem stored (rep : Represents h top t) : ∀ e ∈ t.toList, ∃ cell, h.lookup e.1 = some cell ∧ cell.load = e.2 := by
  induction t generalizing top with
  | nil => simp
  | node a l x r ihl ihr =>
    obtain ⟨here, left, right⟩ := rep
    intro e member
    simp only [LinkTree.toList_node, List.mem_append, List.mem_cons] at member
    rcases member with inLeft | rfl | inRight
    · exact ihl left e inLeft
    · exact ⟨_, here, rfl⟩
    · exact ihr right e inRight

theorem allocated (rep : Represents h top t) : ∀ a ∈ t.addrs, ∃ cell, h.lookup a = some cell := by
  intro a member
  obtain ⟨e, inside, rfl⟩ := List.mem_map.mp member
  obtain ⟨cell, found, _⟩ := rep.stored e inside
  exact ⟨cell, found⟩

theorem transport (rep : Represents h top t) (same : ∀ a ∈ t.addrs, h'.lookup a = h.lookup a) :
    Represents h' top t := by
  induction t generalizing top with
  | nil => trivial
  | node a l x r ihl ihr =>
    obtain ⟨here, left, right⟩ := rep
    refine ⟨(same a (by simp)).trans here, ihl left ?_, ihr right ?_⟩
    · exact fun b member => same b (by simp [member])
    · exact fun b member => same b (by simp [member])

theorem frame {touched : List Addr} (rep : Represents h top t) (agree : AgreeOff touched h h')
    (apart : ∀ a ∈ t.addrs, a ∉ touched) : Represents h' top t :=
  rep.transport fun a member => agree a (apart a member)

/-- Only the parent link of the root changes. -/
theorem retop {top' : Ptr} {a : Addr} {l r : LinkTree α} {x : α} (rep : Represents h top (.node a l x r))
    (nodup : (LinkTree.node a l x r).addrs.Nodup) :
    Represents (h.insert a ⟨top', l.root, r.root, x⟩) top' (.node a l x r) := by
  obtain ⟨_, left, right⟩ := rep
  obtain ⟨_, _, notLeft, notRight, _⟩ := LinkTree.nodup_node.mp nodup
  refine ⟨AList.lookup_insert _, left.transport ?_, right.transport ?_⟩
  · exact fun b member => AList.lookup_insert_ne (ne_of_mem_of_not_mem member notLeft)
  · exact fun b member => AList.lookup_insert_ne (ne_of_mem_of_not_mem member notRight)

/-- The cell of the root. -/
theorem root_cell {a : Addr} (rep : Represents h top t) (root : t.root = some a) :
    ∃ cell, h.lookup a = some cell ∧ cell.top = top := by
  cases t with
  | nil => simp at root
  | node b l x r =>
    obtain rfl : b = a := by simpa using root
    exact ⟨_, rep.1, rfl⟩

theorem size_le (rep : Represents h top t) (nodup : t.addrs.Nodup) : t.size ≤ h.keys.length := by
  rw [← t.length_addrs]
  exact length_le_cells nodup rep.allocated

/-- The heap determines the tree at a root. -/
theorem unique {s : LinkTree α} {top' : Ptr} (left : Represents h top t) (right : Represents h top' s)
    (same : t.root = s.root) : t = s := by
  induction t generalizing s top top' with
  | nil =>
    cases s with
    | nil => rfl
    | node => simp at same
  | node a l x r ihl ihr =>
    cases s with
    | nil => simp at same
    | node b l' y r' =>
      obtain rfl : a = b := by simpa using same
      obtain ⟨hereLeft, leftLeft, leftRight⟩ := left
      obtain ⟨hereRight, rightLeft, rightRight⟩ := right
      rw [hereLeft, Option.some.injEq, Cell.mk.injEq] at hereRight
      obtain ⟨_, rootLeft, rootRight, rfl⟩ := hereRight
      rw [ihl leftLeft rightLeft rootLeft, ihr leftRight rightRight rootRight]

end Represents

/-- Which child of its parent a position is. -/
inductive Side where
  | left
  | right
  deriving DecidableEq, Repr

/-- A parent on the path to the root, with the subtree that hangs on its other side. -/
structure Frame (α : Type) where
  side : Side
  addr : Addr
  load : α
  sibling : LinkTree α

def Frame.plug (f : Frame α) (t : LinkTree α) : LinkTree α :=
  match f.side with
  | .left => .node f.addr t f.load f.sibling
  | .right => .node f.addr f.sibling f.load t

@[simp] theorem Frame.root_plug (f : Frame α) (t : LinkTree α) : (f.plug t).root = some f.addr := by
  obtain ⟨side, a, x, s⟩ := f
  cases side <;> rfl

theorem Frame.plug_ne_nil (f : Frame α) (t : LinkTree α) : f.plug t ≠ .nil := by
  intro empty
  have root := f.root_plug t
  simp [empty] at root

/-- The frames from a position up to the root, the nearest first. -/
abbrev Context (α : Type) := List (Frame α)

namespace Context

def plug : Context α → LinkTree α → LinkTree α
  | [], t => t
  | f :: fs, t => plug fs (f.plug t)

/-- The parent link that a node at the position has; outside the context it is the given one. -/
def top (outer : Ptr) : Context α → Ptr
  | [] => outer
  | f :: _ => some f.addr

/-- The nodes in order before the position. -/
def before : Context α → List (Addr × α)
  | [] => []
  | ⟨.left, _, _, _⟩ :: fs => before fs
  | ⟨.right, a, x, s⟩ :: fs => before fs ++ (s.toList ++ [(a, x)])

/-- The nodes in order after the position. -/
def after : Context α → List (Addr × α)
  | [] => []
  | ⟨.left, a, x, s⟩ :: fs => (a, x) :: s.toList ++ after fs
  | ⟨.right, _, _, _⟩ :: fs => after fs

def addrs (ctx : Context α) : List Addr := (before ctx ++ after ctx).map Prod.fst

/-- The heap stores the frames around a hole, with the given link at the hole. -/
def Represents (h : Heap (Cell α)) (outer : Ptr) : Context α → Ptr → Prop
  | [], _ => True
  | ⟨.left, a, x, s⟩ :: fs, hole =>
    h.lookup a = some ⟨top outer fs, hole, s.root, x⟩ ∧ Linked.Represents h (some a) s ∧
      Represents h outer fs (some a)
  | ⟨.right, a, x, s⟩ :: fs, hole =>
    h.lookup a = some ⟨top outer fs, s.root, hole, x⟩ ∧ Linked.Represents h (some a) s ∧
      Represents h outer fs (some a)

@[simp] theorem plug_nil (t : LinkTree α) : plug [] t = t := rfl
@[simp] theorem plug_cons (f : Frame α) (fs : Context α) (t : LinkTree α) :
    plug (f :: fs) t = plug fs (f.plug t) := rfl
@[simp] theorem top_nil (outer : Ptr) : top outer ([] : Context α) = outer := rfl
@[simp] theorem top_cons (outer : Ptr) (f : Frame α) (fs : Context α) :
    top outer (f :: fs) = some f.addr := rfl

theorem plug_append (inner outer : Context α) (t : LinkTree α) :
    plug (inner ++ outer) t = plug outer (plug inner t) := by
  induction inner generalizing t with
  | nil => rfl
  | cons f fs ih => exact ih (f.plug t)

theorem toList_plug (ctx : Context α) (t : LinkTree α) :
    (plug ctx t).toList = before ctx ++ t.toList ++ after ctx := by
  induction ctx generalizing t with
  | nil => simp [before, after]
  | cons f fs ih =>
    obtain ⟨side, a, x, s⟩ := f
    cases side <;> simp [ih, Frame.plug, before, after]

theorem addrs_plug (ctx : Context α) (t : LinkTree α) :
    (plug ctx t).addrs = (before ctx).map Prod.fst ++ t.addrs ++ (after ctx).map Prod.fst := by
  simp [LinkTree.addrs, toList_plug]

theorem addrs_plug_perm (ctx : Context α) (t : LinkTree α) :
    (plug ctx t).addrs.Perm (t.addrs ++ ctx.addrs) := by
  rw [addrs_plug, addrs, List.map_append, ← List.append_assoc]
  exact List.Perm.append_right _ List.perm_append_comm

theorem size_plug (ctx : Context α) (t : LinkTree α) :
    (plug ctx t).size = t.size + (before ctx ++ after ctx).length := by
  simp [LinkTree.size, toList_plug]; omega

theorem length_le_addrs (ctx : Context α) : ctx.length ≤ (before ctx ++ after ctx).length := by
  induction ctx with
  | nil => simp
  | cons f fs ih =>
    obtain ⟨side, a, x, s⟩ := f
    cases side <;> simp [before, after] at ih ⊢ <;> omega

/-- A plugged tree is stored exactly when its context and the subtree are. -/
theorem represents_plug {h : Heap (Cell α)} {outer : Ptr} {ctx : Context α} {t : LinkTree α} :
    Linked.Represents h outer (plug ctx t) ↔
      Represents h outer ctx t.root ∧ Linked.Represents h (top outer ctx) t := by
  induction ctx generalizing t with
  | nil => simp [Represents]
  | cons f fs ih =>
    obtain ⟨side, a, x, s⟩ := f
    cases side <;> simp only [plug_cons, ih, Frame.plug, Represents, Linked.Represents,
      LinkTree.root_node, top_cons] <;> tauto

theorem Represents.frame {h h' : Heap (Cell α)} {touched : List Addr} {outer : Ptr} {ctx : Context α}
    {hole : Ptr} (rep : Represents h outer ctx hole) (agree : AgreeOff touched h h')
    (apart : ∀ a ∈ ctx.addrs, a ∉ touched) : Represents h' outer ctx hole := by
  induction ctx generalizing hole with
  | nil => trivial
  | cons f fs ih =>
    obtain ⟨side, a, x, s⟩ := f
    have inside : ∀ b, b = a ∨ b ∈ s.addrs ∨ b ∈ addrs fs → b ∉ touched := by
      intro b member
      apply apart b
      cases side <;> simp [addrs, before, after, LinkTree.addrs] at member ⊢ <;> tauto
    cases side <;>
    · obtain ⟨here, sibling, rest⟩ := rep
      exact ⟨(agree a (inside a (.inl rfl))).trans here,
        sibling.frame agree (fun b member => inside b (.inr (.inl member))),
        ih rest (fun b member => inside b (.inr (.inr member)))⟩

theorem apart_of_nodup {ctx : Context α} {t : LinkTree α} (nodup : (plug ctx t).addrs.Nodup) :
    ∀ a ∈ ctx.addrs, a ∉ t.addrs := by
  have apart := (addrs_plug_perm ctx t).nodup_iff.mp nodup
  rw [List.nodup_append'] at apart
  exact fun a inContext inTree => apart.2.2 inTree inContext

theorem nodup_inner {ctx : Context α} {t : LinkTree α} (nodup : (plug ctx t).addrs.Nodup) :
    t.addrs.Nodup := by
  rw [addrs_plug] at nodup
  exact nodup.of_append_left.of_append_right

theorem mem_addrs_plug {ctx : Context α} {t : LinkTree α} {a : Addr} :
    a ∈ (plug ctx t).addrs ↔ a ∈ t.addrs ∨ a ∈ ctx.addrs := by
  rw [(addrs_plug_perm ctx t).mem_iff, List.mem_append]

@[simp] theorem mem_addrs_plug_nil {ctx : Context α} {a : Addr} :
    a ∈ (plug ctx .nil).addrs ↔ a ∈ ctx.addrs := by
  simp [mem_addrs_plug]

theorem mem_addrs_cons {f : Frame α} {fs : Context α} {a : Addr} :
    a ∈ addrs (f :: fs) ↔ a = f.addr ∨ a ∈ f.sibling.addrs ∨ a ∈ addrs fs := by
  obtain ⟨side, b, x, s⟩ := f
  cases side <;> simp [addrs, before, after, LinkTree.addrs] <;> tauto

theorem root_plug {ctx : Context α} {t t' : LinkTree α} (same : t'.root = t.root) :
    (plug ctx t').root = (plug ctx t).root := by
  induction ctx generalizing t t' with
  | nil => exact same
  | cons f fs ih =>
    apply ih
    rw [f.root_plug, f.root_plug]

/-- Every node of a tree is at some position in it. -/
theorem exists_focus {t : LinkTree α} {a : Addr} (member : a ∈ t.addrs) :
    ∃ ctx l x r, t = plug ctx (.node a l x r) := by
  induction t with
  | nil => simp at member
  | node b l y r ihl ihr =>
    simp only [LinkTree.addrs_node, List.mem_append, List.mem_cons] at member
    rcases member with inLeft | rfl | inRight
    · obtain ⟨ctx, l', x, r', rfl⟩ := ihl inLeft
      exact ⟨ctx ++ [⟨.left, b, y, r⟩], l', x, r', by rw [plug_append]; rfl⟩
    · exact ⟨[], l, y, r, rfl⟩
    · obtain ⟨ctx, l', x, r', rfl⟩ := ihr inRight
      exact ⟨ctx ++ [⟨.right, b, y, l⟩], l', x, r', by rw [plug_append]; rfl⟩

/-- All frames of the context have the hole on one side. -/
def OneSided (side : Side) (ctx : Context α) : Prop := ∀ f ∈ ctx, f.side = side

theorem OneSided.after_eq_nil {ctx : Context α} (spine : OneSided .right ctx) : after ctx = [] := by
  induction ctx with
  | nil => rfl
  | cons f fs ih =>
    obtain ⟨side, a, x, s⟩ := f
    obtain rfl : side = .right := spine _ List.mem_cons_self
    exact ih fun g member => spine g (List.mem_cons_of_mem _ member)

theorem OneSided.before_eq_nil {ctx : Context α} (spine : OneSided .left ctx) : before ctx = [] := by
  induction ctx with
  | nil => rfl
  | cons f fs ih =>
    obtain ⟨side, a, x, s⟩ := f
    obtain rfl : side = .left := spine _ List.mem_cons_self
    exact ih fun g member => spine g (List.mem_cons_of_mem _ member)

theorem after_append (inner outer : Context α) : after (inner ++ outer) = after inner ++ after outer := by
  induction inner with
  | nil => rfl
  | cons f fs ih =>
    obtain ⟨side, a, x, s⟩ := f
    cases side <;> simp [after, ih]

/-- The last node of a tree is at the end of its right links. -/
theorem exists_last {t : LinkTree α} (present : t ≠ .nil) :
    ∃ spine a l x, t = plug spine (.node a l x .nil) ∧ OneSided .right spine := by
  induction t with
  | nil => exact absurd rfl present
  | node a l x r _ ihr =>
    by_cases last : r = .nil
    · exact ⟨[], a, l, x, by rw [last]; rfl, by simp [OneSided]⟩
    · obtain ⟨spine, b, l', y, rfl, rights⟩ := ihr last
      refine ⟨spine ++ [⟨.right, a, x, l⟩], b, l', y, by rw [plug_append]; rfl, fun f member => ?_⟩
      rcases List.mem_append.mp member with inSpine | isLast
      · exact rights f inSpine
      · rw [List.mem_singleton.mp isLast]

theorem size_add_length_le {h : Heap (Cell α)} {ctx : Context α} {t : LinkTree α}
    {outer : Ptr} (rep : Linked.Represents h outer (plug ctx t)) (nodup : (plug ctx t).addrs.Nodup) :
    t.size + ctx.length ≤ h.keys.length := by
  have bound := rep.size_le nodup
  have path := length_le_addrs ctx
  rw [size_plug] at bound
  omega

end Context

end Linked
