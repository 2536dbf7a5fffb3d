import SmallObject.RangeMap.Refinement

/-! Iteration: `begin()` and `operator++` over the linked nodes.

From a node without a right child `inc_node` climbs one level at most when it comes
from a right child. It misses the successor of the last node of a left subtree as
soon as two right links lead to that node, and the iteration ends there.
-/

set_option autoImplicit false

namespace SmallObject

open Linked AvlTree

variable {K V : Type}

namespace AvlTree

/-- What hangs two right links below the root. -/
def rightRight : AvlTree K V → AvlTree K V
  | .node _ _ _ (.node _ _ _ r) => r
  | _ => .nil

/-- No left child has a right child that has a right child. -/
def Walkable : AvlTree K V → Prop
  | .nil => True
  | .node _ l _ r => rightRight l = .nil ∧ Walkable l ∧ Walkable r

/-- The climb of `inc_node` from a node at this position gives up: it has come over two
right links. -/
def GivesUp : Context (NodeData K V) → Prop
  | ⟨.right, _, _, _⟩ :: ⟨.right, _, _, _⟩ :: _ => True
  | _ => False

theorem GivesUp.append {ctx : Context (NodeData K V)} (gives : GivesUp ctx) (outer : Context (NodeData K V)) :
    GivesUp (ctx ++ outer) :=
  match ctx, gives with
  | ⟨.right, _, _, _⟩ :: ⟨.right, _, _, _⟩ :: _, _ => trivial

theorem walkable_plug {ctx : Context (NodeData K V)} {t : AvlTree K V} (walk : Walkable (ctx.plug t)) :
    t.Walkable := by
  induction ctx generalizing t with
  | nil => exact walk
  | cons f fs ih =>
    obtain ⟨side, a, x, s⟩ := f
    have here := ih walk
    cases side with
    | left => exact here.2.1
    | right => exact here.2.2

/-- The frames up to the first left one, if there is a left one. -/
theorem split_rights (ctx : Context (NodeData K V)) :
    (Context.OneSided .right ctx) ∨
      ∃ rights a x s fs, ctx = rights ++ ⟨.left, a, x, s⟩ :: fs ∧ Context.OneSided .right rights := by
  induction ctx with
  | nil => exact .inl (by simp [Context.OneSided])
  | cons f fs ih =>
    obtain ⟨side, a, x, s⟩ := f
    cases side with
    | left => exact .inr ⟨[], a, x, s, fs, rfl, by simp [Context.OneSided]⟩
    | right =>
      rcases ih with all | ⟨rights, b, y, s', fs', rfl, all⟩
      · refine .inl fun f member => ?_
        rcases List.mem_cons.mp member with rfl | inside
        · rfl
        · exact all f inside
      · refine .inr ⟨_ :: rights, b, y, s', fs', rfl, fun f member => ?_⟩
        rcases List.mem_cons.mp member with rfl | inside
        · rfl
        · exact all f inside

/-- Two right links above a position put it under the root's `rightRight`. -/
theorem rightRight_plug {rights : Context (NodeData K V)} {f g : Frame (NodeData K V)} {t : AvlTree K V}
    (all : Context.OneSided .right (f :: g :: rights)) (present : t ≠ .nil) :
    rightRight (Context.plug (f :: g :: rights) t) ≠ .nil := by
  induction rights generalizing f g t with
  | nil =>
    obtain ⟨side, a, x, s⟩ := f
    obtain ⟨side', b, y, s'⟩ := g
    obtain rfl : side = .right := all ⟨side, a, x, s⟩ (by simp)
    obtain rfl : side' = .right := all ⟨side', b, y, s'⟩ (by simp)
    exact present
  | cons k ks ih =>
    exact ih (f := g) (g := k) (fun e member => all e (List.mem_cons_of_mem _ member)) (f.plug_ne_nil t)

theorem givesUp_of_rights {rights rest : Context (NodeData K V)} {f g : Frame (NodeData K V)}
    (all : Context.OneSided .right rights) (first : f.side = .right) (second : g.side = .right) :
    GivesUp (rights ++ f :: g :: rest) := by
  obtain ⟨_, a, x, s⟩ := f
  obtain ⟨_, b, y, s'⟩ := g
  subst first second
  match rights with
  | [] => trivial
  | [⟨side, c, z, s''⟩] =>
    obtain rfl : side = .right := all ⟨side, c, z, s''⟩ (by simp)
    trivial
  | ⟨side, c, z, s''⟩ :: ⟨side', d, w, t⟩ :: _ =>
    obtain rfl : side = .right := all ⟨side, c, z, s''⟩ (by simp)
    obtain rfl : side' = .right := all ⟨side', d, w, t⟩ (by simp)
    trivial

/-- A tree is walkable exactly when the climb gives up at its last node only. -/
theorem walkable_iff {t : AvlTree K V} :
    t.Walkable ↔ ∀ ctx a l x, t = Context.plug ctx (.node a l x .nil) → GivesUp ctx → ctx.after = [] := by
  constructor
  · rintro walk ctx a l x rfl gives
    rcases split_rights ctx with all | ⟨rights, b, y, s, fs, rfl, all⟩
    · exact all.after_eq_nil
    · exfalso
      match rights, all, gives with
      | [], _, gives => simp [GivesUp] at gives
      | [⟨.right, _, _, _⟩], _, gives => simp [GivesUp] at gives
      | f :: g :: rights, all, _ =>
        rw [Context.plug_append, Context.plug_cons] at walk
        exact rightRight_plug all (by simp) (walkable_plug walk).1
  · intro ends
    induction t with
    | nil => trivial
    | node a l x r ihl ihr =>
      refine ⟨?_, ihl ?_, ihr ?_⟩
      · by_contra deep
        -- the last node of such a subtree gives up, and nodes follow it
        match l, deep with
        | .node p pl px (.node q ql qx s), deep =>
          have present : s ≠ .nil := deep
          obtain ⟨b, root⟩ : ∃ b, s.root = some b := by cases s <;> simp at present ⊢
          obtain ⟨spine, c, l', y, rfl, all⟩ := Context.exists_last present
          have := ends (spine ++ [⟨.right, q, qx, ql⟩, ⟨.right, p, px, pl⟩, ⟨.left, a, x, r⟩]) c l' y
            (by rw [Context.plug_append]; rfl) ?_
          · simp [Context.after_append, Context.after] at this
          · exact givesUp_of_rights all rfl rfl
      · rintro ctx b l' y rfl gives
        have := ends (ctx ++ [⟨.left, a, x, r⟩]) b l' y (by rw [Context.plug_append]; rfl) (gives.append _)
        simp [Context.after_append, Context.after] at this
      · rintro ctx b l' y rfl gives
        have := ends (ctx ++ [⟨.right, a, x, l⟩]) b l' y (by rw [Context.plug_append]; rfl) (gives.append _)
        simpa [Context.after_append, Context.after] using this

/-- A node without a right child from which the climb of `inc_node` gives up. -/
def DeadEnd (t : AvlTree K V) (a : Addr) : Prop :=
  ∃ ctx l x, t = Context.plug ctx (.node a l x .nil) ∧ GivesUp ctx

end AvlTree

/-! ## The successor step -/

theorem leftmost_head {h : Nodes K V} {top : Ptr} {t : AvlTree K V} {a : Addr} {fuel : Nat}
    (rep : Represents h top t) (root : t.root = some a) (enough : t.size ≤ fuel) :
    ∃ b, AvlTreeNode.leftmost h fuel a = .ok b ∧ t.addrs.head? = some b := by
  obtain ⟨spine, b, x, r, rfl, lefts, run⟩ := leftmost_follows rep root enough
  exact ⟨b, run, by simp [Context.addrs_plug, lefts.before_eq_nil]⟩

/-- Where `inc_node` goes from a node: to the next one in order, unless its climb gives up. -/
theorem incNode_follows {h : Nodes K V} {ctx : Context (NodeData K V)} {a : Addr} {l r : AvlTree K V}
    {x : NodeData K V} (rep : Represents h none (ctx.plug (.node a l x r)))
    (nodup : (ctx.plug (.node a l x r)).addrs.Nodup) :
    (r = .nil ∧ GivesUp ctx ∧ AvlTreeNode.incNode h a = .ok none) ∨
      (¬ (r = .nil ∧ GivesUp ctx) ∧
        AvlTreeNode.incNode h a = .ok (r.addrs ++ ctx.after.map Prod.fst).head?) := by
  have apart := Context.apart_of_nodup nodup
  obtain ⟨context, here, left, right⟩ := Context.represents_plug.mp rep
  cases r with
  | node b rl y rr =>
    obtain ⟨_, nodupRight, _⟩ := LinkTree.nodup_node.mp (Context.nodup_inner nodup)
    obtain ⟨c, run, head⟩ := leftmost_head right rfl (size_lt_rounds right nodupRight).le
    refine .inr ⟨by simp, ?_⟩
    rw [List.head?_append, head]
    simp [AvlTreeNode.incNode, deref_of_lookup here, run]
  | nil =>
    -- the cases are the links that the climb looks at: to the parent, and to the parent's parent
    match ctx with
    | [] =>
      refine .inr ⟨by simp [GivesUp], ?_⟩
      simp [AvlTreeNode.incNode, deref_of_lookup here, Context.after]
    | ⟨.left, b, y, s⟩ :: fs =>
      have fromLeft : s.root ≠ some a := fun same =>
        apart a (Context.mem_addrs_cons.mpr (.inr (.inl (LinkTree.root_mem_addrs same)))) (by simp)
      refine .inr ⟨by simp [GivesUp], ?_⟩
      simp [AvlTreeNode.incNode, deref_of_lookup here, deref_of_lookup context.1, fromLeft, Context.after]
    | [⟨.right, b, y, s⟩] =>
      refine .inr ⟨by simp [GivesUp], ?_⟩
      simp [AvlTreeNode.incNode, deref_of_lookup here, deref_of_lookup context.1, Context.after]
    | ⟨.right, b, y, s⟩ :: ⟨.left, c, z, s'⟩ :: fs =>
      refine .inr ⟨by simp [GivesUp], ?_⟩
      simp [AvlTreeNode.incNode, deref_of_lookup here, deref_of_lookup context.1,
        deref_of_lookup context.2.2.1, Context.after]
    | ⟨.right, b, y, s⟩ :: ⟨.right, c, z, s'⟩ :: fs =>
      have fromRight : s'.root ≠ some b := by
        intro same
        have nodupParent : (Context.plug (⟨.right, c, z, s'⟩ :: fs) (.node b s y (.node a l x .nil))).addrs.Nodup :=
          nodup
        have inner := Context.apart_of_nodup nodupParent
        exact inner b (Context.mem_addrs_cons.mpr (.inr (.inl (LinkTree.root_mem_addrs same)))) (by simp)
      refine .inl ⟨rfl, trivial, ?_⟩
      simp [AvlTreeNode.incNode, deref_of_lookup here, deref_of_lookup context.1,
        deref_of_lookup context.2.2.1, fromRight]

/-! ## Whole iterations -/

namespace RangeMap

variable {m : RangeMap K V} {t : AvlTree K V}

/-- Every node steps to its successor in order, the last one to the end. -/
def Steps (m : RangeMap K V) (t : AvlTree K V) : Prop :=
  ∀ pre a post, t.addrs = pre ++ a :: post → m.increment (some a) = .ok post.head?

theorem focus_split {ctx : Context (NodeData K V)} {a : Addr} {l r : AvlTree K V} {x : NodeData K V}
    {pre post : List Addr} (nodup : (ctx.plug (.node a l x r)).addrs.Nodup)
    (split : (ctx.plug (.node a l x r)).addrs = pre ++ a :: post) :
    post = r.addrs ++ ctx.after.map Prod.fst := by
  have shape : (ctx.plug (.node a l x r)).addrs =
      (ctx.before.map Prod.fst ++ l.addrs) ++ a :: (r.addrs ++ ctx.after.map Prod.fst) := by
    simp [Context.addrs_plug]
  rw [shape] at nodup split
  obtain ⟨_, apartTail, apart⟩ := List.nodup_append.mp nodup
  have offHead : a ∉ ctx.before.map Prod.fst ++ l.addrs :=
    fun member => apart a member a List.mem_cons_self rfl
  have offTail := (List.nodup_cons.mp apartTail).1
  exact ((List.append_cons_inj_of_notMem offHead offTail).mp split).2.2.symm

theorem increment_split (stores : m.Stores t) {pre post : List Addr} {a : Addr}
    (split : t.addrs = pre ++ a :: post) :
    m.increment (some a) = .ok post.head? ∨ (m.increment (some a) = .ok none ∧ post ≠ []) := by
  obtain ⟨ctx, l, x, r, rfl⟩ := Context.exists_focus (t := t) (a := a) (by simp [split])
  have shape := focus_split stores.nodup split
  rcases incNode_follows stores.rep stores.nodup with ⟨_, _, run⟩ | ⟨_, run⟩
  · by_cases last : post = []
    · exact .inl (by simp [increment, run, last])
    · exact .inr ⟨run, last⟩
  · exact .inl (by rw [shape]; exact run)

theorem increment_deadEnd (stores : m.Stores t) {a : Addr} (dead : t.DeadEnd a) :
    m.increment (some a) = .ok none := by
  obtain ⟨ctx, l, x, rfl, gives⟩ := dead
  rcases incNode_follows stores.rep stores.nodup with ⟨_, _, run⟩ | ⟨moves, _⟩
  · exact run
  · exact absurd ⟨rfl, gives⟩ moves

theorem increment_next (stores : m.Stores t) {pre post : List Addr} {a : Addr}
    (split : t.addrs = pre ++ a :: post) (open_ : ¬ t.DeadEnd a) : m.increment (some a) = .ok post.head? := by
  obtain ⟨ctx, l, x, r, rfl⟩ := Context.exists_focus (t := t) (a := a) (by simp [split])
  rcases incNode_follows stores.rep stores.nodup with ⟨rfl, gives, _⟩ | ⟨_, run⟩
  · exact absurd ⟨ctx, l, x, rfl, gives⟩ open_
  · rw [focus_split stores.nodup split]
    exact run

theorem increment_mem (stores : m.Stores t) {a : Addr} (member : a ∈ t.addrs) {next : Ptr}
    (step : m.increment (some a) = .ok next) : ∀ b, next = some b → b ∈ t.addrs := by
  obtain ⟨pre, post, split⟩ := List.append_of_mem member
  rintro b rfl
  rcases increment_split stores split with forward | ⟨stuck, _⟩
  · rw [forward, Except.ok.injEq] at step
    rw [split]
    exact List.mem_append_right _ (List.mem_cons_of_mem _ (List.mem_of_mem_head? step))
  · simp [stuck] at step

/-- The nodes step to their successors exactly when the tree is walkable. -/
theorem steps_iff_walkable (stores : m.Stores t) : m.Steps t ↔ t.Walkable := by
  rw [walkable_iff]
  constructor
  · rintro steps ctx a l x rfl gives
    have split : (ctx.plug (.node a l x .nil)).addrs =
        (ctx.before.map Prod.fst ++ l.addrs) ++ a :: ctx.after.map Prod.fst := by
      simp [Context.addrs_plug]
    have step := steps _ a _ split
    rcases incNode_follows stores.rep stores.nodup with ⟨_, _, run⟩ | ⟨moves, _⟩
    · simp only [increment, run, Except.ok.injEq] at step
      simpa using step.symm
    · exact absurd ⟨rfl, gives⟩ moves
  · intro ends pre a post split
    obtain ⟨ctx, l, x, r, rfl⟩ := Context.exists_focus (t := t) (a := a) (by simp [split])
    have shape := focus_split stores.nodup split
    rcases incNode_follows stores.rep stores.nodup with ⟨rfl, gives, run⟩ | ⟨_, run⟩
    · have last := ends ctx a l x rfl gives
      simp [increment, run, shape, last]
    · rw [shape]
      exact run

/-- An iteration that visits nothing more has ended. -/
theorem visitFrom_eq_nil {fuel : Nat} {it : Ptr} (run : m.visitFrom fuel it = .ok []) : it = none := by
  cases it with
  | none => rfl
  | some a =>
    cases fuel with
    | zero => simp [visitFrom] at run
    | succ fuel =>
      obtain ⟨_, _, rest⟩ := bind_eq_ok run
      obtain ⟨_, _, rest⟩ := bind_eq_ok rest
      simp at rest

/-- One round of the loop. -/
theorem visitFrom_eq_cons {fuel : Nat} {it : Ptr} {a : Addr} {rest : List Addr}
    (run : m.visitFrom fuel it = .ok (a :: rest)) :
    ∃ left next, fuel = left + 1 ∧ it = some a ∧ m.increment (some a) = .ok next ∧
      m.visitFrom left next = .ok rest := by
  cases it with
  | none => simp [visitFrom] at run
  | some b =>
    cases fuel with
    | zero => simp [visitFrom] at run
    | succ left =>
      obtain ⟨next, step, run⟩ := bind_eq_ok run
      obtain ⟨seen, visited, run⟩ := bind_eq_ok run
      obtain ⟨rfl, rfl⟩ : b = a ∧ seen = rest := by simpa using run
      exact ⟨left, next, rfl, rfl, step, visited⟩

/-- From a node on, the iteration visits the following nodes in order, and all of them
exactly when each of them steps to its successor. -/
theorem visitFrom_follows (stores : m.Stores t) {pre post : List Addr} {a : Addr} {fuel : Nat}
    (split : t.addrs = pre ++ a :: post) (enough : post.length < fuel) :
    ∃ seen missed, a :: post = seen ++ missed ∧ seen ≠ [] ∧ m.visitFrom fuel (some a) = .ok seen ∧
      (missed = [] ↔ ∀ pre' b post', a :: post = pre' ++ b :: post' → m.increment (some b) = .ok post'.head?) := by
  induction post generalizing pre a fuel with
  | nil =>
    obtain ⟨fuel, rfl⟩ : ∃ k, fuel = k + 1 := ⟨fuel - 1, by simp at enough; omega⟩
    have step : m.increment (some a) = .ok none := by
      rcases increment_split stores split with step | ⟨_, more⟩
      · exact step
      · exact absurd rfl more
    refine ⟨[a], [], rfl, by simp, ?_, ?_⟩
    · cases fuel <;> simp [visitFrom, step]
    · simp only [true_iff]
      intro pre' b post' same
      cases pre' with
      | nil =>
        obtain ⟨rfl, rfl⟩ : a = b ∧ [] = post' := by simpa using same
        exact step
      | cons c cs => simp at same
  | cons c rest ih =>
    obtain ⟨fuel, rfl⟩ : ∃ k, fuel = k + 1 := ⟨fuel - 1, by simp at enough; omega⟩
    -- a step goes to the successor, or to the end too early
    rcases increment_split stores split with step | ⟨stuck, _⟩
    · have splitRest : t.addrs = (pre ++ [a]) ++ c :: rest := by simp [split]
      have enoughRest : rest.length < fuel := by
        rw [List.length_cons] at enough
        omega
      obtain ⟨seen, missed, flat, _, run, all⟩ := ih splitRest enoughRest
      refine ⟨a :: seen, missed, by simp [flat], by simp, ?_, all.trans ⟨fun steps => ?_, fun steps => ?_⟩⟩
      · simp [visitFrom, step, run]
      · intro pre' b post' same
        cases pre' with
        | nil =>
          obtain ⟨rfl, rfl⟩ : a = b ∧ c :: rest = post' := by simpa using same
          exact step
        | cons d ds => exact steps ds b post' (List.cons.inj same).2
      · intro pre' b post' same
        exact steps (a :: pre') b post' (by rw [same]; rfl)
    · refine ⟨[a], c :: rest, rfl, by simp, ?_, ?_⟩
      · cases fuel <;> simp [visitFrom, stuck]
      · simp only [reduceCtorEq, false_iff, not_forall]
        exact ⟨[], a, c :: rest, rfl, by simp [stuck]⟩

theorem begin_follows (stores : m.Stores t) : m.begin = .ok t.addrs.head? := by
  unfold begin
  rw [stores.root]
  cases t with
  | nil => rfl
  | node a l x r =>
    obtain ⟨b, run, head⟩ := leftmost_head stores.rep rfl (size_lt_rounds stores.rep stores.nodup).le
    rw [head]
    simp [run]

/-- An iteration visits a first part of the elements in order: it ends, goes to no element
twice, and leaves none out exactly when the tree is walkable. -/
theorem visited_follows (stores : m.Stores t) :
    ∃ seen missed, t.addrs = seen ++ missed ∧ m.visited = .ok seen ∧ (seen = [] → t = .nil) ∧
      (missed = [] ↔ t.Walkable) := by
  unfold visited
  rw [begin_follows stores]
  cases all : t.addrs with
  | nil =>
    have empty : t = .nil := by
      cases t with
      | nil => rfl
      | node a l x r => simp at all
    subst empty
    exact ⟨[], [], rfl, by simp [visitFrom], fun _ => rfl, by simp [AvlTree.Walkable]⟩
  | cons a post =>
    have enough : post.length < rounds m.nodes := by
      have := size_lt_rounds stores.rep stores.nodup
      rw [← t.length_addrs, all, List.length_cons] at this
      omega
    have split : t.addrs = [] ++ a :: post := all
    obtain ⟨seen, missed, flat, some, run, complete⟩ := visitFrom_follows stores split enough
    refine ⟨seen, missed, flat, by simpa using run, fun none => absurd none some, ?_⟩
    rw [complete, ← steps_iff_walkable stores]
    exact ⟨fun steps pre b post' same => steps pre b post' (all ▸ same),
      fun steps pre b post' same => steps pre b post' (all.trans same)⟩

/-- From a node on, the iteration reaches the nodes that have no dead end before them. -/
theorem visitFrom_reaches (stores : m.Stores t) {pre post pre' post' : List Addr} {a b : Addr} {fuel : Nat}
    {seen : List Addr} (split : t.addrs = pre ++ a :: post) (run : m.visitFrom fuel (some a) = .ok seen)
    (inside : a :: post = pre' ++ b :: post') : b ∈ seen ↔ ∀ c ∈ pre', ¬ t.DeadEnd c := by
  induction post generalizing pre a fuel seen pre' with
  | nil =>
    cases seen with
    | nil => exact absurd (visitFrom_eq_nil run) (by simp)
    | cons c rest =>
      obtain ⟨_, _, _, same, _, _⟩ := visitFrom_eq_cons run
      cases pre' with
      | nil =>
        obtain ⟨rfl, _⟩ : a = b ∧ _ := by simpa using inside
        simp [Option.some.inj same]
      | cons d ds => simp at inside
  | cons d post ih =>
    cases seen with
    | nil => exact absurd (visitFrom_eq_nil run) (by simp)
    | cons c rest =>
      obtain ⟨left, next, _, same, step, visited⟩ := visitFrom_eq_cons run
      obtain rfl : a = c := Option.some.inj same
      cases pre' with
      | nil =>
        obtain ⟨rfl, _⟩ : a = b ∧ _ := by simpa using inside
        simp
      | cons e pre' =>
        obtain ⟨rfl, inRest⟩ := List.cons.inj inside
        have other : b ≠ a := by
          rintro rfl
          have distinct := stores.nodup
          rw [split, inside] at distinct
          simp [List.nodup_append] at distinct
        by_cases dead : t.DeadEnd a
        · -- the loop ends here, before it comes to the other node
          rw [increment_deadEnd stores dead, Except.ok.injEq] at step
          subst step
          obtain rfl : [] = rest := by cases left <;> simpa [visitFrom] using visited
          simp [other, dead]
        · rw [increment_next stores split dead, Except.ok.injEq, List.head?_cons] at step
          subst step
          have onward : t.addrs = (pre ++ [a]) ++ d :: post := by simp [split]
          simp [other, dead, ih onward visited inRest]

/-- The iteration reaches exactly the nodes that have no dead end before them. -/
theorem visited_reaches (stores : m.Stores t) {pre post : List Addr} {b : Addr} {seen : List Addr}
    (split : t.addrs = pre ++ b :: post) (run : m.visited = .ok seen) :
    b ∈ seen ↔ ∀ c ∈ pre, ¬ t.DeadEnd c := by
  unfold visited at run
  rw [begin_follows stores, ok_bind] at run
  cases all : t.addrs with
  | nil => simp [all] at split
  | cons a rest =>
    rw [all, List.head?_cons] at run
    have start : t.addrs = [] ++ a :: rest := all
    exact visitFrom_reaches stores start run (all ▸ split)

end RangeMap

/-! ## The maps that are built -/

section Built

variable [LinearOrder K]

namespace RangeMap

/-- The maps that completed insertions and erasures make of the empty one, on the compiled
conversions. The node of an insertion is allocated at an address that no node has. -/
inductive Built : RangeMap K V → Prop
  | init : Built .init
  | insert (n : Addr) (min max : K) (val : V) {m m' : RangeMap K V} {inserted : Bool} :
    Built m → m.nodes.lookup n = none →
    m.insert wrapInt8 (some n) min max val = .ok (m', inserted) → Built m'
  | erase {m m' : RangeMap K V} {t : AvlTree K V} {a : Addr} :
    Built m → m.Stores t → a ∈ t.addrs → m.erase wrapInt8 (some a) = .ok m' → Built m'

variable {m : RangeMap K V}

theorem Built.stores (built : m.Built) : ∃ t, m.Stores t ∧ Ordered t.entries := by
  induction built with
  | init => exact ⟨.nil, stores_init, .nil⟩
  | @insert n min max val m m' inserted _ unused run ih =>
    obtain ⟨t, stores, ordered⟩ := ih
    obtain ⟨t', stores', ordered', _⟩ := insert_stores stores ordered unused run
    exact ⟨t', stores', ordered'⟩
  | @erase m m' t a _ stores member run ih =>
    obtain ⟨t₀, stores₀, ordered⟩ := ih
    obtain rfl := stores.unique stores₀
    obtain ⟨erased, follows, _, _⟩ := erase_follows stores member
    have outcome := follows wrapInt8
    cases spec : erased wrapInt8 with
    | error e =>
      simp only [spec] at outcome
      simp [outcome] at run
    | ok t' =>
      simp only [spec] at outcome
      obtain ⟨m₁, done, stores', remaining⟩ := outcome
      obtain rfl : m₁ = m' := by simpa [done] using run
      exact ⟨t', stores', remaining ▸ ordered.sublist List.filter_sublist⟩

/-- The iteration visits every element once, in order, each node stepping to its successor. -/
def Iterates (m : RangeMap K V) (t : AvlTree K V) : Prop := m.visited = .ok t.addrs ∧ m.Steps t

/-- Whatever made the map, iterating over it is complete exactly when its tree is walkable. -/
theorem iterates_iff_walkable (built : m.Built) :
    ∃ t, m.Stores t ∧ Ordered t.entries ∧ (m.Iterates t ↔ t.Walkable) := by
  obtain ⟨t, stores, ordered⟩ := built.stores
  refine ⟨t, stores, ordered, fun iterates => (steps_iff_walkable stores).mp iterates.2, fun walk => ?_⟩
  obtain ⟨seen, missed, flat, run, _, complete⟩ := visited_follows stores
  refine ⟨?_, (steps_iff_walkable stores).mpr walk⟩
  rw [run, flat, complete.mpr walk, List.append_nil]

/-- Insertions one after another; each is a range with the address of its node. -/
def insertAll (m : RangeMap K V) : List (Entry K V) → Except Fault (RangeMap K V)
  | [] => .ok m
  | (n, range, mapped) :: rest => do
    let (m, _) ← m.insert wrapInt8 (some n) range.min range.max mapped
    insertAll m rest

theorem iterates_iff_walkable_pair :
    ∃ (m : RangeMap Nat Nat) (t : AvlTree Nat Nat),
      insertAll .init [(10, ⟨0, 1⟩, 0), (13, ⟨6, 7⟩, 3)] = .ok m ∧ m.Stores t ∧ t.addrs = [10, 13] ∧
        m.Iterates t := by
  refine ⟨_, .node 10 .nil ⟨1, ⟨0, 1⟩, 0⟩ (.node 13 .nil ⟨0, ⟨6, 7⟩, 3⟩ .nil), rfl, ?stores, rfl, ?_⟩
  case stores => exact ⟨rfl, by simp [Represents]; decide, by decide⟩
  obtain ⟨t, stores, _, complete⟩ := iterates_iff_walkable
    (.insert 13 6 7 3 (.insert 10 0 1 0 .init rfl rfl) rfl rfl)
  have same : t = .node 10 .nil ⟨1, ⟨0, 1⟩, 0⟩ (.node 13 .nil ⟨0, ⟨6, 7⟩, 3⟩ .nil) :=
    stores.unique ⟨rfl, by simp [Represents]; decide, by decide⟩
  rw [same] at complete
  exact complete.mpr ⟨rfl, trivial, rfl, trivial, trivial⟩

/-- Four ranges put two right links under the root's left child, and the last one is not visited. -/
theorem iteration_incomplete :
    ∃ (m : RangeMap Nat Nat) (t : AvlTree Nat Nat),
      insertAll .init [(10, ⟨0, 1⟩, 0), (13, ⟨6, 7⟩, 3), (11, ⟨2, 3⟩, 1), (12, ⟨4, 5⟩, 2)] = .ok m ∧ m.Built ∧
      m.Stores t ∧ t.addrs = [10, 11, 12, 13] ∧ m.visited = .ok [10, 11, 12] ∧ ¬ m.Iterates t := by
  refine ⟨_, .node 13 (.node 10 .nil ⟨2, ⟨0, 1⟩, 0⟩ (.node 11 .nil ⟨1, ⟨2, 3⟩, 1⟩
    (.node 12 .nil ⟨0, ⟨4, 5⟩, 2⟩ .nil))) ⟨3, ⟨6, 7⟩, 3⟩ .nil, rfl, ?_, ?_, rfl, by decide, ?_⟩
  · exact .insert 12 4 5 2 (.insert 11 2 3 1 (.insert 13 6 7 3 (.insert 10 0 1 0 .init rfl rfl) rfl rfl)
      rfl rfl) rfl rfl
  · exact ⟨rfl, by simp [Represents]; decide, by decide⟩
  · rintro ⟨all, _⟩
    exact absurd all (by decide)

end RangeMap

end Built

end SmallObject
