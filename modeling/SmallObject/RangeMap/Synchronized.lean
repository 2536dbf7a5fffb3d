import SmallObject.Library.Atomicity
import SmallObject.RangeMap.Iterate
import SmallObject.RangeMap.Refinement

/-! `synchronized_range_map`: the operations of the range map behind a lock, in any number of threads.

One round of a loop is one step of a thread, and so is what stands between two loops. What
`sys::xmalloc` returns for the node of an insertion is given with the call. The lock is a correct one.
-/

set_option autoImplicit false

namespace SmallObject

open Linked AvlTreeNode AvlTree Locking Execution

variable {K V : Type} [LinearOrder K]

namespace RangeMap

inductive Call (K V : Type) where
  | insert (memory : Ptr) (min max : K) (val : V)
  | erase (position : Ptr)
  | find (key : K)
  | begin
  | empty
  deriving DecidableEq, Repr

/-- The call takes a write lock; the others take a read lock. -/
def Call.writes : Call K V → Bool
  | .insert _ _ _ _ | .erase _ => true
  | .find _ | .begin | .empty => false

inductive Outcome where
  | inserted (result : Bool)
  /-- `std::bad_alloc` leaves the call; the guard gives the lock back. -/
  | threw
  | erased
  /-- An iterator to a node, or to the end. -/
  | position (it : Ptr)
  | isEmpty (result : Bool)
  deriving DecidableEq, Repr

/-- Where a thread is that has the lock. -/
inductive Site (K V : Type) where
  /-- At the beginning of the function of the base class. -/
  | entered (call : Call K V)
  /-- In the loop of `do_insert_node`. -/
  | descending (memory : Ptr) (range : Range K) (mapped : V) (it : Addr)
  /-- In `do_erase_node`, on the way to the last node of the left subtree. -/
  | seeking (node it : Addr)
  /-- In `do_rebalance_from`, with the answer that the call has then. -/
  | climbing (it : Addr) (answer : Outcome)
  /-- In the loop of `find_node`. -/
  | finding (key : K) (it : Ptr)
  /-- In the loop of `begin`. -/
  | leftward (it : Addr)

/-- `do_erase_node` up to `do_rebalance_from`, and where that starts. The last node of the left
subtree is known where it is needed. -/
def unlink (m : RangeMap K V) (node last : Addr) : Except Fault (RangeMap K V × Ptr) := do
  let n ← deref m.nodes (some node)
  match n.left, n.right, n.top with
  | none, none, none => .ok ({ m with root := none }, none)
  | none, none, some top => do
    let h ← replaceChild m.nodes top node none
    let h ← destroyNode h node
    .ok ({ m with nodes := h }, some top)
  | some left, none, some top => do
    let h ← replaceChild m.nodes top node (some left)
    let h ← destroyNode h node
    .ok ({ m with nodes := h }, some top)
  | some left, none, none => do
    let h ← makeRoot m.nodes left
    let h ← destroyNode h node
    .ok ({ nodes := h, root := some left }, some left)
  | none, some right, some top => do
    let h ← replaceChild m.nodes top node (some right)
    let h ← destroyNode h node
    .ok ({ m with nodes := h }, some top)
  | none, some right, none => do
    let h ← makeRoot m.nodes right
    let h ← destroyNode h node
    .ok ({ nodes := h, root := some right }, some right)
  | some left, some right, top => do
    let h ← setRight m.nodes last (some right)
    match top with
    | some top => do
      let h ← replaceChild h top node (some left)
      let h ← destroyNode h node
      .ok ({ m with nodes := h }, some last)
    | none => do
      let h ← makeRoot h left
      let h ← destroyNode h node
      .ok ({ nodes := h, root := some left }, some left)

namespace Synchronized

/-- After the node has been unlinked. -/
def unlinked (m : RangeMap K V) (start : Ptr) : RangeMap K V × (Site K V ⊕ Outcome) :=
  match start with
  | none => (m, .inr .erased)
  | some start => (m, .inl (.climbing start .erased))

/-- The next step of an operation of `basic_range_map`. -/
def next : Site K V → RangeMap K V → Except Fault (RangeMap K V × (Site K V ⊕ Outcome))
  | .entered (.insert memory min max val), m =>
    match m.root with
    | none =>
      match createNode m.nodes memory { min, max } val with
      | .error .badAlloc => .ok (m, .inr .threw)
      | .error e => .error e
      | .ok (h, a) => .ok ({ nodes := h, root := some a }, .inr (.inserted true))
    | some root => .ok (m, .inl (.descending memory { min, max } val root))
  | .entered (.erase none), m => .ok (m, .inr .erased)
  | .entered (.erase (some node)), m => do
    let n ← deref m.nodes (some node)
    match n.left, n.right with
    | some left, some _ => .ok (m, .inl (.seeking node left))
    | _, _ => do
      let (m, start) ← m.unlink node node
      .ok (unlinked m start)
  | .entered (.find key), m => .ok (m, .inl (.finding key m.root))
  | .entered .begin, m =>
    match m.root with
    | none => .ok (m, .inr (.position none))
    | some root => .ok (m, .inl (.leftward root))
  | .entered .empty, m => .ok (m, .inr (.isEmpty m.empty))
  | .descending memory range mapped it, m => do
    let n ← deref m.nodes (some it)
    let compare := range.compareTo n.load.range
    if compare = 0 then .ok (m, .inr (.inserted false))
    else
      let attempt :=
        if compare = 1 then doInsertRight m.nodes memory it range mapped
        else doInsertLeft m.nodes memory it range mapped
      match attempt with
      | .error .badAlloc => .ok (m, .inr .threw)
      | .error e => .error e
      | .ok (h, true) => .ok ({ m with nodes := h }, .inl (.climbing it (.inserted true)))
      | .ok (_, false) => do
        let onward ← nonNull (if compare = 1 then n.right else n.left)
        .ok (m, .inl (.descending memory range mapped onward))
  | .seeking node it, m => do
    let n ← deref m.nodes (some it)
    match n.right with
    | some right => .ok (m, .inl (.seeking node right))
    | none => do
      let (m, start) ← m.unlink node it
      .ok (unlinked m start)
  | .climbing it answer, m => do
    let n ← deref m.nodes (some it)
    match n.top with
    | none => do
      let (h, root) ← balance wrapInt8 m.nodes it
      let h ← makeRoot h root
      .ok ({ nodes := h, root := some root }, .inr answer)
    | some top => do
      let t ← deref m.nodes (some top)
      let (h, balanced) ← balance wrapInt8 m.nodes it
      let h ← hang h (t.left == some it) top (some balanced)
      .ok ({ m with nodes := h }, .inl (.climbing top answer))
  | .finding _ none, m => .ok (m, .inr (.position none))
  | .finding key (some it), m => do
    let n ← deref m.nodes (some it)
    let compare := n.load.range.compareToKey key
    if compare = 0 then .ok (m, .inr (.position (some it)))
    else .ok (m, .inl (.finding key (if compare < 0 then n.left else n.right)))
  | .leftward it, m => do
    let n ← deref m.nodes (some it)
    match n.left with
    | none => .ok (m, .inr (.position (some it)))
    | some left => .ok (m, .inl (.leftward left))

/-- The site belongs to an operation that only reads. -/
def reads : Site K V → Bool
  | .entered call => !call.writes
  | .finding _ _ | .leftward _ => true
  | .descending _ _ _ _ | .seeking _ _ | .climbing _ _ => false

theorem reads_next (site : Site K V) (m m' : RangeMap K V) (x : Site K V ⊕ Outcome) (reading : reads site = true)
    (run : next site m = .ok (m', x)) : m' = m ∧ ∀ site', x = .inl site' → reads site' = true := by
  cases site with
  | entered call =>
    cases call with
    | insert | erase => simp [reads, Call.writes] at reading
    | find key =>
      obtain ⟨rfl, rfl⟩ : m = m' ∧ _ = x := by simpa [next] using run
      exact ⟨rfl, by rintro _ ⟨⟩; rfl⟩
    | begin =>
      cases root : m.root with
      | none =>
        obtain ⟨rfl, rfl⟩ : m = m' ∧ _ = x := by simpa [next, root] using run
        exact ⟨rfl, nofun⟩
      | some a =>
        obtain ⟨rfl, rfl⟩ : m = m' ∧ _ = x := by simpa [next, root] using run
        exact ⟨rfl, by rintro _ ⟨⟩; rfl⟩
    | empty =>
      obtain ⟨rfl, rfl⟩ : m = m' ∧ _ = x := by simpa [next] using run
      exact ⟨rfl, nofun⟩
  | descending | seeking | climbing => simp [reads] at reading
  | finding key it =>
    cases it with
    | none =>
      obtain ⟨rfl, rfl⟩ : m = m' ∧ _ = x := by simpa [next] using run
      exact ⟨rfl, nofun⟩
    | some it =>
      obtain ⟨n, _, run⟩ := bind_eq_ok run
      by_cases here : n.load.range.compareToKey key = 0
      · obtain ⟨rfl, rfl⟩ : m = m' ∧ _ = x := by simpa [here] using run
        exact ⟨rfl, nofun⟩
      · obtain ⟨rfl, rfl⟩ : m = m' ∧ _ = x := by simpa [here] using run
        exact ⟨rfl, by rintro _ ⟨⟩; rfl⟩
  | leftward it =>
    obtain ⟨n, _, run⟩ := bind_eq_ok run
    split at run
    · obtain ⟨rfl, rfl⟩ : m = m' ∧ _ = x := by simpa using run
      exact ⟨rfl, nofun⟩
    · obtain ⟨rfl, rfl⟩ : m = m' ∧ _ = x := by simpa using run
      exact ⟨rfl, by rintro _ ⟨⟩; rfl⟩

def operations : Operations (RangeMap K V) (Call K V) (Site K V) Outcome Fault where
  writes := Call.writes
  start := .entered
  next := next
  reads := reads
  reads_start := fun call reader => by simp [reads, reader]
  reads_next := reads_next

/-- The elements, by their links to children. -/
def elementsFrom (h : Nodes K V) : Nat → Ptr → List Addr
  | _, none => []
  | 0, some _ => []
  | fuel + 1, some a =>
    match h.lookup a with
    | none => []
    | some n => elementsFrom h fuel n.left ++ a :: elementsFrom h fuel n.right

def elements (m : RangeMap K V) : List Addr := elementsFrom m.nodes (rounds m.nodes) m.root

/-- A node is allocated where no node is, and no stored height is too large for `int8_t`. An iterator
that is erased is still one to an element, or to the end. -/
def Permitted : Call K V → RangeMap K V → Prop
  | .insert memory min max val, m => ∀ n ∈ memory,
      m.nodes.lookup n = none ∧ m.insert exactInt8 (some n) min max val ≠ .error .narrow
  | .erase position, m => ∀ a ∈ position, a ∈ elements m ∧ m.erase exactInt8 (some a) ≠ .error .narrow
  | _, _ => True

/-- What an operation is on a sorted list of ranges. Lookup may come to any element with the key. -/
inductive Does : Call K V → SortedRanges K V → Outcome → SortedRanges K V → Prop where
  | accepted {s : SortedRanges K V} {n : Addr} {min max : K} {val : V} (accepts : s.Accepts ⟨min, max⟩)
      (fresh : n ∉ s.entries.map Prod.fst) :
      Does (.insert (some n) min max val) s (.inserted true) (s.insert n ⟨min, max⟩ val accepts fresh)
  | rejected {s : SortedRanges K V} {memory : Ptr} {min max : K} {val : V} : ¬ s.Accepts ⟨min, max⟩ →
      Does (.insert memory min max val) s (.inserted false) s
  | threw {s : SortedRanges K V} {min max : K} {val : V} : s.Accepts ⟨min, max⟩ →
      Does (.insert none min max val) s .threw s
  | erased {s : SortedRanges K V} {a : Addr} : a ∈ s.entries.map Prod.fst →
      Does (.erase (some a)) s .erased (s.erase a)
  | erasedNone {s : SortedRanges K V} : Does (.erase none) s .erased s
  | found {s : SortedRanges K V} {key : K} {e : Entry K V} : e ∈ s.entries → e.2.1.Contains key →
      Does (.find key) s (.position (some e.1)) s
  | missed {s : SortedRanges K V} {key : K} : (∀ e ∈ s.entries, ¬ e.2.1.Contains key) →
      Does (.find key) s (.position none) s
  | begin {s : SortedRanges K V} : Does .begin s (.position (s.entries.map Prod.fst).head?) s
  | empty {s : SortedRanges K V} : Does .empty s (.isEmpty s.entries.isEmpty) s

/-! ## An operation alone -/

section Alone

variable {h h' : Nodes K V} {m m' : RangeMap K V} {r : Ptr}

/-- The loop of `find_node`. -/
theorem finishes_find (key : K) {fuel : Nat} {it result : Ptr} (run : findFrom m.nodes key fuel it = .ok result) :
    operations.Finishes (.finding key it) m (.position result) m := by
  induction fuel generalizing it with
  | zero =>
    cases it with
    | none =>
      obtain rfl : none = result := by simpa [findFrom] using run
      exact .last rfl
    | some it => simp [findFrom] at run
  | succ fuel ih =>
    cases it with
    | none =>
      obtain rfl : none = result := by simpa [findFrom] using run
      exact .last rfl
    | some it =>
      obtain ⟨n, found, run⟩ := bind_eq_ok run
      by_cases here : n.load.range.compareToKey key = 0
      · obtain rfl : some it = result := by simpa [here] using run
        exact .last (by simp [operations, next, found, here])
      · have onward : next (.finding key (some it)) m =
            .ok (m, .inl (.finding key (if n.load.range.compareToKey key < 0 then n.left else n.right))) := by
          simp [next, found, here]
        refine .next onward (ih ?_)
        simp only [here, if_false] at run
        split at run
        next low => simpa [low] using run
        next low => simpa [low] using run

theorem finishes_leftmost {fuel : Nat} {it result : Addr} (run : leftmost m.nodes fuel it = .ok result) :
    operations.Finishes (.leftward it) m (.position (some result)) m := by
  induction fuel generalizing it with
  | zero => simp [leftmost] at run
  | succ fuel ih =>
    obtain ⟨n, found, run⟩ := bind_eq_ok run
    cases left : n.left with
    | none =>
      obtain rfl : it = result := by simpa [left] using run
      exact .last (by simp [operations, next, found, left])
    | some child =>
      simp only [left] at run
      exact .next (by simp [operations, next, found, left]) (ih run)

/-- The loop of `do_rebalance_from`, and what comes after it. -/
theorem finishes_climb {fuel : Nat} {it last root : Addr} {h₁ h₂ h₃ : Nodes K V} (answer : Outcome)
    (climbed : climb wrapInt8 fuel h it = .ok (h₁, last)) (balanced : balance wrapInt8 h₁ last = .ok (h₂, root))
    (made : makeRoot h₂ root = .ok h₃) :
    operations.Finishes (.climbing it answer) ⟨h, r⟩ answer ⟨h₃, some root⟩ := by
  induction fuel generalizing h it with
  | zero => simp [climb] at climbed
  | succ fuel ih =>
    obtain ⟨n, found, climbed⟩ := bind_eq_ok climbed
    cases above : n.top with
    | none =>
      obtain ⟨rfl, rfl⟩ : h = h₁ ∧ it = last := by simpa [above] using climbed
      exact .last (by simp [operations, next, found, above, balanced, made])
    | some top =>
      simp only [above] at climbed
      obtain ⟨t, parent, climbed⟩ := bind_eq_ok climbed
      obtain ⟨⟨h', lifted⟩, turned, climbed⟩ := bind_eq_ok climbed
      obtain ⟨h'', hung, climbed⟩ := bind_eq_ok climbed
      have onward : next (.climbing it answer) ⟨h, r⟩ = .ok (⟨h'', r⟩, .inl (.climbing top answer)) := by
        simp [next, found, above, parent, turned, hung]
      exact .next onward (ih climbed)

theorem finishes_rebalance {start : Addr} (answer : Outcome) (run : doRebalanceFrom wrapInt8 h start = .ok m') :
    operations.Finishes (.climbing start answer) ⟨h, r⟩ answer m' := by
  obtain ⟨⟨h₁, last⟩, climbed, run⟩ := bind_eq_ok run
  obtain ⟨⟨h₂, root⟩, balanced, run⟩ := bind_eq_ok run
  obtain ⟨h₃, made, run⟩ := bind_eq_ok run
  obtain rfl : _ = m' := Except.ok.inj run
  exact finishes_climb answer climbed balanced made

/-- What the loop of `do_insert_node` comes to. -/
def Descends (memory : Ptr) (range : Range K) (mapped : V) (it : Addr) (m : RangeMap K V) :
    Except Fault (Nodes K V × Ptr) → Prop
  | .ok (_, none) => operations.Finishes (.descending memory range mapped it) m (.inserted false) m
  | .ok (h, some into) =>
    operations.Passes (.descending memory range mapped it) m (.climbing into (.inserted true)) { m with nodes := h }
  | .error .badAlloc => operations.Finishes (.descending memory range mapped it) m .threw m
  | .error _ => True

theorem Descends.of_next {memory : Ptr} {range : Range K} {mapped : V} {it onward : Addr}
    {result : Except Fault (Nodes K V × Ptr)}
    (step : next (.descending memory range mapped it) m = .ok (m, .inl (.descending memory range mapped onward)))
    (rest : Descends memory range mapped onward m result) : Descends memory range mapped it m result := by
  have first : operations.Passes (.descending memory range mapped it) m (.descending memory range mapped onward) m :=
    .next .start step
  match result, rest with
  | .ok (_, none), rest => exact first.finishes rest
  | .ok (h, some into), rest => exact first.trans rest
  | .error .badAlloc, rest => exact first.finishes rest
  | .error .null, _ | .error .narrow, _ | .error .endless, _ => trivial

/-- One round, with the attempt to insert on the side that was chosen. -/
theorem Descends.round {memory : Ptr} {range : Range K} {mapped : V} {it : Addr} {fuel : Nat} {side : Ptr}
    (attempt : Except Fault (Nodes K V × Bool))
    (step : next (.descending memory range mapped it) m = match attempt with
      | .error .badAlloc => .ok (m, .inr .threw)
      | .error e => .error e
      | .ok (h, true) => .ok ({ m with nodes := h }, .inl (.climbing it (.inserted true)))
      | .ok (_, false) => do
        let onward ← nonNull side
        .ok (m, .inl (.descending memory range mapped onward)))
    (rest : ∀ a, Descends memory range mapped a m (doInsertNode m.nodes memory range mapped fuel a)) :
    Descends memory range mapped it m (attempt >>= fun tried =>
      if tried.2 then .ok (tried.1, some it)
      else nonNull side >>= fun onward => doInsertNode m.nodes memory range mapped fuel onward) := by
  match attempt, step with
  | .error .badAlloc, step => exact .last step
  | .error .null, _ | .error .narrow, _ | .error .endless, _ => trivial
  | .ok (h, true), step => exact .next .start step
  | .ok (h, false), step =>
    cases side with
    | none => trivial
    | some onward => exact .of_next step (rest onward)

theorem descends (memory : Ptr) (range : Range K) (mapped : V) (fuel : Nat) (it : Addr) :
    Descends memory range mapped it m (doInsertNode m.nodes memory range mapped fuel it) := by
  induction fuel generalizing it with
  | zero => trivial
  | succ fuel ih =>
    rw [doInsertNode]
    cases found : m.nodes.lookup it with
    | none =>
      simp only [deref, found, error_bind]
      trivial
    | some n =>
      simp only [deref_of_lookup found, ok_bind]
      by_cases same : range.compareTo n.load.range = 0
      · simp only [same, if_true]
        exact .last (by simp [operations, next, deref_of_lookup found, same])
      · by_cases after : range.compareTo n.load.range = 1
        · simp only [after, if_true, if_neg (show ¬ (1 : Int) = 0 by decide)]
          exact .round _ (by simp [next, deref_of_lookup found, after]) ih
        · simp only [same, after, if_false]
          exact .round _ (by simp [next, deref_of_lookup found, same, after]) ih

/-- An insertion that is not for want of memory. -/
theorem finishes_insert {memory : Ptr} {min max : K} {val : V} {inserted : Bool}
    (run : m.insert wrapInt8 memory min max val = .ok (m', inserted)) :
    operations.Finishes (.entered (.insert memory min max val)) m (.inserted inserted) m' := by
  unfold RangeMap.insert insertNode at run
  cases root : m.root with
  | none =>
    simp only [root] at run
    obtain ⟨⟨h, a⟩, created, run⟩ := bind_eq_ok run
    obtain ⟨rfl, rfl⟩ : _ = m' ∧ true = inserted := by simpa using run
    exact .last (by simp [operations, next, root, created])
  | some root₀ =>
    simp only [root] at run
    obtain ⟨⟨h, into⟩, searched, run⟩ := bind_eq_ok run
    have entered : next (.entered (.insert memory min max val)) m =
        .ok (m, .inl (.descending memory ⟨min, max⟩ val root₀)) := by simp [next, root]
    have loop := descends (m := m) memory ⟨min, max⟩ val (rounds m.nodes) root₀
    rw [searched] at loop
    refine .next entered ?_
    cases into with
    | none =>
      obtain ⟨rfl, rfl⟩ : m = m' ∧ false = inserted := by simpa using run
      exact loop
    | some into =>
      obtain ⟨m₁, rebalanced, run⟩ := bind_eq_ok run
      obtain ⟨rfl, rfl⟩ : m₁ = m' ∧ true = inserted := by simpa using run
      exact Operations.Passes.finishes loop (finishes_rebalance _ rebalanced)

/-- The walk to the last node of the left subtree. -/
theorem passes_rightmost (node : Addr) {fuel : Nat} {it last : Addr}
    (run : rightmost m.nodes fuel it = .ok last) :
    operations.Passes (.seeking node it) m (.seeking node last) m ∧
      ∃ n, deref m.nodes (some last) = .ok n ∧ n.right = none := by
  induction fuel generalizing it with
  | zero => simp [rightmost] at run
  | succ fuel ih =>
    obtain ⟨n, found, run⟩ := bind_eq_ok run
    cases right : n.right with
    | none =>
      obtain rfl : it = last := by simpa [right] using run
      exact ⟨.start, n, found, right⟩
    | some child =>
      simp only [right] at run
      obtain ⟨rest, ends⟩ := ih run
      have onward : next (.seeking node it) m = .ok (m, .inl (.seeking node child)) := by
        simp [next, found, right]
      exact ⟨(Operations.Passes.start.next onward).trans rest, ends⟩

/-- `do_erase_node` after the node has been unlinked. -/
def settle (start : Ptr) (m : RangeMap K V) : Except Fault (RangeMap K V) :=
  match start with
  | none => .ok m
  | some start => doRebalanceFrom wrapInt8 m.nodes start

omit [LinearOrder K] in
theorem doEraseNode_single {node : Addr} {n : AvlTreeNode K V} (found : deref m.nodes (some node) = .ok n)
    (single : n.left = none ∨ n.right = none) :
    m.doEraseNode wrapInt8 node = m.unlink node node >>= fun x => settle x.2 x.1 := by
  unfold doEraseNode unlink
  simp only [found, ok_bind]
  cases left : n.left with
  | none =>
    cases n.right with
    | none => cases n.top <;> simp [settle]
    | some right => cases n.top <;> simp [settle]
  | some left =>
    obtain right : n.right = none := by simpa [left] using single
    rw [right]
    cases n.top <;> simp [settle]

omit [LinearOrder K] in
theorem doEraseNode_double {node left right : Addr} {n : AvlTreeNode K V} (found : deref m.nodes (some node) = .ok n)
    (isLeft : n.left = some left) (isRight : n.right = some right) :
    m.doEraseNode wrapInt8 node = rightmost m.nodes (rounds m.nodes) left >>= fun last =>
      m.unlink node last >>= fun x => settle x.2 x.1 := by
  unfold doEraseNode unlink
  simp only [found, ok_bind, isLeft, isRight]
  cases n.top <;> simp [settle]

theorem finishes_settle {site : Site K V} {start : Ptr} {m₁ : RangeMap K V}
    (step : next site m = .ok (unlinked m₁ start)) (settled : settle start m₁ = .ok m') :
    operations.Finishes site m .erased m' := by
  cases start with
  | none =>
    obtain rfl : m₁ = m' := Except.ok.inj settled
    exact .last step
  | some start => exact .next step (finishes_rebalance (r := m₁.root) .erased settled)

theorem finishes_erase {node : Addr} (run : m.erase wrapInt8 (some node) = .ok m') :
    operations.Finishes (.entered (.erase (some node))) m .erased m' := by
  have erased : m.doEraseNode wrapInt8 node = .ok m' := run
  obtain ⟨n, found, _⟩ := bind_eq_ok run
  by_cases single : n.left = none ∨ n.right = none
  · rw [doEraseNode_single found single] at erased
    obtain ⟨⟨m₁, start⟩, unlinks, settled⟩ := bind_eq_ok erased
    refine finishes_settle ?_ settled
    rcases single with none | none
    · simp [next, found, none, unlinks]
    · cases left : n.left <;> simp [next, found, left, none, unlinks]
  · obtain ⟨noLeft, noRight⟩ := not_or.mp single
    obtain ⟨left, isLeft⟩ := Option.ne_none_iff_exists'.mp noLeft
    obtain ⟨right, isRight⟩ := Option.ne_none_iff_exists'.mp noRight
    rw [doEraseNode_double found isLeft isRight] at erased
    obtain ⟨last, walked, erased⟩ := bind_eq_ok erased
    obtain ⟨⟨m₁, start⟩, unlinks, settled⟩ := bind_eq_ok erased
    obtain ⟨walk, n', found', ends⟩ := passes_rightmost node walked
    have entered : next (.entered (.erase (some node))) m = .ok (m, .inl (.seeking node left)) := by
      simp [next, found, isLeft, isRight]
    refine .next entered (walk.finishes (finishes_settle ?_ settled))
    simp [next, found', ends, unlinks]

end Alone

/-! ## The operations and the sorted list -/

section Refined

variable {m : RangeMap K V} {s : SortedRanges K V} {t : AvlTree K V}

omit [LinearOrder K] in
theorem elementsFrom_follows {h : Nodes K V} {top : Ptr} {fuel : Nat} (rep : Represents h top t)
    (enough : t.size ≤ fuel) : elementsFrom h fuel t.root = t.addrs := by
  induction t generalizing fuel top with
  | nil => cases fuel <;> rfl
  | node a l x r ihl ihr =>
    obtain ⟨here, left, right⟩ := rep
    obtain ⟨fuel, rfl⟩ : ∃ k, fuel = k + 1 := ⟨fuel - 1, by simp at enough; omega⟩
    simp only [LinkTree.size_node] at enough
    simp only [LinkTree.root_node, elementsFrom, here, LinkTree.addrs_node]
    rw [ihl left (by omega), ihr right (by omega)]

theorem elements_refines (refines : m.Refines s) : elements m = s.entries.map Prod.fst := by
  obtain ⟨t, stores, _, same⟩ := refines
  unfold elements
  rw [stores.root, elementsFrom_follows stores.rep (size_lt_rounds stores.rep stores.nodup).le, ← same,
    map_fst_entries]

/-- Without memory a range that would be accepted makes the call throw. -/
theorem insert_throws (refines : m.Refines s) (min max : K) (val : V) :
    (¬ s.Accepts ⟨min, max⟩ ∧ m.insert wrapInt8 none min max val = .ok (m, false)) ∨
      (s.Accepts ⟨min, max⟩ ∧ operations.Finishes (.entered (.insert none min max val)) m .threw m) := by
  obtain ⟨t, stores, _, same⟩ := refines
  have ordered := same ▸ s.ordered
  cases t with
  | nil =>
    refine .inr ⟨by simp [SortedRanges.Accepts, ← same], .last ?_⟩
    simp [operations, next, stores.root, createNode]
  | node a l x r =>
    have searched := doInsertNode_follows ⟨min, max⟩ val none [] stores.rep rfl
      (size_lt_rounds stores.rep stores.nodup).le
    cases attach : attachPoint ⟨min, max⟩ (.node a l x r) [] with
    | none =>
      simp only [attach] at searched
      obtain ⟨e, member, apart⟩ := attachPoint_rejects attach
      refine .inl ⟨fun accepts => apart (accepts e (same ▸ member)), ?_⟩
      simp [RangeMap.insert, insertNode, stores.root, searched]
    | some ctx =>
      simp only [attach] at searched
      obtain ⟨f, fs, rfl, run⟩ := searched
      obtain ⟨pre, post, flat, _, _, below, above⟩ := attachPoint_sides ordered attach
      refine .inr ⟨fun e member => ?_, ?_⟩
      · rw [← same, entries, flat] at member
        obtain ⟨e', member', rfl⟩ := List.mem_map.mp member
        exact (List.mem_append.mp member').imp (below e') (above e')
      · have entered : next (.entered (.insert none min max val)) m =
            .ok (m, .inl (.descending none ⟨min, max⟩ val a)) := by simp [next, stores.root]
        have loop := descends (m := m) none ⟨min, max⟩ val (rounds m.nodes) a
        rw [run] at loop
        exact .next entered loop

/-- Every operation, alone, does what it does on the list. -/
theorem simulates : Shared.Simulates (operations (K := K) (V := V)) Permitted Refines Does := by
  intro call m s refines permitted
  cases call with
  | insert memory min max val =>
    cases memory with
    | none =>
      rcases insert_throws refines min max val with ⟨rejects, run⟩ | ⟨accepts, throws⟩
      · exact ⟨_, m, s, finishes_insert run, .rejected rejects, refines⟩
      · exact ⟨_, m, s, throws, .threw accepts, refines⟩
    | some n =>
      obtain ⟨unused, fits⟩ := permitted n rfl
      by_cases accepts : s.Accepts ⟨min, max⟩
      · obtain ⟨m', run, refines'⟩ := refines.insert_accepted unused accepts fits
        exact ⟨_, m', _, finishes_insert run, .accepted accepts (refines.fresh unused), refines'⟩
      · exact ⟨_, m, s, finishes_insert (refines.insert_rejected unused accepts fits), .rejected accepts, refines⟩
  | erase position =>
    cases position with
    | none => exact ⟨_, m, s, .last rfl, .erasedNone, refines⟩
    | some a =>
      obtain ⟨element, fits⟩ := permitted a rfl
      rw [elements_refines refines] at element
      obtain ⟨m', run, refines'⟩ := refines.erase element fits
      exact ⟨_, m', _, finishes_erase run, .erased element, refines'⟩
  | find key =>
    have entered : next (.entered (.find key)) m = .ok (m, .inl (.finding key m.root)) := rfl
    rcases refines.find key with ⟨e, member, run, holds⟩ | ⟨run, none⟩
    · exact ⟨_, m, s, .next entered (finishes_find key run), .found member holds, refines⟩
    · exact ⟨_, m, s, .next entered (finishes_find key run), .missed none, refines⟩
  | begin =>
    have result : ∃ it, m.begin = .ok it ∧ it = (s.entries.map Prod.fst).head? := by
      obtain ⟨t, stores, _, same⟩ := refines
      exact ⟨_, begin_follows stores, by rw [← same, map_fst_entries]⟩
    obtain ⟨it, run, rfl⟩ := result
    refine ⟨_, m, s, ?_, .begin, refines⟩
    unfold RangeMap.begin at run
    cases root : m.root with
    | none =>
      simp only [root] at run
      exact .last (by simp [operations, next, root, ← Except.ok.inj run])
    | some a =>
      simp only [root] at run
      obtain ⟨first, walked, run⟩ := bind_eq_ok run
      have entered : next (.entered .begin) m = .ok (m, .inl (.leftward a)) := by simp [next, root]
      rw [← Except.ok.inj run]
      exact .next entered (finishes_leftmost walked)
  | empty =>
    refine ⟨_, m, s, .last rfl, ?_, refines⟩
    have same : m.empty = s.entries.isEmpty := by
      obtain ⟨t, stores, _, same⟩ := refines
      rw [RangeMap.empty, stores.root, ← same]
      cases t <;> simp
    rw [same]
    exact .empty

end Refined

/-! ## Runs -/

variable {T : Type} [DecidableEq T]

/-- In every run of any number of threads the operations take effect on one sorted list, one at a
time, each between its call and its return and with the answer that it returns. No step comes upon
a node that does not exist, and the threads do not all wait. -/
theorem run_linearizable {s : Shared (RangeMap K V) T (Call K V) (Site K V) Outcome}
    (run : s.Run operations Permitted .init) :
    ∃ x : SortedRanges K V, Legal Does .init s.log x ∧
      (∀ t, Alternates t (s.log.filter fun e => e.thread = t) (Shared.opened (s.place t))) ∧
      ((∀ t, s.place t = .idle) → s.state.Refines x) ∧
      (∀ action, s.Admissible operations Permitted action → ∃ s', s.step operations action = .ok s') ∧
      ((∃ t, s.place t ≠ .idle) → ∃ t, s.GoesOn operations t) := by
  obtain ⟨done, x, atomic⟩ := run.atomic simulates refines_init
  refine ⟨x, atomic.legal, atomic.alternates, fun idle => ?_, fun action admissible => ?_, fun busy => ?_⟩
  · rw [atomic.still fun t a l place => by simp [idle t] at place]
    exact atomic.related
  · obtain ⟨s', _, _, stepped, _⟩ := atomic.step simulates admissible
    exact ⟨s', stepped⟩
  · obtain ⟨t, busy⟩ := busy
    exact atomic.live busy

/-! ## Runs that can be computed -/

instance (call : Call K V) (m : RangeMap K V) : Decidable (Permitted call m) :=
  match call with
  | .insert memory min max val => inferInstanceAs (Decidable (∀ n ∈ memory,
      m.nodes.lookup n = none ∧ ¬ m.insert exactInt8 (some n) min max val = .error .narrow))
  | .erase position => inferInstanceAs (Decidable (∀ a ∈ position,
      a ∈ elements m ∧ ¬ m.erase exactInt8 (some a) = .error .narrow))
  | .find _ | .begin | .empty => isTrue trivial

instance (s : Shared (RangeMap K V) T (Call K V) (Site K V) Outcome) (action : Locking.Action T (Call K V)) :
    Decidable (s.Admissible operations Permitted action) :=
  match action with
  | .call _ _ => isTrue trivial
  | .advance t =>
    match h : s.place t with
    | .calling a => decidable_of_iff ((s.enter operations t a).isSome → Permitted a s.state)
        (by simp [Shared.Admissible, h])
    | .idle | .inside _ _ | .leaving _ _ => isTrue (by simp [Shared.Admissible, h])

/-- A thread erases an element while another one looks it up: the writer waits for the reader. -/
def contended : List (Locking.Event Bool (Call Nat Nat) Outcome) :=
  [.returned true (.erase (some 10)) .erased, .done true (.erase (some 10)) .erased,
    .returned false (.find 2) (.position (some 10)), .done false (.find 2) (.position (some 10)),
    .called true (.erase (some 10)), .called false (.find 2), .returned true (.insert (some 10) 1 3 7) (.inserted true),
    .done true (.insert (some 10) 1 3 7) (.inserted true), .called true (.insert (some 10) 1 3 7)]

theorem run_linearizable_contended : ∃ x : SortedRanges Nat Nat, Legal Does .init contended x := by
  have computed : (replay (Shared.Admissible operations Permitted) (Shared.step operations)
      (Shared.init .init : Shared (RangeMap Nat Nat) Bool (Call Nat Nat) (Site Nat Nat) Outcome)
      [.call true (.insert (some 10) 1 3 7), .advance true, .advance true, .advance true,
        .call false (.find 2), .call true (.erase (some 10)), .advance false, .advance true, .advance false,
        .advance true, .advance false, .advance false, .advance true, .advance true, .advance true]).map
      (fun s => s.log) = some contended := by decide +kernel
  obtain ⟨s, replayed, log⟩ := Option.map_eq_some_iff.mp computed
  obtain ⟨x, legal, _⟩ := run_linearizable (replay_runs _ (.start rfl) replayed)
  exact ⟨x, log ▸ legal⟩

end Synchronized

end RangeMap

end SmallObject
