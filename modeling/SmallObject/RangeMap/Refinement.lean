import SmallObject.Library.Execution
import SmallObject.RangeMap.Erase

/-! The range map refines a sorted list of ranges.

The list says what the map is for: a chain of ranges, each with the address of its
element. Every operation of the map has the outcome and the effect of the operation
on the list, as long as no stored height is too large for `int8_t`.
-/

set_option autoImplicit false

namespace SmallObject

open Linked AvlTree Execution

variable {K V : Type} [LinearOrder K]

/-! ## Sorted lists of ranges -/

structure SortedRanges (K V : Type) [LinearOrder K] where
  entries : List (Entry K V)
  ordered : Ordered entries
  distinct : (entries.map Prod.fst).Nodup

section Split

variable {range : Range K} {es : List (Entry K V)}

/-- A range that is comparable with every element of a chain splits the chain. -/
theorem ordered_split (ordered : Ordered es) (fits : ∀ e ∈ es, Comparable range e.2.1) :
    (es.filter fun e => e.2.1.Before range) ++ (es.filter fun e => range.Before e.2.1) = es := by
  induction es with
  | nil => rfl
  | cons e rest ih =>
    obtain ⟨first, ordered⟩ := List.pairwise_cons.mp ordered
    rcases fits e List.mem_cons_self with below | above
    · have next := ih ordered fun f member => fits f (List.mem_cons_of_mem _ member)
      simp [below, below.asymm, next]
    · have none : (rest.filter fun f => f.2.1.Before range) = [] := by
        simp only [List.filter_eq_nil_iff, decide_eq_true_eq]
        exact fun f member => (above.trans (first f member)).asymm
      have all : (rest.filter fun f => range.Before f.2.1) = rest := by
        simp only [List.filter_eq_self, decide_eq_true_eq]
        exact fun f member => above.trans (first f member)
      simp [above, above.asymm, none, all]

/-- The two sides of a range are found by comparing with it. -/
theorem filter_sides {pre post : List (Entry K V)} (below : ∀ e ∈ pre, e.2.1.Before range)
    (above : ∀ e ∈ post, range.Before e.2.1) :
    ((pre ++ post).filter fun e => e.2.1.Before range) = pre ∧
      ((pre ++ post).filter fun e => range.Before e.2.1) = post := by
  have preBelow : (pre.filter fun e => e.2.1.Before range) = pre := by simpa using below
  have preAbove : (pre.filter fun e => range.Before e.2.1) = [] := by
    simpa using fun a r v member => (below (a, r, v) member).asymm
  have postBelow : (post.filter fun e => e.2.1.Before range) = [] := by
    simpa using fun a r v member => (above (a, r, v) member).asymm
  have postAbove : (post.filter fun e => range.Before e.2.1) = post := by simpa using above
  simp [preBelow, preAbove, postBelow, postAbove]

end Split

namespace SortedRanges

variable (s : SortedRanges K V)

def init : SortedRanges K V := ⟨[], .nil, .nil⟩

/-- The ranges that a new one may be inserted into. -/
def Accepts (range : Range K) : Prop := ∀ e ∈ s.entries, Comparable range e.2.1

/-- The chain with one more element in its place. -/
def insert (a : Addr) (range : Range K) (mapped : V) (fits : s.Accepts range)
    (fresh : a ∉ s.entries.map Prod.fst) : SortedRanges K V where
  entries := (s.entries.filter fun e => e.2.1.Before range) ++
    (a, range, mapped) :: s.entries.filter fun e => range.Before e.2.1
  ordered := by
    refine ordered_insert ?_ ?_ ?_
    · rw [ordered_split s.ordered fits]
      exact s.ordered
    · simp
    · simp
  distinct := by
    have split := ordered_split s.ordered fits
    rw [List.map_append, List.map_cons, List.perm_middle.nodup_iff, ← List.map_append, split]
    exact List.nodup_cons.mpr ⟨fresh, s.distinct⟩

/-- The chain without the element at an address. -/
def erase (a : Addr) : SortedRanges K V where
  entries := s.entries.filter fun e => e.1 ≠ a
  ordered := s.ordered.sublist List.filter_sublist
  distinct := s.distinct.sublist (List.filter_sublist.map _)

end SortedRanges

/-! ## Lookup -/

/-- The search loop ends at an element that holds the key, if there is one. -/
theorem findFrom_follows (key : K) {h : Nodes K V} {top : Ptr} {t : AvlTree K V} {fuel : Nat}
    (rep : Represents h top t) (ordered : Ordered t.entries) (enough : t.size ≤ fuel) :
    (∃ e ∈ t.entries, RangeMap.findFrom h key fuel t.root = .ok (some e.1) ∧ e.2.1.Contains key) ∨
      (RangeMap.findFrom h key fuel t.root = .ok none ∧ ∀ e ∈ t.entries, ¬ e.2.1.Contains key) := by
  induction t generalizing fuel top with
  | nil => exact .inr ⟨by cases fuel <;> rfl, by simp⟩
  | node a l x r ihl ihr =>
    obtain ⟨here, left, right⟩ := rep
    obtain ⟨fuel, rfl⟩ : ∃ k, fuel = k + 1 := ⟨fuel - 1, by simp at enough; omega⟩
    simp only [LinkTree.size_node] at enough
    simp only [Ordered, entries_node, List.pairwise_append, List.pairwise_cons] at ordered
    obtain ⟨orderedLeft, ⟨beforeRight, orderedRight⟩, acrossLeft⟩ := ordered
    simp only [RangeMap.findFrom, LinkTree.root_node, deref_of_lookup here, ok_bind]
    -- in a map that is ordered, one comparison rules out a side
    by_cases low : key < x.range.min
    · have toLeft : x.range.compareToKey key = -1 := by simp [Range.compareToKey_eq, low]
      simp only [toLeft, if_neg (show ¬ (-1 : Int) = 0 by decide), if_pos (show (-1 : Int) < 0 by decide)]
      have enoughLeft : l.size ≤ fuel := by omega
      rcases ihl left orderedLeft enoughLeft with ⟨e, member, found, holds⟩ | ⟨missed, none⟩
      · exact .inl ⟨e, by simp [member], found, holds⟩
      · refine .inr ⟨missed, fun e member => ?_⟩
        rcases List.mem_append.mp (entries_node a l r x ▸ member) with inLeft | rest
        · exact none e inLeft
        · rcases List.mem_cons.mp rest with rfl | inRight
          · exact fun holds => low.not_ge holds.1
          · exact fun holds => (low.trans (beforeRight e inRight).1).not_ge holds.1
    · by_cases high : x.range.max < key
      · have toRight : x.range.compareToKey key = 1 := by simp [Range.compareToKey_eq, low, high]
        simp only [toRight, if_neg (show ¬ (1 : Int) = 0 by decide), if_neg (show ¬ (1 : Int) < 0 by decide)]
        have enoughRight : r.size ≤ fuel := by omega
        rcases ihr right orderedRight enoughRight with ⟨e, member, found, holds⟩ | ⟨missed, none⟩
        · exact .inl ⟨e, by simp [member], found, holds⟩
        · refine .inr ⟨missed, fun e member => ?_⟩
          rcases List.mem_append.mp (entries_node a l r x ▸ member) with inLeft | rest
          · have before := acrossLeft e inLeft (a, x.range, x.mapped) (by simp)
            exact fun holds => (before.2.trans high).not_ge holds.2
          · rcases List.mem_cons.mp rest with rfl | inRight
            · exact fun holds => high.not_ge holds.2
            · exact none e inRight
      · have holds : x.range.Contains key := ⟨not_lt.mp low, not_lt.mp high⟩
        refine .inl ⟨(a, x.range, x.mapped), by simp, ?_, holds⟩
        simp [Range.compareToKey_eq_zero.mpr holds]

/-! ## Erasure -/

/-- Taking the one element with a key out of a list without repeated keys. -/
theorem filter_key {α β : Type} [DecidableEq α] {pre post : List (α × β)} {a : α} {b : β}
    (nodup : ((pre ++ (a, b) :: post).map Prod.fst).Nodup) :
    (pre ++ (a, b) :: post).filter (fun e => e.1 ≠ a) = pre ++ post := by
  rw [List.map_append, List.map_cons, List.nodup_middle, List.nodup_cons, ← List.map_append] at nodup
  have away : ∀ e ∈ pre ++ post, e.1 ≠ a := by
    rintro e member rfl
    exact nodup.1 (List.mem_map.mpr ⟨e, member, rfl⟩)
  rw [List.filter_append, List.filter_cons_of_neg (by simp), ← List.filter_append, List.filter_eq_self]
  simpa using away

omit [LinearOrder K] in
/-- Erasing a stored element has the outcome of a tree computation on the remaining elements. -/
theorem erase_follows {m : RangeMap K V} {t : AvlTree K V} {a : Addr} (stores : m.Stores t)
    (member : a ∈ t.addrs) :
    ∃ erased : Narrowing → Except Fault (AvlTree K V),
      (∀ narrow, match erased narrow with
        | .error e => m.erase narrow (some a) = .error e
        | .ok t' => ∃ m', m.erase narrow (some a) = .ok m' ∧ m'.Stores t' ∧
            t'.entries = t.entries.filter fun e => e.1 ≠ a) ∧
      (∀ narrow wider t', (∀ x y, narrow x = .ok y → wider x = .ok y) → erased narrow = .ok t' →
        erased wider = .ok t') ∧
      (t.HeightsFit → erased exactInt8 = .error .narrow ∨
        ∃ t', erased exactInt8 = .ok t' ∧ t'.HeightsFit) := by
  obtain ⟨ctx, l, x, r, rfl⟩ := Context.exists_focus member
  rcases doEraseNode_follows stores with ⟨rfl, rfl, rfl, run⟩ | ⟨ctx', s, h', b, root, flat, rep, _, _, run⟩
  · refine ⟨fun _ => .ok .nil, fun narrow => ?_, fun _ _ _ _ same => same, fun _ => .inr ⟨_, rfl, heightsFit_nil⟩⟩
    exact ⟨_, run narrow, ⟨rfl, trivial, by simp⟩, by simp⟩
  · have nodup := nodup_remaining stores.nodup flat
    -- the erased node is the only one with its address
    have remaining : entries (ctx'.plug s) = (entries (ctx.plug (.node a l x r))).filter fun e => e.1 ≠ a := by
      have shape : entries (ctx.plug (.node a l x r)) =
          (ctx.before.map (fun e => (e.1, e.2.range, e.2.mapped)) ++ entries l) ++ (a, x.range, x.mapped) ::
            (entries r ++ ctx.after.map fun e => (e.1, e.2.range, e.2.mapped)) := by
        simp [entries_plug]
      have distinct := stores.nodup
      rw [← map_fst_entries, shape] at distinct
      rw [shape, filter_key distinct]
      simp [entries, flat]
    refine ⟨fun narrow => unwind narrow ctx' s, fun narrow => ?_, fun _ _ _ agree => unwind_agrees agree, fun fit => ?_⟩
    · have rebalanced := doRebalanceFrom_follows narrow ctx' root rep nodup
      simp only [RangeMap.erase, run]
      cases spec : unwind narrow ctx' s with
      | error e => simpa only [spec] using rebalanced
      | ok t' =>
        simp only [spec] at rebalanced
        obtain ⟨m', done, stores', _, _⟩ := rebalanced
        exact ⟨m', done, stores', (unwind_entries spec).trans remaining⟩
    · have present : s ≠ .nil := by
        rintro rfl
        simp at root
      rcases unwind_fit (heightsFit_remaining fit flat) present with wide | ⟨t', done, fits, _⟩
      · exact .inl wide
      · exact .inr ⟨t', done, fits⟩

/-! ## The refinement -/

namespace RangeMap

/-- The map is a tree whose elements in order are the list. -/
def Refines (m : RangeMap K V) (s : SortedRanges K V) : Prop :=
  ∃ t, m.Stores t ∧ t.HeightsFit ∧ t.entries = s.entries

theorem refines_init : (init : RangeMap K V).Refines .init :=
  ⟨.nil, stores_init, heightsFit_nil, rfl⟩

variable {m : RangeMap K V} {s : SortedRanges K V}

/-- The elements of the list are nodes of the map. -/
theorem Refines.fresh (refines : m.Refines s) {n : Addr} (unused : m.nodes.lookup n = none) :
    n ∉ s.entries.map Prod.fst := by
  obtain ⟨t, stores, _, same⟩ := refines
  rw [← same, map_fst_entries]
  intro member
  obtain ⟨cell, found⟩ := stores.rep.allocated n member
  simp [unused] at found

/-- An insertion whose heights fit is the same under both conversions. -/
theorem Refines.insert_runs (refines : m.Refines s) {n : Addr} (unused : m.nodes.lookup n = none)
    {min max : K} {val : V} (fits : m.insert exactInt8 (some n) min max val ≠ .error .narrow) :
    ∃ (t t' : AvlTree K V) (inserted : Bool) (m' : RangeMap K V), t.entries = s.entries ∧
      t.insert exactInt8 n ⟨min, max⟩ val = .ok (t', inserted) ∧
      t'.HeightsFit ∧ m.insert wrapInt8 (some n) min max val = .ok (m', inserted) ∧ m'.Stores t' ∧
      (inserted = false → m' = m) := by
  obtain ⟨t, stores, fit, same⟩ := refines
  obtain ⟨t', inserted, m', run, fit', done, stores', unchanged⟩ := insert_fits stores fit unused fits
  exact ⟨t, t', inserted, m', same, run, fit', done, stores', unchanged⟩

theorem Refines.insert_accepted (refines : m.Refines s) {n : Addr} (unused : m.nodes.lookup n = none)
    {min max : K} {val : V} (accepts : s.Accepts ⟨min, max⟩)
    (fits : m.insert exactInt8 (some n) min max val ≠ .error .narrow) :
    ∃ m', m.insert wrapInt8 (some n) min max val = .ok (m', true) ∧
      m'.Refines (s.insert n ⟨min, max⟩ val accepts (refines.fresh unused)) := by
  obtain ⟨t, t', inserted, m', same, run, fit', done, stores', _⟩ := refines.insert_runs unused fits
  rcases AvlTree.insert_entries (same ▸ s.ordered) run with
    ⟨rfl, pre, post, split, gained, below, above⟩ | ⟨rfl, rfl, e, member, apart⟩
  · refine ⟨m', done, t', stores', fit', ?_⟩
    obtain ⟨left, right⟩ := filter_sides below above
    simp only [SortedRanges.insert, ← same, split, left, right, gained]
  · exact absurd (accepts e (same ▸ member)) apart

theorem Refines.insert_rejected (refines : m.Refines s) {n : Addr} (unused : m.nodes.lookup n = none)
    {min max : K} {val : V} (rejects : ¬ s.Accepts ⟨min, max⟩)
    (fits : m.insert exactInt8 (some n) min max val ≠ .error .narrow) :
    m.insert wrapInt8 (some n) min max val = .ok (m, false) := by
  obtain ⟨t, t', inserted, m', same, run, _, done, _, unchanged⟩ := refines.insert_runs unused fits
  rcases AvlTree.insert_entries (same ▸ s.ordered) run with
    ⟨rfl, pre, post, split, gained, below, above⟩ | ⟨rfl, _⟩
  · refine absurd (fun e member => ?_) rejects
    rw [← same, split] at member
    exact (List.mem_append.mp member).imp (below e) (above e)
  · rw [unchanged rfl] at done
    exact done

theorem Refines.erase (refines : m.Refines s) {a : Addr} (member : a ∈ s.entries.map Prod.fst)
    (fits : m.erase exactInt8 (some a) ≠ .error .narrow) :
    ∃ m', m.erase wrapInt8 (some a) = .ok m' ∧ m'.Refines (s.erase a) := by
  obtain ⟨t, stores, fit, same⟩ := refines
  rw [← same, map_fst_entries] at member
  obtain ⟨erased, follows, agrees, fitOrNarrow⟩ := erase_follows stores member
  rcases fitOrNarrow fit with wide | ⟨t', run, fit'⟩
  · have := follows exactInt8
    simp only [wide] at this
    exact absurd this fits
  · have wrapped := follows wrapInt8
    simp only [agrees _ _ _ (fun x y => wrapInt8_of_exactInt8) run] at wrapped
    obtain ⟨m', done, stores', remaining⟩ := wrapped
    exact ⟨m', done, t', stores', fit', by rw [remaining, same]; rfl⟩

theorem Refines.find (refines : m.Refines s) (key : K) :
    (∃ e ∈ s.entries, m.find key = .ok (some e.1) ∧ e.2.1.Contains key) ∨
      (m.find key = .ok none ∧ ∀ e ∈ s.entries, ¬ e.2.1.Contains key) := by
  obtain ⟨t, stores, _, same⟩ := refines
  rw [← same]
  unfold RangeMap.find findNode
  rw [stores.root]
  exact findFrom_follows key stores.rep (same ▸ s.ordered) (size_lt_rounds stores.rep stores.nodup).le

/-- The maps that insertions and erasures make of the empty one while every stored height
fits. The node of an insertion is allocated at an address that no node has. -/
inductive Reachable : RangeMap K V → Prop
  | init : Reachable .init
  | insert (n : Addr) (min max : K) (val : V) {m m' : RangeMap K V} {inserted : Bool} :
    Reachable m → m.nodes.lookup n = none → min < max →
    m.insert exactInt8 (some n) min max val ≠ .error .narrow →
    m.insert wrapInt8 (some n) min max val = .ok (m', inserted) → Reachable m'
  | erase {m m' : RangeMap K V} {t : AvlTree K V} {a : Addr} :
    Reachable m → m.Stores t → a ∈ t.addrs →
    m.erase exactInt8 (some a) ≠ .error .narrow →
    m.erase wrapInt8 (some a) = .ok m' → Reachable m'

theorem Reachable.refines (reach : m.Reachable) : ∃ s, m.Refines s := by
  induction reach with
  | init => exact ⟨_, refines_init⟩
  | @insert n min max val m m' inserted _ unused _ fits run ih =>
    obtain ⟨s, refines⟩ := ih
    by_cases accepts : s.Accepts ⟨min, max⟩
    · obtain ⟨m₁, done, refines'⟩ := refines.insert_accepted unused accepts fits
      obtain ⟨rfl, rfl⟩ : m₁ = m' ∧ true = inserted := by simpa [done] using run
      exact ⟨_, refines'⟩
    · have done := refines.insert_rejected unused accepts fits
      obtain ⟨rfl, rfl⟩ : m = m' ∧ false = inserted := by simpa [done] using run
      exact ⟨s, refines⟩
  | @erase m m' t a _ stores member fits run ih =>
    obtain ⟨s, refines⟩ := ih
    have inList : a ∈ s.entries.map Prod.fst := by
      obtain ⟨t', stores', _, same⟩ := refines
      rw [← same, map_fst_entries, stores'.unique stores]
      exact member
    obtain ⟨m₁, done, refines'⟩ := refines.erase inList fits
    obtain rfl : m₁ = m' := by simpa [done] using run
    exact ⟨_, refines'⟩

/-- A reachable map is a sorted list: each operation has on it the outcome and the effect
that it has on the list. -/
theorem reachable_refines_sorted (reach : m.Reachable) :
    ∃ s : SortedRanges K V, m.Refines s ∧
      (∀ n min max val, m.nodes.lookup n = none → min < max →
        m.insert exactInt8 (some n) min max val ≠ .error .narrow →
        (∀ accepts : s.Accepts ⟨min, max⟩, ∃ fresh m',
          m.insert wrapInt8 (some n) min max val = .ok (m', true) ∧
            m'.Refines (s.insert n ⟨min, max⟩ val accepts fresh)) ∧
        (¬ s.Accepts ⟨min, max⟩ → m.insert wrapInt8 (some n) min max val = .ok (m, false))) ∧
      (∀ a ∈ s.entries.map Prod.fst, m.erase exactInt8 (some a) ≠ .error .narrow →
        ∃ m', m.erase wrapInt8 (some a) = .ok m' ∧ m'.Refines (s.erase a)) ∧
      (∀ key, (∃ e ∈ s.entries, m.find key = .ok (some e.1) ∧ e.2.1.Contains key) ∨
        (m.find key = .ok none ∧ ∀ e ∈ s.entries, ¬ e.2.1.Contains key)) := by
  obtain ⟨s, refines⟩ := reach.refines
  refine ⟨s, refines, ?_, fun a member fits => refines.erase member fits, refines.find⟩
  intro n min max val unused _ fits
  exact ⟨fun accepts => ⟨refines.fresh unused, refines.insert_accepted unused accepts fits⟩,
    fun rejects => refines.insert_rejected unused rejects fits⟩

/-- Insertions one after the other, as `Reachable` asks for them. -/
def Enters (m : RangeMap K V) (e : Entry K V) : Prop :=
  m.nodes.lookup e.1 = none ∧ e.2.1.min < e.2.1.max ∧
    m.insert exactInt8 (some e.1) e.2.1.min e.2.1.max e.2.2 ≠ .error .narrow

def enter (m : RangeMap K V) (e : Entry K V) : Except Fault (RangeMap K V) :=
  (m.insert wrapInt8 (some e.1) e.2.1.min e.2.1.max e.2.2).map Prod.fst

instance (m : RangeMap K V) (e : Entry K V) : Decidable (m.Enters e) := by
  unfold Enters
  infer_instance

theorem Reachable.enters {m' : RangeMap K V} (reach : m.Reachable) (run : Runs (· = m) Enters enter m') :
    m'.Reachable := by
  apply Runs.invariant _ _ run
  · rintro _ rfl
    exact reach
  · rintro m e m' reach ⟨unused, lt, fits⟩ entered
    unfold enter at entered
    cases outcome : m.insert wrapInt8 (some e.1) e.2.1.min e.2.1.max e.2.2 with
    | error fault => simp [outcome, Except.map] at entered
    | ok result =>
      obtain rfl : result.1 = m' := by simpa [outcome, Except.map] using entered
      exact .insert e.1 e.2.1.min e.2.1.max e.2.2 reach unused lt fits outcome

/-- Five insertions, the fourth of a range that is there already and the fifth with a rotation; then
the root is erased. The lookup of a key comes to its element. -/
theorem reachable_refines_sorted_rotated : ∃ m₁ m₂ m₃ : RangeMap Nat Nat,
    replay Enters enter .init [(1, ⟨40, 43⟩, 4), (2, ⟨30, 33⟩, 3), (3, ⟨20, 23⟩, 2), (4, ⟨30, 33⟩, 0)] = some m₁ ∧
      m₁.nodes.lookup 4 = none ∧ m₁.root = some 1 ∧ replay Enters enter m₁ [(4, ⟨10, 13⟩, 1)] = some m₂ ∧
      m₂.root = some 2 ∧ m₂.erase wrapInt8 (some 2) = .ok m₃ ∧
      ∃ s : SortedRanges Nat Nat, m₃.Refines s ∧ ∃ e ∈ s.entries, m₃.find 42 = .ok (some e.1) ∧ e.2.1.Contains 42 := by
  have computed : ((replay Enters enter (.init : RangeMap Nat Nat)
      [(1, ⟨40, 43⟩, 4), (2, ⟨30, 33⟩, 3), (3, ⟨20, 23⟩, 2), (4, ⟨30, 33⟩, 0)]).bind fun m₁ =>
      (replay Enters enter m₁ [(4, ⟨10, 13⟩, 1)]).bind fun m₂ => (m₂.erase wrapInt8 (some 2)).toOption.map fun m₃ =>
        (decide (m₁.nodes.lookup 4 = none ∧ m₁.root = some 1 ∧ m₂.root = some 2), decide (m₂.find 31 = .ok (some 2) ∧
          ¬ m₂.erase exactInt8 (some 2) = .error .narrow), decide (m₃.find 42 = .ok none))) =
      some (true, true, false) := by decide +kernel
  obtain ⟨m₁, first, computed⟩ := Option.bind_eq_some_iff.mp computed
  obtain ⟨m₂, last, computed⟩ := Option.bind_eq_some_iff.mp computed
  obtain ⟨m₃, erased, computed⟩ := Option.map_eq_some_iff.mp computed
  simp only [Prod.mk.injEq, decide_eq_true_eq, decide_eq_false_iff_not] at computed
  obtain ⟨⟨rejected, before, after⟩, ⟨root, fits⟩, found⟩ := computed
  have entered : m₂.Reachable :=
    (Reachable.init.enters (replay_runs _ (.start rfl) first)).enters (replay_runs _ (.start rfl) last)
  -- the lookup in the map before the erasure says that the root is an element of it
  obtain ⟨s, ⟨t, stores, _, same⟩, _, _, find⟩ := reachable_refines_sorted entered
  obtain ⟨e, member, here, _⟩ := (find 31).resolve_right fun missed => by simp [root] at missed
  have isRoot : 2 = e.1 := by simpa [root] using here
  have inTree : 2 ∈ t.addrs := by
    rw [← map_fst_entries, same, isRoot]
    exact List.mem_map_of_mem member
  obtain ⟨s', refines, _, _, find'⟩ :=
    reachable_refines_sorted (.erase entered stores inTree fits (ok_of_toOption erased))
  exact ⟨m₁, m₂, m₃, first, rejected, before, last, after, ok_of_toOption erased, s', refines,
    (find' 42).resolve_right fun missed => found missed.1⟩

end RangeMap

end SmallObject
