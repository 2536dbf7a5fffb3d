import SmallObject.RangeMap.Iterate

/-! Ranges that overlap: what insertion lets through, and what lookups say then.

Insertion rejects a range only when it contains a stored one or is contained in one, so
stored ranges can overlap. They are a chain in both bounds all the same, and an element
stays where it is in the chain. The answer for a key in several ranges is one of them,
and may be another one after a rotation.
-/

set_option autoImplicit false

namespace SmallObject

open Linked AvlTree

variable {K V : Type} [LinearOrder K]

namespace Range

/-- No key is in both of the closed ranges. -/
def Apart (r s : Range K) : Prop := ∀ key, ¬ (r.Contains key ∧ s.Contains key)

/-- Ranges without a common key are comparable, if none of them is empty. -/
theorem Apart.comparable {r s : Range K} (apart : r.Apart s) (proper : r.min < r.max) (proper' : s.min < s.max) :
    Comparable r s := by
  rcases lt_or_ge r.max s.min with below | meets
  · exact .inr ⟨proper.trans below, below.trans proper'⟩
  · rcases lt_or_ge s.max r.min with above | meets'
    · exact .inl ⟨proper'.trans above, above.trans proper⟩
    · rcases le_total r.min s.min with first | first
      · exact absurd ⟨⟨first, meets⟩, le_refl _, proper'.le⟩ (apart s.min)
      · exact absurd ⟨⟨le_refl _, proper.le⟩, first, meets'⟩ (apart r.min)

end Range

namespace RangeMap

/-- The second map comes from the first one by insertions of ranges that return. The node of each
is allocated at an address that no node has. -/
inductive Grows (m : RangeMap K V) : RangeMap K V → Prop
  | refl : Grows m m
  | insert (n : Addr) (min max : K) (val : V) {m' m'' : RangeMap K V} {inserted : Bool} :
    Grows m m' → m'.nodes.lookup n = none → min < max →
    m'.insert wrapInt8 (some n) min max val = .ok (m'', inserted) → Grows m m''

variable {m m' : RangeMap K V} {t : AvlTree K V}

/-- A tree of proper ranges in order. -/
structure Sorted (m : RangeMap K V) (t : AvlTree K V) : Prop where
  stores : m.Stores t
  ordered : Ordered t.entries
  proper : ∀ e ∈ t.entries, e.2.1.min < e.2.1.max

theorem sorted_init : (init : RangeMap K V).Sorted .nil := ⟨stores_init, .nil, by simp⟩

/-- Insertion accepts a range exactly when it is before or after each stored one in both bounds. -/
theorem Sorted.insert (sorted : m.Sorted t) {n : Addr} {min max : K} {val : V} {inserted : Bool}
    (unused : m.nodes.lookup n = none) (proper : min < max)
    (run : m.insert wrapInt8 (some n) min max val = .ok (m', inserted)) :
    (inserted = true ↔ ∀ e ∈ t.entries, Comparable ⟨min, max⟩ e.2.1) ∧
      ∃ t', m'.Sorted t' ∧ t.entries ⊆ t'.entries := by
  obtain ⟨t', stores', ordered', ⟨rfl, pre, post, split, gained⟩ | ⟨rfl, _, rfl, e, member, rejected⟩⟩ :=
    insert_stores sorted.stores sorted.ordered unused run
  · have inNew : ∀ e ∈ t'.entries, e = (n, ⟨min, max⟩, val) ∨ e ∈ t.entries := by
      intro e member
      rw [gained] at member
      simp only [split, List.mem_append, List.mem_cons] at member ⊢
      tauto
    refine ⟨⟨fun _ e member => ?_, fun _ => rfl⟩, t', ⟨stores', ordered', fun e member => ?_⟩, fun e member => ?_⟩
    · -- the new element stands between those before it and those after it
      rw [gained] at ordered'
      obtain ⟨_, after, across⟩ := List.pairwise_append.mp ordered'
      rcases List.mem_append.mp (split ▸ member) with below | above
      · exact .inl (across e below _ List.mem_cons_self)
      · exact .inr ((List.pairwise_cons.mp after).1 e above)
    · rcases inNew e member with rfl | old
      · exact proper
      · exact sorted.proper e old
    · rw [gained]
      simp only [split, List.mem_append, List.mem_cons] at member ⊢
      tauto
  · exact ⟨⟨fun accepted => by simp at accepted, fun all => absurd (all e member) rejected⟩,
      t', ⟨stores', ordered', sorted.proper⟩, List.Subset.refl _⟩

theorem Grows.trans {m'' : RangeMap K V} (first : Grows m m') (second : Grows m' m'') : Grows m m'' := by
  induction second with
  | refl => exact first
  | insert n min max val _ unused proper run ih => exact ih.insert n min max val unused proper run

/-- Elements stay in the map, and in order. -/
theorem Grows.sorted (grows : Grows m m') (sorted : m.Sorted t) : ∃ t', m'.Sorted t' ∧ t.entries ⊆ t'.entries := by
  induction grows with
  | refl => exact ⟨t, sorted, List.Subset.refl _⟩
  | insert n min max val _ unused proper run ih =>
    obtain ⟨t₁, sorted₁, kept₁⟩ := ih
    obtain ⟨_, t₂, sorted₂, kept₂⟩ := sorted₁.insert unused proper run
    exact ⟨t₂, sorted₂, List.Subset.trans kept₁ kept₂⟩

/-- A key that is in a stored range is found in one of the ranges that it is in. -/
theorem Sorted.find (sorted : m.Sorted t) {e : Entry K V} (member : e ∈ t.entries) {key : K}
    (inside : e.2.1.Contains key) : ∃ f ∈ t.entries, m.find key = .ok (some f.1) ∧ f.2.1.Contains key := by
  have stores := sorted.stores
  unfold RangeMap.find findNode
  rw [stores.root]
  rcases findFrom_follows key stores.rep sorted.ordered (size_lt_rounds stores.rep stores.nodup).le with
    found | ⟨_, none⟩
  · exact found
  · exact absurd inside (none e member)

/-- What a run of insertions into the empty map comes to, at any time of it: which ranges are
accepted, that stored ranges are a chain in both bounds, and what lookups answer from then on. -/
theorem grows_chain (grows : Grows .init m) :
    ∃ t, m.Stores t ∧ Ordered t.entries ∧
      (∀ n min max val, m.nodes.lookup n = none → min < max →
        (∀ m' inserted, m.insert wrapInt8 (some n) min max val = .ok (m', inserted) →
          (inserted = true ↔ ∀ e ∈ t.entries, Comparable ⟨min, max⟩ e.2.1) ∧
          ((∀ e ∈ t.entries, Range.Apart ⟨min, max⟩ e.2.1) → inserted = true)) ∧
        (t.HeightsFit → m.insert exactInt8 (some n) min max val ≠ .error .narrow →
          ∃ m' inserted, m.insert wrapInt8 (some n) min max val = .ok (m', inserted))) ∧
      ∀ e ∈ t.entries, ∀ key, e.2.1.Contains key → ∀ m', Grows m m' → ∃ t', m'.Stores t' ∧ e ∈ t'.entries ∧
        (∃ f ∈ t'.entries, m'.find key = .ok (some f.1) ∧ f.2.1.Contains key) ∧
        ((∀ f ∈ t'.entries, f.2.1.Contains key → f = e) → m'.find key = .ok (some e.1)) := by
  obtain ⟨t, sorted, _⟩ := grows.sorted sorted_init
  refine ⟨t, sorted.stores, sorted.ordered, fun n min max val unused proper => ⟨fun m' inserted run => ?_,
    fun fit fits => ?_⟩, fun e member key inside m' later => ?_⟩
  · have accepted := (sorted.insert unused proper run).1
    exact ⟨accepted, fun apart => accepted.mpr fun e member =>
      (apart e member).comparable proper (sorted.proper e member)⟩
  · obtain ⟨_, inserted, m', _, _, run, _⟩ := insert_fits sorted.stores fit unused fits
    exact ⟨m', inserted, run⟩
  · obtain ⟨t', sorted', kept⟩ := later.sorted sorted
    obtain ⟨f, member', found, inside'⟩ := sorted'.find (kept member) inside
    refine ⟨t', sorted'.stores, kept member, ⟨f, member', found, inside'⟩, fun only => ?_⟩
    rw [found, only f member' inside']

/-- A range without a common key is accepted beside the first one, and a key of that one is found. -/
theorem grows_chain_pair :
    ∃ m m' : RangeMap Nat Nat, init.insert wrapInt8 (some 10) 1 3 0 = .ok (m, true) ∧
      m.insert wrapInt8 (some 11) 4 6 1 = .ok (m', true) ∧
      (∀ e ∈ entries (leaf 10 (⟨1, 3⟩ : Range Nat) 0), Comparable ⟨4, 6⟩ e.2.1) ∧
      ∃ a, m'.find 2 = .ok (some a) := by
  refine ⟨_, _, rfl, rfl, ?_⟩
  obtain ⟨t, stores, _, accepts, finds⟩ := grows_chain (.insert 10 1 3 0 .refl rfl (by decide) rfl)
  have same : t = leaf 10 ⟨1, 3⟩ 0 := stores.unique ⟨rfl, by simp [Represents, leaf]; decide, by decide⟩
  subst same
  refine ⟨((accepts 11 4 6 1 rfl (by decide)).1 _ _ rfl).1.mp rfl, ?_⟩
  obtain ⟨_, _, _, ⟨f, _, found, _⟩, _⟩ := finds (10, ⟨1, 3⟩, 0) (by decide) 2 ⟨by decide, by decide⟩ _
    (.insert 11 4 6 1 .refl rfl (by decide) rfl)
  exact ⟨f.1, found⟩

/-- The second range is accepted with four keys of the first one. Two more turn the tree, and a key
that was found in the first element is found in the second one. -/
theorem overlap_accepted :
    ∃ m₁ m₂ m₄ : RangeMap Nat Nat, init.insert wrapInt8 (some 10) 1 5 0 = .ok (m₁, true) ∧
      m₁.insert wrapInt8 (some 11) 2 6 1 = .ok (m₂, true) ∧ ¬ Range.Apart ⟨2, 6⟩ ⟨1, 5⟩ ∧
      insertAll m₂ [(12, ⟨3, 7⟩, 2), (13, ⟨4, 8⟩, 3)] = .ok m₄ ∧
      m₁.find 4 = .ok (some 10) ∧ m₄.find 4 = .ok (some 11) := by
  refine ⟨_, _, _, rfl, rfl, fun apart => apart 2 ?_, rfl, rfl, rfl⟩
  exact ⟨⟨by decide, by decide⟩, by decide, by decide⟩

end RangeMap

end SmallObject
