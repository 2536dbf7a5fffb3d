import Mathlib.Data.List.Nodup

/-! Lists of nodes that are linked forward, and back again.

The forward links lead from a pointer through the nodes in order; the back link of each
node names the node before it. A null pointer ends a list on either side.
-/

set_option autoImplicit false

namespace Chain

variable {α : Type}

/-- The forward links lead from the first pointer through the nodes in order to the last one. -/
def Leads (next : α → Option α) : Option α → List α → Option α → Prop
  | p, [], q => p = q
  | p, a :: rest, q => p = some a ∧ Leads next (next a) rest q

/-- The back link of each node names the node before it, and that of the first one `above`. -/
def Back (prev : α → Option α) : Option α → List α → Prop
  | _, [] => True
  | above, a :: rest => prev a = above ∧ Back prev (some a) rest

section Forward

variable {next next' : α → Option α} {p q : Option α} {a b c : α} {xs ys : List α}

@[simp] theorem leads_nil : Leads next p [] q ↔ p = q := Iff.rfl

@[simp] theorem leads_cons : Leads next p (a :: xs) q ↔ p = some a ∧ Leads next (next a) xs q := Iff.rfl

theorem Leads.congr (leads : Leads next p xs q) (same : ∀ a ∈ xs, next' a = next a) : Leads next' p xs q := by
  induction xs generalizing p with
  | nil => exact leads
  | cons a rest ih =>
    obtain ⟨first, onward⟩ := leads
    refine ⟨first, ?_⟩
    rw [same a List.mem_cons_self]
    exact ih onward fun b member => same b (List.mem_cons_of_mem _ member)

theorem leads_append : Leads next p (xs ++ ys) q ↔ ∃ m, Leads next p xs m ∧ Leads next m ys q := by
  induction xs generalizing p with
  | nil => simp
  | cons a rest ih => simp [ih, and_assoc]

theorem Leads.head (leads : Leads next p xs none) : p = xs.head? := by
  cases xs with
  | nil => exact leads
  | cons a rest => exact leads.1

/-- A pointer leads through one list of nodes only. -/
theorem Leads.unique (leads : Leads next p xs none) (leads' : Leads next p ys none) : xs = ys := by
  induction xs generalizing p ys with
  | nil =>
    cases ys with
    | nil => rfl
    | cons b rest => exact absurd (leads.symm.trans leads'.1) (by simp)
  | cons a rest ih =>
    cases ys with
    | nil => exact absurd (leads'.symm.trans leads.1) (by simp)
    | cons b rest' =>
      obtain rfl : a = b := Option.some.inj (leads.1.symm.trans leads'.1)
      rw [ih leads.2 leads'.2]

theorem Leads.next_eq (leads : Leads next p (xs ++ a :: ys) none) : next a = ys.head? := by
  obtain ⟨_, _, _, onward⟩ := leads_append.mp leads
  exact onward.head

/-- A node is taken out by linking the one before it to the one after it. -/
theorem Leads.unlink (leads : Leads next p (xs ++ a :: b :: c :: ys) q) (nodup : (xs ++ a :: b :: c :: ys).Nodup)
    (linked : next' a = some c) (same : ∀ d, d ≠ a → d ≠ b → next' d = next d) :
    Leads next' p (xs ++ a :: c :: ys) q := by
  obtain ⟨_, after, across⟩ := List.nodup_append.mp nodup
  obtain ⟨first, onward⟩ := List.nodup_cons.mp after
  obtain ⟨second, _⟩ := List.nodup_cons.mp onward
  obtain ⟨m, before, reaches, _, _, last⟩ := leads_append.mp leads
  have kept : ∀ d ∈ c :: ys, next' d = next d := fun d member =>
    same d (fun here => first (List.mem_cons_of_mem _ (here ▸ member))) fun here => second (here ▸ member)
  refine leads_append.mpr ⟨m, before.congr fun d member => ?_, reaches, ?_⟩
  · exact same d (across d member a (by simp)) (across d member b (by simp))
  · rw [linked]
    refine ⟨rfl, ?_⟩
    rw [kept c List.mem_cons_self]
    exact last.congr fun d member => kept d (List.mem_cons_of_mem _ member)

end Forward

section Backward

variable {prev prev' : α → Option α} {above : Option α} {a b c : α} {xs ys : List α}

@[simp] theorem back_nil : Back prev above [] := trivial

@[simp] theorem back_cons : Back prev above (a :: xs) ↔ prev a = above ∧ Back prev (some a) xs := Iff.rfl

theorem Back.congr (back : Back prev above xs) (same : ∀ a ∈ xs, prev' a = prev a) : Back prev' above xs := by
  induction xs generalizing above with
  | nil => trivial
  | cons a rest ih =>
    obtain ⟨first, onward⟩ := back
    exact ⟨(same a List.mem_cons_self).trans first, ih onward fun b member => same b (List.mem_cons_of_mem _ member)⟩

theorem back_append : Back prev above (xs ++ ys) ↔ Back prev above xs ∧ Back prev (xs.getLast?.or above) ys := by
  induction xs generalizing above with
  | nil => simp
  | cons a rest ih =>
    simp only [List.cons_append, back_cons, ih, and_assoc]
    cases rest with
    | nil => simp
    | cons b rest => simp [List.getLast?_cons]

theorem Back.prev_eq (back : Back prev none (xs ++ a :: ys)) : prev a = xs.getLast? := by
  simpa using (back_append.mp back).2.1

/-- A node is taken out by linking the one after it back to the one before it. -/
theorem Back.unlink (back : Back prev above (xs ++ a :: b :: c :: ys)) (nodup : (xs ++ a :: b :: c :: ys).Nodup)
    (linked : prev' c = some a) (same : ∀ d, d ≠ b → d ≠ c → prev' d = prev d) :
    Back prev' above (xs ++ a :: c :: ys) := by
  obtain ⟨_, after, across⟩ := List.nodup_append.mp nodup
  obtain ⟨first, onward⟩ := List.nodup_cons.mp after
  obtain ⟨second, rest⟩ := List.nodup_cons.mp onward
  obtain ⟨before, here, _, _, last⟩ := back_append.mp back
  refine back_append.mpr ⟨before.congr fun d member => ?_, ?_, linked, last.congr fun d member => ?_⟩
  · exact same d (across d member b (by simp)) (across d member c (by simp))
  · exact (same a (fun here => first (by simp [here])) fun here => first (by simp [here])).trans here
  · exact same d (fun here => second (here ▸ List.mem_cons_of_mem _ member)) fun here =>
      (List.nodup_cons.mp rest).1 (here ▸ member)

end Backward

/-- A doubly linked list: forward and back links are the same pairs of nodes, and no node
is before the first one. -/
structure Doubly (next prev : α → Option α) (head : Option α) (xs : List α) : Prop where
  mutual_links : ∀ x ∈ xs, ∀ y ∈ xs, next y = some x ↔ prev x = some y
  first : ∀ a, head = some a → prev a = none

theorem Back.doubly {next prev : α → Option α} {head : Option α} {xs : List α} (back : Back prev none xs)
    (leads : Leads next head xs none) : Doubly next prev head xs where
  mutual_links x isX y isY := by
    constructor
    · intro forward
      obtain ⟨pre, post, rfl⟩ := List.append_of_mem isY
      -- the node after `y` is the head of what follows it
      obtain ⟨rest, rfl⟩ : ∃ rest, post = x :: rest := List.head?_eq_some_iff.mp (leads.next_eq.symm.trans forward)
      have again : Back prev none ((pre ++ [y]) ++ x :: rest) := by simpa using back
      simpa using again.prev_eq
    · intro backward
      obtain ⟨pre, post, rfl⟩ := List.append_of_mem isX
      obtain ⟨rest, rfl⟩ : ∃ rest, pre = rest ++ [y] := List.getLast?_eq_some_iff.mp (back.prev_eq.symm.trans backward)
      have again : Leads next head (rest ++ y :: x :: post) none := by simpa using leads
      simpa using again.next_eq
  first a heads := by
    cases xs with
    | nil => exact absurd (heads.symm.trans leads) (by simp)
    | cons b rest =>
      obtain rfl : a = b := Option.some.inj (heads.symm.trans leads.1)
      exact back.1

end Chain
