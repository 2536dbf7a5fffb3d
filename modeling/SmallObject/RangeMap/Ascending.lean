import SmallObject.RangeMap.Insert

/-! Insertions in ascending order, as in the second loop of `shrink`.

A new leaf has the stored height of an empty tree, so the heights are not those of a
textbook tree. Still the left subtrees along the right edge are level and full, the
right edge is at most one higher, and the stored heights are logarithmic in the size.
-/

set_option autoImplicit false

namespace SmallObject

open Linked AvlTree

variable {K V : Type}

namespace AvlTree

/-- The two subtrees of the root have the same stored height. -/
def Level : AvlTree K V → Prop
  | .nil => True
  | .node _ l _ r => height l = height r

/-- A level tree with as many nodes as its height wants. -/
def Full (t : AvlTree K V) : Prop := 0 ≤ t.height ∧ t.Level ∧ 2 ^ t.height.toNat ≤ t.size + 1

/-- The trees that ascending insertions make. -/
def Ascending : AvlTree K V → Prop
  | .nil => True
  | .node _ l x r => Full l ∧ Ascending r ∧ (height l = height r ∨ height l + 1 = height r) ∧
      (x.height = height r + 1 ∨ (x.height = 0 ∧ l = .nil ∧ r = .nil))

/-- The subtree that an insertion makes of another one: its height grows by one at most,
and when a subtree of some height grows, it leans to the right. -/
def Grown (t t' : AvlTree K V) : Prop :=
  Ascending t' ∧ t' ≠ .nil ∧ (t'.height = t.height ∨
    (t ≠ .nil ∧ t'.height = t.height + 1 ∧ (t.height = 0 ∨ ¬ t'.Level)))

section

variable {t r r' : AvlTree K V} {a : Addr} {l : AvlTree K V} {x : NodeData K V} {narrow : Narrowing}

theorem full_nil : Full (.nil : AvlTree K V) := ⟨by simp, trivial, by simp⟩

theorem Ascending.height_nonneg (ascending : t.Ascending) : 0 ≤ t.height := by
  induction t with
  | nil => simp
  | node a l x r _ ihr =>
    obtain ⟨_, right, _, tall | ⟨flat, _⟩⟩ := ascending
    · have := ihr right
      simp only [height_node] at this ⊢
      omega
    · simp [flat]

theorem Ascending.height_le (ascending : t.Ascending) (few : t.size ≤ 2 ^ 64) : t.height ≤ 66 := by
  cases t with
  | nil => simp
  | node a l x r =>
    obtain ⟨⟨nonneg, _, full⟩, _, lean, tall⟩ := ascending
    have bound : height l ≤ 64 := by
      by_contra high
      have : 65 ≤ (height l).toNat := by omega
      have := Nat.pow_le_pow_right (n := 2) (by decide) this
      rw [LinkTree.size_node] at few
      omega
    simp only [height_node] at *
    omega

/-- Both conversions that are made while a node with these subtrees is balanced keep the value. -/
theorem fixHeight_keeps (keeps : ∀ z, -128 ≤ z → z ≤ 127 → narrow z = .ok z) (low : 0 ≤ l.height)
    (order : l.height ≤ r.height) (high : r.height ≤ 126) :
    fixHeight narrow (.node a l x r) = .ok (.node a l { x with height := r.height + 1 } r) := by
  have larger : (if height l > height r then height l else height r) = height r := if_neg (by omega)
  simp [fixHeight, larger, keeps (height r + 1) (by omega) (by omega)]

/-- The outer factor of a full tree never asks for a double rotation. -/
theorem Full.factor_eq (full : Full l) (keeps : ∀ z, -128 ≤ z → z ≤ 127 → narrow z = .ok z) :
    factor narrow l = .ok 0 := by
  cases l with
  | nil => rfl
  | node c ll z lr =>
    have same : height ll = height lr := full.2.1
    have zero : height ll - height lr = 0 := by omega
    simp only [factor, zero]
    exact keeps 0 (by omega) (by omega)

/-- The right subtree is two higher than the left one and leans to the right: a single
rotation makes the left half full again. -/
theorem turn_ascending (keeps : ∀ z, -128 ≤ z → z ≤ 127 → narrow z = .ok z) (full : Full l)
    (ascending : r.Ascending) (leans : ¬ r.Level) (apart : l.height + 2 = r.height) (high : r.height ≤ 126) :
    ∃ t', rotate narrow (-2) (.node a l x r) = .ok t' ∧ t'.Ascending ∧ t' ≠ .nil ∧ t'.height = r.height := by
  cases r with
  | nil => exact absurd trivial leans
  | node b m y s =>
    obtain ⟨fullM, ascendingS, leanM, tallM⟩ := ascending
    have steep : height m + 1 = height s := leanM.resolve_left leans
    have tall : y.height = height s + 1 := tallM.resolve_right (by
      rintro ⟨_, rfl, rfl⟩
      simp at steep)
    simp only [height_node] at apart high ⊢
    have nonneg := full.1
    have nonnegM := fullM.1
    have nonnegS := ascendingS.height_nonneg
    have levelM : height l = height m := by omega
    have lowered := fixHeight_keeps (a := a) (x := x) (r := m) keeps nonneg (by omega) (by omega)
    have lifted := fixHeight_keeps (a := b) (x := y) (r := s)
      (l := .node a l { x with height := height m + 1 } m) keeps (by simp only [height_node]; omega)
      (by simp only [height_node]; omega) (by omega)
    -- the lowered node has two full subtrees of one height
    have fullLeft : Full (.node a l { x with height := height m + 1 } m) := by
      refine ⟨?_, levelM, ?_⟩
      · simp only [height_node]
        omega
      · have left := full.2.2
        have middle := fullM.2.2
        rw [levelM] at left
        simp only [height_node, LinkTree.size_node]
        rw [show (height m + 1).toNat = (height m).toNat + 1 by omega, Nat.pow_succ]
        omega
    refine ⟨.node b (.node a l { x with height := height m + 1 } m) { y with height := height s + 1 } s, ?_,
      ⟨fullLeft, ascendingS, ?_, .inl rfl⟩, by simp, tall.symm⟩
    · simp only [rotate, if_neg (show ¬ (-2 : Int) = 2 by decide), if_true, full.factor_eq keeps, ok_bind,
        if_neg (show ¬ (0 : Int) > 0 by decide), rotateRight]
      rw [lowered, ok_bind, lifted]
    · simp only [height_node]
      omega

/-- Balancing a node of the right edge after its right subtree has grown. -/
theorem balance_ascending (keeps : ∀ z, -128 ≤ z → z ≤ 127 → narrow z = .ok z)
    (ascending : Ascending (.node a l x r)) (grown : Grown r r') (high : r'.height ≤ 126) :
    ∃ t', balance narrow (.node a l x r') = .ok t' ∧ Grown (.node a l x r) t' := by
  obtain ⟨full, right, lean, tall⟩ := ascending
  obtain ⟨ascending', present, growth⟩ := grown
  have nonneg := full.1
  have order : height l ≤ height r' := by
    rcases growth with same | ⟨_, more, _⟩ <;> omega
  have fixed := fixHeight_keeps (a := a) (x := x) keeps nonneg order high
  have factored : factor narrow (.node a l { x with height := height r' + 1 } r') =
      .ok (height l - height r') := keeps _ (by omega) (by omega)
  simp only [balance, fixed, factored, ok_bind]
  by_cases turned : height l - height r' = -2
  · obtain ⟨some, one, steep⟩ : r ≠ .nil ∧ height r' = height r + 1 ∧ ¬ r'.Level := by
      rcases growth with same | ⟨some, more, zero | steep⟩
      · omega
      · omega
      · exact ⟨some, more, steep⟩
    obtain ⟨t', run, ascends, inhabited, level⟩ := turn_ascending (a := a) (x := { x with height := height r' + 1 })
      keeps full ascending' steep (by omega) high
    refine ⟨t', by rw [turned, run], ascends, inhabited, .inl ?_⟩
    have tall := tall.resolve_right fun edge => some edge.2.2
    rw [level, height_node]
    omega
  · refine ⟨.node a l { x with height := height r' + 1 } r', ?_, ?_, by simp, ?_⟩
    · have notLeft : ¬ height l - height r' = 2 := by omega
      simp [rotate, notLeft, turned]
    · exact ⟨full, ascending', by omega, .inl rfl⟩
    · simp only [height_node]
      rcases growth with same | ⟨some, more, _⟩
      · -- as high as before: the node keeps its height, unless it was a leaf with height 0
        rcases tall with tall | ⟨zero, _, none⟩
        · exact .inl (by omega)
        · exact .inr ⟨by simp, by rw [same, none, zero]; rfl, .inl zero⟩
      · have tall := tall.resolve_right fun edge => some edge.2.2
        refine .inr ⟨by simp, by omega, .inr ?_⟩
        simp only [Level]
        omega

end

/-! ## The insertion -/

section Insert

variable {narrow : Narrowing} {t : AvlTree K V}

variable (range : Range K) (mapped : V) (n : Addr)

theorem leaf_grown : Grown (.nil : AvlTree K V) (leaf n range mapped) :=
  ⟨⟨full_nil, trivial, .inl rfl, .inr ⟨rfl, rfl, rfl⟩⟩, by simp [leaf], .inl rfl⟩

variable [LinearOrder K]

/-- A range after all others goes down the right edge, and the edge is balanced on the way up. -/
theorem attachPoint_ascending (keeps : ∀ z, -128 ≤ z → z ≤ 127 → narrow z = .ok z) (present : t ≠ .nil)
    (ascending : t.Ascending) (low : t.height ≤ 124) (last : ∀ e ∈ t.entries, e.2.1.Before range)
    (ctx : Context (NodeData K V)) :
    ∃ f inner t', attachPoint range t ctx = some (f :: inner ++ ctx) ∧
      unwind narrow (inner ++ ctx) (f.plug (leaf n range mapped)) = resume narrow ctx t' ∧ Grown t t' := by
  induction t generalizing ctx with
  | nil => exact absurd rfl present
  | node a l x r _ ihr =>
    have here : range.compareTo x.range = 1 := Range.compareTo_eq_one.mpr (last (a, x.range, x.mapped) (by simp))
    obtain ⟨_, right, lean, tall⟩ := id ascending
    have shorter : height r ≤ 124 := by
      rw [height_node] at low
      rcases tall with tall | ⟨_, _, rfl⟩
      · omega
      · simp
    simp only [attachPoint, here, if_neg (show ¬ (1 : Int) = 0 by decide), if_true]
    -- the new leaf is hung here, or further down the right edge
    by_cases edge : r = .nil
    · subst edge
      obtain ⟨t', balanced, grown⟩ := balance_ascending keeps ascending
        (leaf_grown range mapped n) (by simp [leaf])
      refine ⟨⟨.right, a, x, l⟩, [], t', rfl, ?_, grown⟩
      rw [List.nil_append, unwind_eq]
      simp [Frame.plug, balanced]
    · obtain ⟨f, inner, r', attached, unwound, grown⟩ := ihr edge right shorter
        (fun e member => last e (by simp [member])) (⟨.right, a, x, l⟩ :: ctx)
      have high : height r' ≤ 126 := by
        rcases grown.2.2 with same | ⟨_, more, _⟩ <;> omega
      obtain ⟨t', balanced, grown'⟩ := balance_ascending keeps ascending grown high
      refine ⟨f, inner ++ [⟨.right, a, x, l⟩], t', by simpa using attached, ?_, grown'⟩
      rw [List.append_assoc, List.singleton_append, unwound, resume, unwind_eq]
      simp [Frame.plug, balanced]

/-- Such an insertion completes, adds the range at the end, and leaves the same kind of tree. -/
theorem insert_ascending (keeps : ∀ z, -128 ≤ z → z ≤ 127 → narrow z = .ok z) (ascending : t.Ascending)
    (few : t.size ≤ 2 ^ 64) (ordered : Ordered t.entries) (last : ∀ e ∈ t.entries, e.2.1.Before range) :
    ∃ t', t.insert narrow n range mapped = .ok (t', true) ∧ t'.Ascending ∧
      t'.entries = t.entries ++ [(n, range, mapped)] := by
  have inserted : ∃ t', t.insert narrow n range mapped = .ok (t', true) ∧ t'.Ascending := by
    by_cases empty : t = .nil
    · subst empty
      exact ⟨_, rfl, (leaf_grown range mapped n).1⟩
    · have short := ascending.height_le few
      obtain ⟨f, inner, t', attached, unwound, grown⟩ := attachPoint_ascending range mapped n keeps empty
        ascending (by omega) last []
      rw [List.append_nil] at attached unwound
      exact ⟨t', by simp [AvlTree.insert, attached, unwound, resume], grown.1⟩
  obtain ⟨t', run, ascending'⟩ := inserted
  refine ⟨t', run, ascending', ?_⟩
  rcases AvlTree.insert_entries ordered run with ⟨_, pre, post, split, gained, _, above⟩ | ⟨no, _⟩
  · have none : post = [] := by
      rw [List.eq_nil_iff_forall_not_mem]
      intro e member
      exact (above e member).asymm (last e (by simp [split, member]))
    subst none
    rw [gained, split, List.append_nil]
  · simp at no

end Insert

end AvlTree

end SmallObject
