import SmallObject.RangeMap.Rebalance

/-! What rebalancing keeps: the sequence of elements, and the range of the stored heights.

Nothing here depends on the shape being balanced. A rotation never reorders; and as
long as every height that is computed fits `int8_t`, no rotation is tried on a node
that lacks the child to be lifted.
-/

set_option autoImplicit false

namespace SmallObject

open Linked

variable {K V : Type}

namespace AvlTree

/-- The elements in order, each with the address of its node. -/
def entries (t : AvlTree K V) : List (Addr × Range K × V) :=
  t.toList.map fun e => (e.1, e.2.range, e.2.mapped)

@[simp] theorem entries_nil : entries (.nil : AvlTree K V) = [] := rfl

@[simp] theorem entries_node (a : Addr) (l r : AvlTree K V) (x : NodeData K V) :
    entries (.node a l x r) = l.entries ++ (a, x.range, x.mapped) :: r.entries := by
  simp [entries]

theorem map_fst_entries (t : AvlTree K V) : t.entries.map Prod.fst = t.addrs := by
  simp [entries, LinkTree.addrs]

theorem entries_plug (ctx : Context (NodeData K V)) (t : AvlTree K V) :
    entries (ctx.plug t) = (ctx.before.map fun e => (e.1, e.2.range, e.2.mapped)) ++ t.entries ++
      (ctx.after.map fun e => (e.1, e.2.range, e.2.mapped)) := by
  simp [entries, Context.toList_plug]

theorem entries_frame_plug (f : Frame (NodeData K V)) {t t' : AvlTree K V}
    (same : t'.entries = t.entries) : entries (f.plug t') = entries (f.plug t) := by
  obtain ⟨side, a, x, s⟩ := f
  cases side <;> simp [Frame.plug, same]

section

variable {narrow : Narrowing} {t t' : AvlTree K V}

theorem fixHeight_node {a : Addr} {l r : AvlTree K V} {x : NodeData K V}
    (run : fixHeight narrow (.node a l x r) = .ok t') :
    ∃ fixed, narrow ((if height l > height r then height l else height r) + 1) = .ok fixed ∧
      t' = .node a l { x with height := fixed } r := by
  obtain ⟨fixed, narrowed, done⟩ := bind_eq_ok run
  exact ⟨fixed, narrowed, (Except.ok.inj done).symm⟩

theorem fixHeight_entries (run : fixHeight narrow t = .ok t') : t'.entries = t.entries := by
  cases t with
  | nil => simp [fixHeight] at run
  | node a l x r =>
    obtain ⟨_, _, rfl⟩ := fixHeight_node run
    simp

theorem rotateRight_entries (run : rotateRight narrow t = .ok t') : t'.entries = t.entries := by
  unfold rotateRight at run
  split at run
  · obtain ⟨lowered, first, second⟩ := bind_eq_ok run
    rw [fixHeight_entries second]
    simp [fixHeight_entries first]
  · simp at run

theorem rotateLeft_entries (run : rotateLeft narrow t = .ok t') : t'.entries = t.entries := by
  unfold rotateLeft at run
  split at run
  · obtain ⟨lowered, first, second⟩ := bind_eq_ok run
    rw [fixHeight_entries second]
    simp [fixHeight_entries first]
  · simp at run

theorem rotate_entries {f : Int} (run : rotate narrow f t = .ok t') : t'.entries = t.entries := by
  cases t with
  | nil => simp [rotate] at run
  | node a l x r =>
    simp only [rotate] at run
    split at run
    · obtain ⟨inner, _, rest⟩ := bind_eq_ok run
      split at rest
      · obtain ⟨lifted, first, second⟩ := bind_eq_ok rest
        rw [rotateLeft_entries second]
        simp [rotateRight_entries first]
      · exact rotateLeft_entries rest
    · split at run
      · obtain ⟨inner, _, rest⟩ := bind_eq_ok run
        split at rest
        · obtain ⟨lifted, first, second⟩ := bind_eq_ok rest
          rw [rotateRight_entries second]
          simp [rotateLeft_entries first]
        · exact rotateRight_entries rest
      · rw [← Except.ok.inj run]

theorem balance_entries (run : balance narrow t = .ok t') : t'.entries = t.entries := by
  obtain ⟨fixed, first, rest⟩ := bind_eq_ok run
  obtain ⟨f, _, last⟩ := bind_eq_ok rest
  rw [rotate_entries last, fixHeight_entries first]

/-- Rebalancing never reorders, adds or drops an element. -/
theorem unwind_entries {ctx : Context (NodeData K V)} (run : unwind narrow ctx t = .ok t') :
    t'.entries = entries (ctx.plug t) := by
  induction ctx generalizing t with
  | nil => exact balance_entries run
  | cons f fs ih =>
    obtain ⟨balanced, first, rest⟩ := bind_eq_ok run
    rw [ih rest, Context.plug_cons, entries_plug, entries_plug,
      entries_frame_plug f (balance_entries first)]

end

/-- What `unwind` does once the node at a position is balanced. -/
def resume (narrow : Narrowing) : Context (NodeData K V) → AvlTree K V → Except Fault (AvlTree K V)
  | [], t => .ok t
  | f :: fs, t => unwind narrow fs (f.plug t)

theorem unwind_eq (narrow : Narrowing) (ctx : Context (NodeData K V)) (t : AvlTree K V) :
    unwind narrow ctx t = (balance narrow t >>= resume narrow ctx) := by
  cases ctx with
  | nil => simp only [unwind]; cases balance narrow t <;> rfl
  | cons f fs => rfl

/-! ## One narrowing that agrees with another -/

section

variable {narrow wider : Narrowing} {t t' : AvlTree K V}

theorem fixHeight_agrees (agree : ∀ x y, narrow x = .ok y → wider x = .ok y)
    (run : fixHeight narrow t = .ok t') : fixHeight wider t = .ok t' := by
  cases t with
  | nil => simp [fixHeight] at run
  | node a l x r =>
    obtain ⟨fixed, narrowed, rfl⟩ := fixHeight_node run
    simp [fixHeight, agree _ _ narrowed]

theorem factor_agrees (agree : ∀ x y, narrow x = .ok y → wider x = .ok y) {f : Int}
    (run : factor narrow t = .ok f) : factor wider t = .ok f := by
  cases t with
  | nil => exact run
  | node a l x r => exact agree _ _ run

theorem rotateRight_agrees (agree : ∀ x y, narrow x = .ok y → wider x = .ok y)
    (run : rotateRight narrow t = .ok t') : rotateRight wider t = .ok t' := by
  unfold rotateRight at run ⊢
  split at run
  · obtain ⟨lowered, first, second⟩ := bind_eq_ok run
    simp [fixHeight_agrees agree first, fixHeight_agrees agree second]
  · simp at run

theorem rotateLeft_agrees (agree : ∀ x y, narrow x = .ok y → wider x = .ok y)
    (run : rotateLeft narrow t = .ok t') : rotateLeft wider t = .ok t' := by
  unfold rotateLeft at run ⊢
  split at run
  · obtain ⟨lowered, first, second⟩ := bind_eq_ok run
    simp [fixHeight_agrees agree first, fixHeight_agrees agree second]
  · simp at run

theorem rotate_agrees (agree : ∀ x y, narrow x = .ok y → wider x = .ok y) {f : Int}
    (run : rotate narrow f t = .ok t') : rotate wider f t = .ok t' := by
  cases t with
  | nil => simp [rotate] at run
  | node a l x r =>
    simp only [rotate] at run ⊢
    split at run
    · obtain ⟨inner, factored, rest⟩ := bind_eq_ok run
      simp only [factor_agrees agree factored, ok_bind]
      split at rest
      · obtain ⟨lifted, first, second⟩ := bind_eq_ok rest
        simp [*, rotateRight_agrees agree first, rotateLeft_agrees agree second]
      · simp [*, rotateLeft_agrees agree rest]
    · split at run
      · obtain ⟨inner, factored, rest⟩ := bind_eq_ok run
        simp only [factor_agrees agree factored, ok_bind]
        split at rest
        · obtain ⟨lifted, first, second⟩ := bind_eq_ok rest
          simp [*, rotateLeft_agrees agree first, rotateRight_agrees agree second]
        · simp [*, rotateRight_agrees agree rest]
      · simp [*]

theorem balance_agrees (agree : ∀ x y, narrow x = .ok y → wider x = .ok y)
    (run : balance narrow t = .ok t') : balance wider t = .ok t' := by
  obtain ⟨fixed, first, rest⟩ := bind_eq_ok run
  obtain ⟨f, second, last⟩ := bind_eq_ok rest
  simp [balance, fixHeight_agrees agree first, factor_agrees agree second, rotate_agrees agree last]

theorem unwind_agrees (agree : ∀ x y, narrow x = .ok y → wider x = .ok y)
    {ctx : Context (NodeData K V)} (run : unwind narrow ctx t = .ok t') :
    unwind wider ctx t = .ok t' := by
  induction ctx generalizing t with
  | nil => exact balance_agrees agree run
  | cons f fs ih =>
    obtain ⟨balanced, first, rest⟩ := bind_eq_ok run
    simp [unwind, balance_agrees agree first, ih rest]

end

/-! ## Heights that fit -/

/-- Every stored height is a non-negative `int8_t`. -/
def HeightsFit (t : AvlTree K V) : Prop := ∀ e ∈ t.toList, 0 ≤ e.2.height ∧ e.2.height ≤ 127

/-- The outcome of a computation under `exactInt8`: a height was too large, or the tree is fit. -/
def FitOrNarrow (run : Except Fault (AvlTree K V)) : Prop :=
  run = .error .narrow ∨ ∃ t, run = .ok t ∧ t.HeightsFit ∧ t ≠ .nil

theorem heightsFit_nil : HeightsFit (.nil : AvlTree K V) := by simp [HeightsFit]

theorem heightsFit_node {a : Addr} {l r : AvlTree K V} {x : NodeData K V} :
    HeightsFit (.node a l x r) ↔
      l.HeightsFit ∧ (0 ≤ x.height ∧ x.height ≤ 127) ∧ r.HeightsFit := by
  constructor
  · intro fit
    refine ⟨fun e member => fit e ?_, fit (a, x) ?_, fun e member => fit e ?_⟩ <;> simp [*]
  · rintro ⟨left, here, right⟩ e member
    simp only [LinkTree.toList_node, List.mem_append, List.mem_cons] at member
    rcases member with inLeft | rfl | inRight
    · exact left e inLeft
    · exact here
    · exact right e inRight

theorem HeightsFit.height {t : AvlTree K V} (fit : t.HeightsFit) :
    0 ≤ t.height ∧ t.height ≤ 127 := by
  cases t with
  | nil => simp
  | node a l x r => exact (heightsFit_node.mp fit).2.1

section

variable {t t' : AvlTree K V}

/-- A tree that is higher than another one is not empty. -/
theorem HeightsFit.taller_ne_nil (fit : t.HeightsFit) (taller : t.height < t'.height) : t' ≠ .nil := by
  rintro rfl
  have := fit.height
  rw [height_nil] at taller
  omega

theorem FitOrNarrow.bind {run : Except Fault (AvlTree K V)} {next : AvlTree K V → Except Fault (AvlTree K V)}
    (first : FitOrNarrow run) (rest : ∀ t, t.HeightsFit → t ≠ .nil → FitOrNarrow (next t)) :
    FitOrNarrow (run >>= next) := by
  rcases first with wide | ⟨t, done, fit, present⟩
  · exact .inl (by rw [wide, error_bind])
  · rw [done, ok_bind]
    exact rest t fit present

theorem fixHeight_fit {a : Addr} {l r : AvlTree K V} {x : NodeData K V}
    (left : l.HeightsFit) (right : r.HeightsFit) :
    fixHeight exactInt8 (.node a l x r) = .error .narrow ∨
      ∃ fixed, fixHeight exactInt8 (.node a l x r) = .ok (.node a l { x with height := fixed } r) ∧
        HeightsFit (.node a l { x with height := fixed } r) := by
  have boundLeft := left.height
  have boundRight := right.height
  generalize value : (if height l > height r then height l else height r) + 1 = v
  have low : 1 ≤ v := by split at value <;> omega
  by_cases fits : v ≤ 127
  · refine .inr ⟨v, ?_, heightsFit_node.mpr ⟨left, ⟨?_, fits⟩, right⟩⟩
    · simp [fixHeight, value, exactInt8, fits, (show (-128 : Int) ≤ v by omega)]
    · show 0 ≤ v
      omega
  · refine .inl ?_
    simp [fixHeight, value, exactInt8, fits]

theorem rotateRight_fit {a : Addr} {l r : AvlTree K V} {x : NodeData K V} (fit : l.HeightsFit)
    (lifted : r.HeightsFit) (heavy : r ≠ .nil) :
    FitOrNarrow (rotateRight exactInt8 (.node a l x r)) := by
  cases r with
  | nil => exact absurd rfl heavy
  | node b m y r =>
    obtain ⟨middle, _, right⟩ := heightsFit_node.mp lifted
    simp only [rotateRight]
    rcases fixHeight_fit (a := a) (x := x) fit middle with wide | ⟨fixed, run, lower⟩
    · exact .inl (by simp [wide])
    · simp only [run, ok_bind]
      rcases fixHeight_fit (a := b) (x := y) lower right with wide | ⟨fixed', run', upper⟩
      · exact .inl wide
      · exact .inr ⟨_, run', upper, by simp⟩

theorem rotateLeft_fit {a : Addr} {l r : AvlTree K V} {x : NodeData K V} (lifted : l.HeightsFit)
    (fit : r.HeightsFit) (heavy : l ≠ .nil) :
    FitOrNarrow (rotateLeft exactInt8 (.node a l x r)) := by
  cases l with
  | nil => exact absurd rfl heavy
  | node b l y m =>
    obtain ⟨left, _, middle⟩ := heightsFit_node.mp lifted
    simp only [rotateLeft]
    rcases fixHeight_fit (a := a) (x := x) middle fit with wide | ⟨fixed, run, lower⟩
    · exact .inl (by simp [wide])
    · simp only [run, ok_bind]
      rcases fixHeight_fit (a := b) (x := y) left lower with wide | ⟨fixed', run', upper⟩
      · exact .inl wide
      · exact .inr ⟨_, run', upper, by simp⟩

theorem factor_fit {a : Addr} {l r : AvlTree K V} {x : NodeData K V} (left : l.HeightsFit)
    (right : r.HeightsFit) : factor exactInt8 (.node a l x r) = .ok (height l - height r) := by
  have boundLeft := left.height
  have boundRight := right.height
  have range : -128 ≤ height l - height r ∧ height l - height r ≤ 127 := by omega
  simp [factor, exactInt8, range]

/-- A child is lifted only where the heights say that it exists. -/
theorem rotate_fit {a : Addr} {l r : AvlTree K V} {x : NodeData K V}
    (fit : HeightsFit (.node a l x r)) :
    FitOrNarrow (rotate exactInt8 (height l - height r) (.node a l x r)) := by
  obtain ⟨left, here, right⟩ := heightsFit_node.mp fit
  simp only [rotate]
  split
  next leftHeavy =>
    -- a subtree of a positive height is not empty
    have present : l ≠ .nil := right.taller_ne_nil (by omega)
    cases r with
    | nil =>
      simp only [factor, ok_bind]
      exact rotateLeft_fit left right present
    | node b m y r =>
      obtain ⟨fitM, _, fitR⟩ := heightsFit_node.mp right
      simp only [factor_fit fitM fitR, ok_bind]
      split
      next inner =>
        have heavy : r ≠ .nil := fitM.taller_ne_nil (by omega)
        exact (rotateRight_fit fitM fitR heavy).bind fun lifted fitLifted _ =>
          rotateLeft_fit left fitLifted present
      next => exact rotateLeft_fit left right present
  next =>
    split
    next rightHeavy =>
      have present : r ≠ .nil := left.taller_ne_nil (by omega)
      cases l with
      | nil =>
        simp only [factor, ok_bind, gt_iff_lt]
        exact rotateRight_fit left right present
      | node b l y m =>
        obtain ⟨fitL, _, fitM⟩ := heightsFit_node.mp left
        simp only [factor_fit fitL fitM, ok_bind]
        split
        next inner =>
          have heavy : l ≠ .nil := fitM.taller_ne_nil (by omega)
          exact (rotateLeft_fit fitL fitM heavy).bind fun lifted fitLifted _ =>
            rotateRight_fit fitLifted right present
        next => exact rotateRight_fit left right present
    next => exact .inr ⟨_, rfl, fit, by simp⟩

theorem balance_fit (fit : t.HeightsFit) (present : t ≠ .nil) : FitOrNarrow (balance exactInt8 t) := by
  cases t with
  | nil => exact absurd rfl present
  | node a l x r =>
    obtain ⟨left, _, right⟩ := heightsFit_node.mp fit
    rcases fixHeight_fit (a := a) (x := x) left right with wide | ⟨fixed, run, fitFixed⟩
    · exact .inl (by simp [balance, wide])
    · simp only [balance, run, ok_bind, factor_fit left right]
      exact rotate_fit fitFixed

theorem heightsFit_plug {ctx : Context (NodeData K V)} (fit : HeightsFit (ctx.plug t)) :
    t.HeightsFit := by
  intro e member
  exact fit e (by simp [Context.toList_plug, member])

theorem heightsFit_replace {ctx : Context (NodeData K V)} (fit : HeightsFit (ctx.plug t))
    (fit' : t'.HeightsFit) : HeightsFit (ctx.plug t') := by
  intro e member
  simp only [Context.toList_plug, List.mem_append] at member
  rcases member with (inBefore | inTree) | inAfter
  · exact fit e (by simp [Context.toList_plug, inBefore])
  · exact fit' e inTree
  · exact fit e (by simp [Context.toList_plug, inAfter])

/-- Rebalancing under `exactInt8` fails only for a height that is too large. -/
theorem unwind_fit {ctx : Context (NodeData K V)} (fit : HeightsFit (ctx.plug t))
    (present : t ≠ .nil) : FitOrNarrow (unwind exactInt8 ctx t) := by
  induction ctx generalizing t with
  | nil => exact balance_fit fit present
  | cons f fs ih =>
    refine (balance_fit (heightsFit_plug fit) present).bind fun balanced fitBalanced _ => ?_
    have fitRest : HeightsFit (Context.plug (f :: fs) balanced) := heightsFit_replace fit fitBalanced
    exact ih fitRest (f.plug_ne_nil balanced)

end

end AvlTree

end SmallObject
