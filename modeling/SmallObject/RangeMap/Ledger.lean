import SmallObject.RangeMap.Refinement
import SmallObject.RangeMap.Destroy
import SmallObject.Library.Execution

/-! The nodes that exist and the nodes that the map still knows.

Every operation keeps the two the same, with one exception: the erasure of the only
element forgets its node without destroying it. A node that does not exist any more is
not dereferenced, so none is destroyed twice as long as the operations complete.
-/

set_option autoImplicit false

namespace SmallObject

open Linked AvlTree

variable {K V : Type}

namespace RangeMap

/-- The nodes that are found from `root_` on by child links. -/
inductive Reached (m : RangeMap K V) : Addr → Prop
  | root {a : Addr} : m.root = some a → Reached m a
  | left {a b : Addr} {n : AvlTreeNode K V} :
    Reached m a → m.nodes.lookup a = some n → n.left = some b → Reached m b
  | right {a b : Addr} {n : AvlTreeNode K V} :
    Reached m a → m.nodes.lookup a = some n → n.right = some b → Reached m b

/-- The nodes created and not yet destroyed are those that are reached. -/
def Tidy (m : RangeMap K V) : Prop := ∀ a, (∃ n, m.nodes.lookup a = some n) ↔ m.Reached a

/-! ## Trees and reached nodes -/

section Reach

variable {m : RangeMap K V} {t : AvlTree K V}

/-- A child link of a node in a tree leads to a node in the tree. -/
theorem Stores.child_mem {a b : Addr} {n : AvlTreeNode K V} (stores : m.Stores t) (member : a ∈ t.addrs)
    (found : m.nodes.lookup a = some n) (child : n.left = some b ∨ n.right = some b) : b ∈ t.addrs := by
  obtain ⟨ctx, l, x, r, rfl⟩ := Context.exists_focus member
  obtain ⟨_, here, _, _⟩ := Context.represents_plug.mp stores.rep
  obtain rfl := Option.some.inj (found.symm.trans here)
  refine Context.mem_addrs_plug.mpr (.inl ?_)
  rcases child with isLeft | isRight
  · simp [LinkTree.root_mem_addrs isLeft]
  · simp [LinkTree.root_mem_addrs isRight]

/-- Whatever hangs below a node that is reached is reached. -/
theorem reached_below {top : Ptr} (rep : Represents m.nodes top t) (root : ∀ b, t.root = some b → m.Reached b) :
    ∀ a ∈ t.addrs, m.Reached a := by
  induction t generalizing top with
  | nil => simp
  | node b l x r ihl ihr =>
    obtain ⟨here, left, right⟩ := rep
    have this := root b rfl
    intro a member
    rcases List.mem_append.mp (LinkTree.addrs_node b l r x ▸ member) with inLeft | rest
    · exact ihl left (fun c child => this.left here child) a inLeft
    · rcases List.mem_cons.mp rest with rfl | inRight
      · exact this
      · exact ihr right (fun c child => this.right here child) a inRight

theorem Stores.reached_iff (stores : m.Stores t) {a : Addr} : m.Reached a ↔ a ∈ t.addrs := by
  constructor
  · intro reached
    induction reached with
    | root atRoot => exact LinkTree.root_mem_addrs (stores.root.symm.trans atRoot)
    | left _ found child ih => exact stores.child_mem ih found (.inl child)
    | right _ found child ih => exact stores.child_mem ih found (.inr child)
  · exact reached_below stores.rep (fun b root => .root (stores.root.trans root)) a

/-- Nothing is reached from a null root. -/
theorem not_reached (null : m.root = none) (a : Addr) : ¬ m.Reached a := by
  intro found
  induction found with
  | root atRoot => cases null.symm.trans atRoot
  | left _ _ _ ih => exact ih
  | right _ _ _ ih => exact ih

end Reach

/-! ## What the operations keep -/

/-- The map stores a tree whose heights fit, and there are no other nodes. -/
structure Owns (m : RangeMap K V) (t : AvlTree K V) : Prop where
  stores : m.Stores t
  fit : t.HeightsFit
  exist : ∀ a, (∃ n, m.nodes.lookup a = some n) ↔ a ∈ t.addrs

theorem Owns.tidy {m : RangeMap K V} {t : AvlTree K V} (owns : m.Owns t) : m.Tidy :=
  fun a => (owns.exist a).trans owns.stores.reached_iff.symm

theorem owns_init : (init : RangeMap K V).Owns .nil :=
  ⟨stores_init, heightsFit_nil, fun a => by simp [init]⟩

section Keep

variable {m m' : RangeMap K V} {t t' : AvlTree K V} {a : Addr}

/-- An operation that touches the old tree only, and destroys what it leaves out of the new one. -/
theorem Owns.carry {touched : List Addr} (owns : m.Owns t) (stores : m'.Stores t') (fit : t'.HeightsFit)
    (agree : AgreeOff touched m.nodes m'.nodes)
    (kept : ∀ b, b ∈ touched ∨ b ∈ t.addrs → b ∈ t'.addrs ∨ m'.nodes.lookup b = none) : m'.Owns t' := by
  refine ⟨stores, fit, fun b => ⟨fun ⟨n, found⟩ => ?_, stores.rep.allocated b⟩⟩
  by_cases old : b ∈ touched ∨ b ∈ t.addrs
  · rcases kept b old with inNew | gone
    · exact inNew
    · simp [found] at gone
  · have same := agree b fun member => old (.inl member)
    exact absurd ((owns.exist b).mp ⟨n, same.symm.trans found⟩) fun member => old (.inr member)

theorem Owns.clear (owns : m.Owns t) : ∃ m', m.clear = .ok m' ∧ m'.Owns .nil := by
  obtain ⟨m', run, stores, gone, agree⟩ := clear_follows owns.stores
  refine ⟨m', run, owns.carry stores heightsFit_nil agree fun b member => .inr (gone b ?_)⟩
  exact member.elim id id

/-- Rebalancing that narrows nothing is the same under both conversions. -/
theorem rebalance_fits {h : Nodes K V} {ctx : Context (NodeData K V)} {s : AvlTree K V} {b : Addr}
    (root : s.root = some b) (rep : Represents h none (ctx.plug s)) (nodup : (ctx.plug s).addrs.Nodup)
    (fit : HeightsFit (ctx.plug s)) (fits : doRebalanceFrom exactInt8 h b ≠ .error .narrow) :
    ∃ m' t', doRebalanceFrom wrapInt8 h b = .ok m' ∧ m'.Stores t' ∧ t'.HeightsFit ∧
      AgreeOff (ctx.plug s).addrs h m'.nodes ∧ t'.addrs = (ctx.plug s).addrs := by
  have present : s ≠ .nil := by
    rintro rfl
    simp at root
  have exact := doRebalanceFrom_follows exactInt8 ctx root rep nodup
  have wrapped := doRebalanceFrom_follows wrapInt8 ctx root rep nodup
  rcases unwind_fit fit present with wide | ⟨t', unwound, fit', _⟩
  · simp only [wide] at exact
    exact absurd exact fits
  · simp only [unwind_agrees (fun x y => wrapInt8_of_exactInt8) unwound] at wrapped
    obtain ⟨m', run, stores, agree, same⟩ := wrapped
    exact ⟨m', t', run, stores, fit', agree, same⟩

/-- Erasing the only element leaves its node behind; any other erasure destroys the node. -/
theorem Owns.erase (owns : m.Owns t) (member : a ∈ t.addrs) (fits : m.erase exactInt8 (some a) ≠ .error .narrow) :
    (t.addrs = [a] ∧ m.erase wrapInt8 (some a) = .ok { m with root := none }) ∨
      (∃ b ∈ t.addrs, b ≠ a) ∧ ∃ m' t', m.erase wrapInt8 (some a) = .ok m' ∧ m'.Owns t' := by
  obtain ⟨ctx, l, x, r, rfl⟩ := Context.exists_focus member
  rcases doEraseNode_follows owns.stores with ⟨rfl, rfl, rfl, run⟩ | ⟨ctx', s, h', b, root, flat, rep, gone, agree, run⟩
  · exact .inl ⟨by simp, run wrapInt8⟩
  · simp only [RangeMap.erase, run] at fits ⊢
    have nodup := nodup_remaining owns.stores.nodup flat
    obtain ⟨m', t', done, stores, fit, agree', same⟩ := rebalance_fits root rep nodup
      (heightsFit_remaining owns.fit flat) fits
    have atRoot : b ∈ (ctx'.plug s).addrs := Context.mem_addrs_plug.mpr (.inl (LinkTree.root_mem_addrs root))
    have left : a ∉ (ctx'.plug s).addrs := by
      intro inside
      obtain ⟨cell, found⟩ := rep.allocated a inside
      simp [gone] at found
    have smaller : (ctx'.plug s).addrs ⊆ (ctx.plug (.node a l x r)).addrs :=
      fun c inside => (mem_remaining flat c).mpr (.inr inside)
    refine .inr ⟨⟨b, smaller atRoot, fun isThis => left (isThis ▸ atRoot)⟩, m', t', done, ?_⟩
    refine owns.carry stores fit (agree.trans (agree'.mono smaller)) fun c old => ?_
    rw [or_self, mem_remaining flat] at old
    rcases old with rfl | inside
    · exact .inr ((agree' c left).trans gone)
    · exact .inl (same ▸ inside)

variable [LinearOrder K]

/-- Insertion adds the new node to those of the tree, or changes nothing. -/
theorem insert_addrs {narrow : Narrowing} {n : Addr} {range : Range K} {mapped : V} {inserted : Bool}
    (run : t.insert narrow n range mapped = .ok (t', inserted)) :
    (inserted = true ∧ t'.addrs.Perm (n :: t.addrs)) ∨ (inserted = false ∧ t' = t) := by
  unfold AvlTree.insert at run
  split at run
  next missed =>
    obtain ⟨rfl, rfl⟩ : t = t' ∧ false = inserted := by simpa using run
    exact .inr ⟨rfl, rfl⟩
  next found =>
    obtain ⟨rfl, rfl⟩ : leaf n range mapped = t' ∧ true = inserted := by simpa using run
    obtain rfl : t = .nil := by simpa using (attachPoint_plug found).symm
    exact .inl ⟨rfl, .refl _⟩
  next f fs found =>
    obtain ⟨s, unwound, done⟩ := bind_eq_ok run
    obtain ⟨rfl, rfl⟩ : s = t' ∧ true = inserted := by simpa using done
    refine .inl ⟨rfl, ?_⟩
    have plugged := attachPoint_plug found
    rw [Context.plug_nil] at plugged
    rw [← map_fst_entries s, unwind_entries unwound, map_fst_entries, ← Context.plug_cons, ← plugged]
    refine (Context.addrs_plug_perm _ _).trans (List.Perm.cons n ?_)
    exact (Context.addrs_plug_perm _ _).symm

theorem Owns.insert {n : Addr} {min max : K} {val : V} (owns : m.Owns t) (fresh : m.nodes.lookup n = none)
    (fits : m.insert exactInt8 (some n) min max val ≠ .error .narrow) :
    ∃ m' t' inserted, m.insert wrapInt8 (some n) min max val = .ok (m', inserted) ∧
      t.insert exactInt8 n ⟨min, max⟩ val = .ok (t', inserted) ∧ m'.Owns t' := by
  obtain ⟨t', inserted, m', spec, fit, run, stores, _⟩ := insert_fits owns.stores owns.fit fresh fits
  have follows := insertNode_follows wrapInt8 ⟨min, max⟩ val owns.stores fresh
  simp only [insert_agrees (fun x y => wrapInt8_of_exactInt8) spec] at follows
  obtain ⟨m₁, run₁, _, agree, unchanged⟩ := follows
  obtain rfl : m₁ = m' := by simpa [RangeMap.insert, run₁] using run
  refine ⟨m₁, t', inserted, run, spec, ?_⟩
  rcases insert_addrs spec with ⟨_, gained⟩ | ⟨no, rfl⟩
  · refine owns.carry stores fit agree fun b old => .inl (gained.mem_iff.mpr ?_)
    exact old.elim id (List.mem_cons_of_mem n)
  · rw [unchanged no]
    exact owns

end Keep

/-! ## Runs -/

inductive Op (K V : Type) where
  | insert (memory : Ptr) (min max : K) (val : V)
  | erase (position : Ptr)
  | clear

section Run

variable [LinearOrder K]

/-- An operation on the map. The node allocator throws before anything is written, so the
exception leaves the map as it was. -/
def Op.run (narrow : Narrowing) (m : RangeMap K V) : Op K V → Except Fault (RangeMap K V)
  | .insert memory min max val =>
    match m.insert narrow memory min max val with
    | .ok (m', _) => .ok m'
    | .error .badAlloc => .ok m
    | .error e => .error e
  | .erase position => m.erase narrow position
  | .clear => m.clear

/-- New nodes get memory that no node occupies, an iterator is null or designates an element
of the map, and no height is too large. -/
def Admissible (m : RangeMap K V) (op : Op K V) : Prop :=
  op.run exactInt8 m ≠ .error .narrow ∧
    match op with
    | .insert memory _ _ _ => ∀ n, memory = some n → m.nodes.lookup n = none
    | .erase position => ∀ a, position = some a → m.Reached a
    | .clear => True

omit [LinearOrder K] in
/-- The operation does not erase the only element. -/
def SparesLast (m : RangeMap K V) : Op K V → Prop
  | .erase (some a) => ∃ b, m.Reached b ∧ b ≠ a
  | _ => True

variable {m : RangeMap K V} {t : AvlTree K V} {op : Op K V}

/-- An operation completes, and the map is as tidy after it as before unless it erases the only element. -/
theorem Owns.step (owns : m.Owns t) (admissible : m.Admissible op) :
    ∃ m', op.run wrapInt8 m = .ok m' ∧ (m.SparesLast op → ∃ t', m'.Owns t') ∧ (m'.Tidy → m.SparesLast op) := by
  obtain ⟨fits, given⟩ := admissible
  cases op with
  | insert memory min max val =>
    cases memory with
    | none =>
      refine ⟨m, ?_, fun _ => ⟨t, owns⟩, fun _ => trivial⟩
      -- no node is made, whether the allocator throws or the range is rejected first
      rcases insert_without_memory wrapInt8 min max val owns.stores with thrown | ⟨rejected, _⟩
      · simp [Op.run, thrown]
      · simp [Op.run, rejected]
    | some n =>
      have fits' : m.insert exactInt8 (some n) min max val ≠ .error .narrow := by
        intro wide
        simp [Op.run, wide] at fits
      obtain ⟨m', t', inserted, run, _, owns'⟩ := owns.insert (given n rfl) fits'
      exact ⟨m', by simp [Op.run, run], fun _ => ⟨t', owns'⟩, fun _ => trivial⟩
  | erase position =>
    cases position with
    | none => exact ⟨m, rfl, fun _ => ⟨t, owns⟩, fun _ => trivial⟩
    | some a =>
      have member := owns.stores.reached_iff.mp (given a rfl)
      -- the only element leaves its node behind; any other one takes it along
      rcases owns.erase member fits with ⟨only, run⟩ | ⟨⟨b, other, apart⟩, m', t', run, owns'⟩
      · refine ⟨_, run, fun ⟨b, reached, apart⟩ => ?_, fun tidy => ?_⟩
        · have inTree := owns.stores.reached_iff.mp reached
          rw [only] at inTree
          exact absurd (List.mem_singleton.mp inTree) apart
        · -- the node exists, and nothing is reached from a null root
          have reached := (tidy a).mp ((owns.exist a).mpr member)
          exact absurd reached (not_reached rfl a)
      · exact ⟨m', run, fun _ => ⟨t', owns'⟩, fun _ => ⟨b, owns.stores.reached_iff.mpr other, apart⟩⟩
  | clear =>
    obtain ⟨m', run, owns'⟩ := owns.clear
    exact ⟨m', run, fun _ => ⟨.nil, owns'⟩, fun _ => trivial⟩

/-- While no operation has erased the only element, the nodes created and not yet destroyed are
those that are reached; every operation completes, and it leaves the map tidy exactly if it does
not erase the only element; and `clear` leaves no node. -/
theorem run_leaks_nothing
    (run : Execution.Runs (· = init) (fun m op => m.Admissible op ∧ m.SparesLast op) (fun m op => op.run wrapInt8 m) m) :
    m.Tidy ∧ (∀ op, m.Admissible op → ∃ m', op.run wrapInt8 m = .ok m' ∧ (m'.Tidy ↔ m.SparesLast op)) ∧
      ∃ m', m.clear = .ok m' ∧ ∀ a, m'.nodes.lookup a = none := by
  obtain ⟨t, owns⟩ : ∃ t, m.Owns t := by
    apply run.invariant
    · rintro m rfl
      exact ⟨.nil, owns_init⟩
    · rintro m op m₁ ⟨t, owns⟩ ⟨admissible, spares⟩ stepped
      obtain ⟨m', run, next, _⟩ := owns.step admissible
      obtain rfl : m' = m₁ := Except.ok.inj (run.symm.trans stepped)
      exact next spares
  refine ⟨owns.tidy, fun op admissible => ?_, ?_⟩
  · obtain ⟨m', run, next, tidy⟩ := owns.step admissible
    exact ⟨m', run, tidy, fun spares => (next spares).elim fun _ owns' => owns'.tidy⟩
  · obtain ⟨m', run, owns'⟩ := owns.clear
    refine ⟨m', run, fun a => Option.eq_none_iff_forall_ne_some.mpr fun n found => ?_⟩
    simpa using (owns'.exist a).mp ⟨n, found⟩

omit [LinearOrder K] in
theorem fresh_memory {h : Nodes K V} {a : Addr} (unused : h.lookup a = none) :
    ∀ n, some a = some n → h.lookup n = none := by
  rintro n ⟨⟩
  exact unused

/-- Two elements, the first of them erased again. -/
theorem run_leaks_nothing_two : ∃ (m m' : RangeMap Nat Nat), m.Tidy ∧ m.root = some 8 ∧ m.clear = .ok m' ∧
    ∀ a, m'.nodes.lookup a = none := by
  have first : Execution.Runs (· = init) (fun m op => m.Admissible op ∧ m.SparesLast op) (fun m op => op.run wrapInt8 m)
      (_ : RangeMap Nat Nat) :=
    .step (a := .insert (some 7) 0 1 0) (.start rfl) ⟨⟨nofun, fresh_memory rfl⟩, trivial⟩ rfl
  have second := first.step (a := .insert (some 8) 2 3 0) ⟨⟨nofun, fresh_memory rfl⟩, trivial⟩ rfl
  have third := second.step (a := .erase (some 7))
    ⟨⟨nofun, fun a same => .root same⟩, 8, .right (.root rfl) rfl rfl, by decide⟩ rfl
  obtain ⟨tidy, _, m', cleared, gone⟩ := run_leaks_nothing third
  exact ⟨_, m', tidy, rfl, cleared, gone⟩

/-- The erasure of the only element loses its node, and nothing destroys it later. -/
theorem erase_last_leaks : ∃ m : RangeMap Nat Nat,
    Execution.Runs (· = init) Admissible (fun m op => op.run wrapInt8 m) m ∧ m.root = none ∧
      m.clear = .ok m ∧ ¬ m.Tidy := by
  have first : Execution.Runs (· = init) Admissible (fun m op => op.run wrapInt8 m) (_ : RangeMap Nat Nat) :=
    .step (a := .insert (some 7) 0 1 0) (.start rfl) ⟨nofun, fresh_memory rfl⟩ rfl
  have second := first.step (a := .erase (some 7)) ⟨nofun, fun a same => .root same⟩ rfl
  refine ⟨_, second, rfl, rfl, fun tidy => ?_⟩
  -- the node is still there, but no pointer of the map leads anywhere
  have reached := (tidy 7).mp ⟨_, rfl⟩
  exact not_reached rfl 7 reached

end Run

end RangeMap

end SmallObject
