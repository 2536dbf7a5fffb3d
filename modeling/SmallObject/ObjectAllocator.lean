import SmallObject.Library.Alignment
import SmallObject.Pool

/-! `object_allocator`: one pool for each multiple of the word size.

The number of pools, the least and the greatest size and the shift are each computed from
the word size, as the source does it, in the arithmetic of `std::size_t`.
-/

set_option autoImplicit false

namespace SmallObject

open Linked Alignment

/-- `std::size_t` on a machine whose words have `W` bytes. -/
abbrev SizeT (W : Nat) := BitVec (8 * W)

def alignUp {w : Nat} (alignment size : BitVec w) : BitVec w := (size + (alignment - 1)) &&& ~~~(alignment - 1)

namespace ObjectAllocator

section Constants

variable (W : Nat)

/-- `sizeof(std::size_t)`. -/
def sizeofSizeT : SizeT W := BitVec.ofNat _ W

def maxSize : SizeT W := sizeofSizeT W * 16

def minSize : SizeT W := alignUp (sizeofSizeT W) (sizeofSizeT W * 2)

def shift : SizeT W := minSize W / sizeofSizeT W

def poolsCount : SizeT W := maxSize W / sizeofSizeT W - shift W

end Constants

variable {W : Nat} {T : Type}

/-- The index in `pools_` of the pool for a size; the index is not tested. -/
def get (size : SizeT W) : SizeT W := alignUp (sizeofSizeT W) size / sizeofSizeT W - shift W

/-- The loop of the constructor, from a pool on. The counter is a `uint8_t`. -/
def construct (T : Type) (W : Nat) : Nat → UInt8 → Except Fault (List (Pool T))
  | fuel, i =>
    -- the counter is widened for the comparison
    if i.toNat < (poolsCount W).toNat then
      match fuel with
      | 0 => .error .endless
      | fuel + 1 => do
        let rest ← construct T W fuel (i + 1)
        .ok (Pool.init :: rest)
    else .ok []

/-- The pools that the constructor builds. -/
def init (T : Type) (W : Nat) : Except Fault (List (Pool T)) := construct T W 256 0

end ObjectAllocator

namespace Object

variable {W : Nat}

/-- Where `operator new` takes the memory from: a pool, in every round of its loop, or the
global allocator. -/
def operatorNew (bytes : SizeT W) : Option (SizeT W) :=
  if bytes > ObjectAllocator.maxSize W then none else some (ObjectAllocator.get bytes)

/-- Where `operator delete` gives the memory back. -/
def operatorDelete (bytes : SizeT W) : Option (SizeT W) :=
  if bytes ≤ ObjectAllocator.maxSize W then some (ObjectAllocator.get bytes) else none

end Object

namespace ObjectAllocator

/-! ## The values of the constants -/

section Values

variable {k : Nat}

/-- A word is wide enough for all sums of the sizes that have a pool. -/
theorem word_room (k : Nat) : 17 * 2 ^ k < 2 ^ (8 * 2 ^ k) := by
  have small : 2 ^ k < 2 ^ 2 ^ k := Nat.lt_two_pow_self
  have seven : 2 ^ 7 ≤ 2 ^ (7 * 2 ^ k) := Nat.pow_le_pow_right (by decide) (by have := Nat.two_pow_pos k; omega)
  calc 17 * 2 ^ k < 2 ^ 7 * 2 ^ 2 ^ k := by omega
    _ ≤ 2 ^ (7 * 2 ^ k) * 2 ^ 2 ^ k := Nat.mul_le_mul_right _ seven
    _ = 2 ^ (8 * 2 ^ k) := by rw [← Nat.pow_add]; congr 1; omega

/-- The literals of the source are small. -/
theorem literal_toNat (k : Nat) {n : Nat} (small : n ≤ 16) : (BitVec.ofNat (8 * 2 ^ k) n).toNat = n := by
  have room := word_room k
  have pos := Nat.two_pow_pos k
  rw [BitVec.toNat_ofNat, Nat.mod_eq_of_lt (by omega)]

theorem sizeofSizeT_toNat (k : Nat) : (sizeofSizeT (2 ^ k)).toNat = 2 ^ k := by
  have room := word_room k
  rw [sizeofSizeT, BitVec.toNat_ofNat, Nat.mod_eq_of_lt (by omega)]

/-- The mask of `align_up` at the word size. -/
theorem sizeofSizeT_sub_one (k : Nat) : sizeofSizeT (2 ^ k) - 1 = BitVec.ofNat (8 * 2 ^ k) (2 ^ k - 1) := by
  have room := word_room k
  have pos := Nat.two_pow_pos k
  have one : (1 : SizeT (2 ^ k)).toNat = 1 := literal_toNat k (by decide)
  apply BitVec.eq_of_toNat_eq
  rw [BitVec.toNat_sub_of_le]
  · rw [sizeofSizeT_toNat, one, BitVec.toNat_ofNat, Nat.mod_eq_of_lt (by omega)]
  · rw [BitVec.le_def, sizeofSizeT_toNat, one]
    omega

theorem alignUp_toNat {size : SizeT (2 ^ k)} (le : size.toNat ≤ 16 * 2 ^ k) :
    (alignUp (sizeofSizeT (2 ^ k)) size).toNat = roundUp (2 ^ k) size.toNat := by
  have room := word_room k
  have pos := Nat.two_pow_pos k
  rw [alignUp, sizeofSizeT_sub_one]
  exact toNat_add_and_not_mask size (by omega)

theorem maxSize_toNat (k : Nat) : (maxSize (2 ^ k)).toNat = 16 * 2 ^ k := by
  have room := word_room k
  have sixteen : (16 : SizeT (2 ^ k)).toNat = 16 := literal_toNat k (by decide)
  rw [maxSize, BitVec.toNat_mul, sizeofSizeT_toNat, sixteen, Nat.mod_eq_of_lt (by omega), Nat.mul_comm]

theorem minSize_toNat (k : Nat) : (minSize (2 ^ k)).toNat = 2 * 2 ^ k := by
  have room := word_room k
  have pos := Nat.two_pow_pos k
  have two : (2 : SizeT (2 ^ k)).toNat = 2 := literal_toNat k (by decide)
  have double : (sizeofSizeT (2 ^ k) * 2).toNat = 2 * 2 ^ k := by
    rw [BitVec.toNat_mul, sizeofSizeT_toNat, two, Nat.mod_eq_of_lt (by omega), Nat.mul_comm]
  rw [minSize, alignUp_toNat (by omega), double]
  exact Nat.le_antisymm (roundUp_le pos le_rfl (Nat.dvd_mul_left ..)) (le_roundUp pos _)

theorem shift_toNat (k : Nat) : (shift (2 ^ k)).toNat = 2 := by
  rw [shift, BitVec.toNat_udiv, minSize_toNat, sizeofSizeT_toNat]
  exact Nat.mul_div_cancel 2 (Nat.two_pow_pos k)

/-- One pool for each multiple of the word size, from the second one to the one before the last. -/
theorem poolsCount_toNat (k : Nat) : (poolsCount (2 ^ k)).toNat = 14 := by
  have quotient : (maxSize (2 ^ k) / sizeofSizeT (2 ^ k)).toNat = 16 := by
    rw [BitVec.toNat_udiv, maxSize_toNat, sizeofSizeT_toNat]
    exact Nat.mul_div_cancel 16 (Nat.two_pow_pos k)
  rw [poolsCount, BitVec.toNat_sub_of_le, quotient, shift_toNat]
  rw [BitVec.le_def, quotient, shift_toNat]
  decide

end Values

/-! ## Which pool a size has -/

section Index

variable {k : Nat} {size other : SizeT (2 ^ k)}

/-- Two words are below every index, since no class is smaller. -/
theorem get_toNat (least : 2 * 2 ^ k ≤ size.toNat) (most : size.toNat ≤ 16 * 2 ^ k) :
    roundUp (2 ^ k) size.toNat = ((get size).toNat + 2) * 2 ^ k := by
  have pos := Nat.two_pow_pos k
  have above : 2 ≤ roundUp (2 ^ k) size.toNat / 2 ^ k :=
    (Nat.le_div_iff_mul_le pos).mpr (least.trans (le_roundUp pos _))
  have index : (get size).toNat + 2 = roundUp (2 ^ k) size.toNat / 2 ^ k := by
    rw [get, BitVec.toNat_sub_of_le]
    · rw [BitVec.toNat_udiv, alignUp_toNat most, sizeofSizeT_toNat, shift_toNat]
      omega
    · rw [BitVec.le_def, BitVec.toNat_udiv, alignUp_toNat most, sizeofSizeT_toNat, shift_toNat]
      exact above
  rw [index, Nat.div_mul_cancel (dvd_roundUp _ _)]

/-- The subtraction of the shift, which may wrap around, takes no two indices together. -/
theorem get_eq_iff (most : size.toNat ≤ 16 * 2 ^ k) (most' : other.toNat ≤ 16 * 2 ^ k) :
    get size = get other ↔ roundUp (2 ^ k) size.toNat = roundUp (2 ^ k) other.toNat := by
  rw [get, get, BitVec.sub_left_inj, ← BitVec.toNat_inj, BitVec.toNat_udiv, BitVec.toNat_udiv, alignUp_toNat most,
    alignUp_toNat most', sizeofSizeT_toNat]
  exact Nat.div_left_inj (dvd_roundUp _ _) (dvd_roundUp _ _)

theorem get_mono (least : 2 * 2 ^ k ≤ size.toNat) (most : other.toNat ≤ 16 * 2 ^ k)
    (le : size.toNat ≤ other.toNat) : get size ≤ get other := by
  have rounded := roundUp_mono (2 ^ k) le
  rw [get_toNat least (le.trans most), get_toNat (least.trans le) most] at rounded
  rw [BitVec.le_def]
  have := Nat.le_of_mul_le_mul_right rounded (Nat.two_pow_pos k)
  omega

/-- The sizes in the last class below `maxSize` have the index after the last pool. -/
theorem get_lt_iff (least : 2 * 2 ^ k ≤ size.toNat) (most : size.toNat ≤ 16 * 2 ^ k) :
    get size < poolsCount (2 ^ k) ↔ size.toNat ≤ 15 * 2 ^ k := by
  have pos := Nat.two_pow_pos k
  have rounded := get_toNat least most
  rw [BitVec.lt_def, poolsCount_toNat]
  constructor
  · intro below
    have few : ((get size).toNat + 2) * 2 ^ k ≤ 15 * 2 ^ k := Nat.mul_le_mul_right _ (by omega)
    exact (le_roundUp pos _).trans (rounded ▸ few)
  · intro below
    have few := roundUp_le pos below (Nat.dvd_mul_left _ 15)
    rw [rounded] at few
    have := Nat.le_of_mul_le_mul_right few pos
    omega

end Index

/-! ## What a request is promised -/

variable {W : Nat} {T : Type}

theorem construct_eq (small : (poolsCount W).toNat ≤ 255) {n fuel : Nat} {i : UInt8}
    (left : i.toNat + n = (poolsCount W).toNat) (enough : n ≤ fuel) :
    construct T W fuel i = .ok (List.replicate n Pool.init) := by
  induction n generalizing i fuel with
  | zero =>
    have done : ¬ i.toNat < (poolsCount W).toNat := by omega
    unfold construct
    simp [done]
  | succ n ih =>
    have more : i.toNat < (poolsCount W).toNat := by omega
    obtain ⟨fuel, rfl⟩ : ∃ f, fuel = f + 1 := ⟨fuel - 1, by omega⟩
    -- the counter stays in the range of its type
    have next : (i + 1).toNat = i.toNat + 1 := by
      rw [UInt8.toNat_add, show (1 : UInt8).toNat = 1 from rfl, Nat.mod_eq_of_lt (by omega)]
    unfold construct
    simp only [more, if_true]
    rw [ih (by omega) (by omega)]
    rfl

theorem init_eq (T : Type) (k : Nat) : init T (2 ^ k) = .ok (List.replicate 14 Pool.init) := by
  have count := poolsCount_toNat k
  apply construct_eq
  · omega
  · rw [count]
    rfl
  · decide

/-- The pool at an index, if the constructor built one there. -/
def poolAt (T : Type) (index : SizeT W) : Option (Pool T) :=
  match init T W with
  | .ok pools => pools[index.toNat]?
  | .error _ => none

theorem poolAt_isSome {k : Nat} {index : SizeT (2 ^ k)} :
    (poolAt T index).isSome = true ↔ index < poolsCount (2 ^ k) := by
  simp [poolAt, init_eq, BitVec.lt_def, poolsCount_toNat]

/-- What a request of a size is promised: one allocator that takes and gives back, and the
pool of all sizes that are rounded up like this one. -/
structure Meets (T : Type) (bytes : SizeT W) : Prop where
  routed : (Object.operatorNew bytes = none ∧ Object.operatorDelete bytes = none) ∨
    ∃ index, Object.operatorNew bytes = some index ∧ Object.operatorDelete bytes = some index ∧
      index < poolsCount W ∧ (poolAt T index).isSome
  same : ∀ other, other ≤ maxSize W → bytes ≤ maxSize W →
    (get bytes = get other ↔ roundUp W bytes.toNat = roundUp W other.toNat)
  monotone : ∀ other, bytes ≤ other → other ≤ maxSize W → get bytes ≤ get other

/-- `operator new` and `operator delete` test the size in opposite ways, and agree. -/
theorem operatorDelete_eq (bytes : SizeT W) : Object.operatorDelete bytes = Object.operatorNew bytes := by
  unfold Object.operatorDelete Object.operatorNew
  by_cases small : bytes ≤ maxSize W
  · simp [small, BitVec.not_lt.mpr small]
  · simp [small, BitVec.not_le.mp small]

theorem operatorNew_pooled {bytes : SizeT W} (small : bytes ≤ maxSize W) :
    Object.operatorNew bytes = some (get bytes) := by
  simp [Object.operatorNew, BitVec.not_lt.mpr small]

theorem operatorNew_global {bytes : SizeT W} (large : maxSize W < bytes) : Object.operatorNew bytes = none := by
  simp [Object.operatorNew, large]

/-- The promise is kept for all sizes but those that are rounded up to `maxSize`. -/
theorem meets_iff (T : Type) (k : Nat) (bytes : SizeT (2 ^ k)) (least : minSize (2 ^ k) ≤ bytes) :
    Meets T bytes ↔ bytes.toNat ≤ 15 * 2 ^ k ∨ 16 * 2 ^ k < bytes.toNat := by
  have low : 2 * 2 ^ k ≤ bytes.toNat := by rwa [BitVec.le_def, minSize_toNat] at least
  have small_iff : bytes ≤ maxSize (2 ^ k) ↔ bytes.toNat ≤ 16 * 2 ^ k := by rw [BitVec.le_def, maxSize_toNat]
  constructor
  · intro meets
    by_cases small : bytes ≤ maxSize (2 ^ k)
    · left
      rcases meets.routed with ⟨global, _⟩ | ⟨index, pooled, _, below, _⟩
      · rw [operatorNew_pooled small] at global
        cases global
      · rw [operatorNew_pooled small] at pooled
        obtain rfl := Option.some.inj pooled
        exact (get_lt_iff low (small_iff.mp small)).mp below
    · right
      rw [small_iff] at small
      omega
  · intro sizes
    constructor
    -- the sizes in between are rounded up to `maxSize`, whose index is that after the last pool
    · rw [operatorDelete_eq]
      rcases sizes with small | large
      · have below := (get_lt_iff low (by omega)).mpr small
        have pooled := operatorNew_pooled (small_iff.mpr (by omega))
        exact .inr ⟨get bytes, pooled, pooled, below, poolAt_isSome.mpr below⟩
      · have global := operatorNew_global (BitVec.not_le.mp (by rw [small_iff]; omega))
        exact .inl ⟨global, global⟩
    · intro other most' most
      rw [BitVec.le_def, maxSize_toNat] at most'
      exact get_eq_iff (small_iff.mp most) most'
    · intro other le most
      rw [BitVec.le_def, maxSize_toNat] at most
      exact get_mono low most (BitVec.le_def.mp le)

theorem meets_iff_three_words :
    Meets Nat (24 : SizeT (2 ^ 3)) ↔ (24 : SizeT (2 ^ 3)).toNat ≤ 15 * 2 ^ 3 ∨
      16 * 2 ^ 3 < (24 : SizeT (2 ^ 3)).toNat :=
  meets_iff Nat 3 24 (by decide)

/-- With eight bytes in a word, a request of 128 bytes goes to the pool with index 14 of 14. -/
theorem index_outside : minSize 8 ≤ (128 : SizeT 8) ∧ ¬ Meets Nat (128 : SizeT 8) := by
  refine ⟨by decide, fun meets => ?_⟩
  rcases meets.routed with ⟨large, _⟩ | ⟨index, small, _, below, _⟩
  · exact absurd large (by decide)
  · have last : Object.operatorNew (128 : SizeT 8) = some (poolsCount 8) := by decide
    obtain rfl := Option.some.inj (last.symm.trans small)
    exact absurd below (by decide)

end ObjectAllocator

end SmallObject
