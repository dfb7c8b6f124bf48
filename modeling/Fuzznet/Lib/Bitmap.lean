/-
# Bitmaps over bytes

Bit `i` of a bitmap is bit `i % 8` of its byte `i / 8`.  Setting and clearing a bit change that
bit and no other (`bitGet_bitSet`, `bitGet_bitClear`), so the number of set bits below a bound
goes up or down by one (`bitCount_bitSet`, `bitCount_bitClear`).
-/

import Mathlib.Data.Nat.Notation

namespace Fuzznet
namespace Lib

/-- Whether bit `i` is set. -/
def bitGet (map : List UInt8) (i : ℕ) : Bool := (map.getD (i / 8) 0).toNat.testBit (i % 8)

/-- The byte with bit `k` alone. -/
def bitMask (k : ℕ) : UInt8 := UInt8.ofNat (1 <<< k)

/-- Bit `i` set. -/
def bitSet (map : List UInt8) (i : ℕ) : List UInt8 :=
  map.set (i / 8) (map.getD (i / 8) 0 ||| bitMask (i % 8))

/-- Bit `i` cleared. -/
def bitClear (map : List UInt8) (i : ℕ) : List UInt8 :=
  map.set (i / 8) (map.getD (i / 8) 0 &&& ~~~bitMask (i % 8))

/-- The set bits below `n`, counted. -/
def bitCount (map : List UInt8) : ℕ → ℕ
  | 0 => 0
  | n + 1 => bitCount map n + (bitGet map n).toNat

variable {map map' : List UInt8} {i j n : ℕ}

@[simp] theorem length_bitSet : (bitSet map i).length = map.length := List.length_set

@[simp] theorem length_bitClear : (bitClear map i).length = map.length := List.length_set

theorem testBit_bitMask {k j : ℕ} (hk : k < 8) :
    (bitMask k).toNat.testBit j = decide (k = j) := by
  have hpow : 2 ^ k < 2 ^ 8 := Nat.pow_lt_pow_right Nat.one_lt_two hk
  rw [bitMask, Nat.one_shiftLeft, UInt8.toNat_ofNat_of_lt' hpow, Nat.testBit_two_pow]

theorem testBit_not_bitMask {k j : ℕ} (hk : k < 8) (hj : j < 8) :
    (~~~bitMask k).toNat.testBit j = !decide (k = j) := by
  rw [← testBit_bitMask hk, UInt8.toNat, UInt8.toBitVec_not, ← BitVec.getLsbD, BitVec.getLsbD_not,
    decide_eq_true hj, Bool.true_and]
  rfl

theorem getD_set_byte {b : UInt8} {k : ℕ} (hi : i < map.length) :
    (map.set i b).getD k 0 = if i = k then b else map.getD k 0 := by
  rw [List.getD_eq_getElem?_getD, List.getElem?_set, List.getD_eq_getElem?_getD]
  split
  next => rfl
  next => rfl

/-- **Setting a bit** changes that bit alone. -/
theorem bitGet_bitSet (hi : i / 8 < map.length) :
    bitGet (bitSet map i) j = (decide (i = j) || bitGet map j) := by
  have hmod : i % 8 < 8 := Nat.mod_lt _ (by omega)
  unfold bitGet bitSet
  rw [getD_set_byte hi]
  split
  next heq =>
    rw [UInt8.toNat_or, Nat.testBit_or, testBit_bitMask hmod, heq, Bool.or_comm]
    congr 1
    exact decide_eq_decide.2 (by omega)
  next hne =>
    rw [decide_eq_false (by rintro rfl; exact hne rfl), Bool.false_or]

/-- **Clearing a bit** changes that bit alone. -/
theorem bitGet_bitClear (hi : i / 8 < map.length) :
    bitGet (bitClear map i) j = (!decide (i = j) && bitGet map j) := by
  have hmod : i % 8 < 8 := Nat.mod_lt _ (by omega)
  unfold bitGet bitClear
  rw [getD_set_byte hi]
  split
  next heq =>
    rw [UInt8.toNat_and, Nat.testBit_and, testBit_not_bitMask hmod (Nat.mod_lt _ (by omega)), heq,
      Bool.and_comm]
    congr 2
    exact decide_eq_decide.2 (by omega)
  next hne =>
    rw [decide_eq_false (by rintro rfl; exact hne rfl), Bool.not_false, Bool.true_and]

/-! ## The count -/

theorem bitCount_congr (h : ∀ j < n, bitGet map' j = bitGet map j) :
    bitCount map' n = bitCount map n := by
  induction n with
  | zero => rfl
  | succ n ih =>
    rw [bitCount, bitCount, ih fun j hj => h j (Nat.lt_succ_of_lt hj), h n (Nat.lt_succ_self n)]

/-- Two bitmaps that differ below `n` in bit `i`, which is set in the second alone. -/
theorem bitCount_of_one_more (hi : i < n) (hclear : bitGet map i = false)
    (hset : bitGet map' i = true) (hrest : ∀ j < n, j ≠ i → bitGet map' j = bitGet map j) :
    bitCount map' n = bitCount map n + 1 := by
  induction n with
  | zero => exact absurd hi (Nat.not_lt_zero i)
  | succ n ih =>
    rw [bitCount, bitCount]
    by_cases heq : i = n
    · subst heq
      rw [hset, hclear, bitCount_congr fun j hj => hrest j (by omega) (by omega)]
      rfl
    · rw [ih (by omega) fun j hj hne => hrest j (by omega) hne, hrest n (by omega) (Ne.symm heq)]
      omega

theorem bitCount_bitSet (hi : i / 8 < map.length) (hn : i < n) (hclear : bitGet map i = false) :
    bitCount (bitSet map i) n = bitCount map n + 1 := by
  refine bitCount_of_one_more hn hclear ?_ fun j _ hne => ?_
  · rw [bitGet_bitSet hi, decide_eq_true rfl, Bool.true_or]
  · rw [bitGet_bitSet hi, decide_eq_false (Ne.symm hne), Bool.false_or]

theorem bitCount_bitClear (hi : i / 8 < map.length) (hn : i < n) (hset : bitGet map i = true) :
    bitCount (bitClear map i) n + 1 = bitCount map n := by
  refine (bitCount_of_one_more hn ?_ hset fun j _ hne => ?_).symm
  · rw [bitGet_bitClear hi, decide_eq_true rfl, Bool.not_true, Bool.false_and]
  · rw [bitGet_bitClear hi, decide_eq_false (Ne.symm hne), Bool.not_false, Bool.true_and]

theorem bitCount_le : bitCount map n ≤ n := by
  induction n with
  | zero => exact Nat.le_refl _
  | succ n ih =>
    rw [bitCount]
    have := Bool.toNat_le (bitGet map n)
    omega

/-- **As many bits as there are** is all of them. -/
theorem bitCount_eq_iff : bitCount map n = n ↔ ∀ i < n, bitGet map i = true := by
  induction n with
  | zero => exact ⟨fun _ i hi => absurd hi (Nat.not_lt_zero i), fun _ => rfl⟩
  | succ n ih =>
    rw [bitCount]
    have hle : bitCount map n ≤ n := bitCount_le
    constructor
    · intro h i hi
      have hbit := Bool.toNat_le (bitGet map n)
      rcases Nat.lt_succ_iff_lt_or_eq.1 hi with hlt | rfl
      · exact ih.1 (by omega) i hlt
      · exact Bool.toNat_eq_one.1 (by omega)
    · intro h
      rw [ih.2 fun i hi => h i (Nat.lt_succ_of_lt hi), h n (Nat.lt_succ_self n)]
      rfl

end Lib
end Fuzznet
