/-
# The field of 256 elements

`chunk/erasure.c`, the arithmetic.  A byte is a polynomial over the two-element field
modulo `x^8 + x^4 + x^3 + x^2 + 1` (`0x11d`), addition is exclusive or, and a product
is read from two tables: `gf_log` has the exponent of `x` that a nonzero byte is, and
`gf_exp` the power, doubled so that a sum of two exponents needs no reduction.
`gf_init` fills them with one loop over the powers of `x`; it is the same tables
whenever it runs, so `gf_ready` is not modelled.

What makes the tables a field is one map: multiplication by `x`, `gfTurn`, which is
linear over exclusive or, and whose powers of one run through every nonzero byte with
period 255 (`iterate_injOn`, `exists_iterate`).  The loop of `gf_init` writes those
powers (`Filled`), and so a product by a nonzero byte is a number of turns
(`gfMul_eq_iterate`).  The field axioms are facts about the turns; `Gf` is the byte
with these operations, and a product is the one of the polynomials (`gf_tables`).
-/

import Fuzznet.Wire.Bytes
import Mathlib.Algebra.Field.Defs
import Mathlib.Algebra.GroupWithZero.Nat
import Mathlib.Data.Nat.Bitwise
import Mathlib.Dynamics.PeriodicPts.Defs
import Mathlib.Order.Interval.Finset.Nat

namespace Fuzznet
namespace Chunk

open Wire

/-! ### The tables -/

/-- `x <<= 1`, less the polynomial when the shift reaches `x^8`. -/
def gfNext (x : ℕ) : ℕ := if (x <<< 1) &&& 0x100 ≠ 0 then (x <<< 1) ^^^ 0x11d else x <<< 1

/-- What the first loop of `gf_init` works on. -/
structure GfFill where
  x : ℕ
  exp : Bytes
  log : Bytes

/-- One turn of the first loop of `gf_init`. -/
def gfFill (s : GfFill) (i : ℕ) : GfFill where
  x := gfNext s.x
  exp := s.exp.set i (UInt8.ofNat s.x)
  log := s.log.set s.x (UInt8.ofNat i)

/-- One turn of the second loop: the table again from 255 on. -/
def gfDouble (exp : Bytes) (i : ℕ) : Bytes := exp.set i (exp.getD (i - 255) 0)

/-- The tables after the first loop. -/
def gfFilled : GfFill :=
  (List.range 255).foldl gfFill ⟨1, List.replicate 512 0, List.replicate 256 0⟩

/-- `gf_exp` after `gf_init`. -/
def gfExp : Bytes := (List.range' 255 257).foldl gfDouble gfFilled.exp

/-- `gf_log` after `gf_init`. -/
def gfLog : Bytes := gfFilled.log

/-- `gf_mul`. -/
def gfMul (a b : UInt8) : UInt8 :=
  if a = 0 ∨ b = 0 then 0
  else gfExp.getD ((gfLog.getD a.toNat 0).toNat + (gfLog.getD b.toNat 0).toNat) 0

/-- `gf_inv`: the inverse of a nonzero byte. -/
def gfInv (a : UInt8) : UInt8 := gfExp.getD (255 - (gfLog.getD a.toNat 0).toNat) 0

/-! ### Multiplication by `x` -/

/-- A byte times `x`. -/
def gfTurn (b : UInt8) : UInt8 := UInt8.ofNat (gfNext b.toNat)

/-- `gfNext` over the bytes: it is a byte, and the shift and the polynomial. -/
theorem gfNext_bytes : ∀ n < 256, gfNext n < 256 ∧
    UInt8.ofNat (gfNext n) =
      (UInt8.ofNat n <<< 1) ^^^ (if UInt8.ofNat n >>> 7 = 0 then 0 else 0x1d) ∧
    (UInt8.ofNat n >>> 7 = 0 ∨ UInt8.ofNat n >>> 7 = 1) := by
  decide +kernel

theorem toNat_gfTurn (b : UInt8) : (gfTurn b).toNat = gfNext b.toNat := by
  rw [gfTurn, UInt8.toNat_ofNat', Nat.mod_eq_of_lt (gfNext_bytes _ b.toNat_lt).1]

/-- The shift and the polynomial, as bytes. -/
theorem gfTurn_eq (b : UInt8) :
    gfTurn b = (b <<< 1) ^^^ (if b >>> 7 = 0 then 0 else 0x1d) := by
  have hb := (gfNext_bytes b.toNat b.toNat_lt).2.1
  rwa [UInt8.ofNat_toNat] at hb

theorem shiftRight_seven (b : UInt8) : b >>> 7 = 0 ∨ b >>> 7 = 1 := by
  have hb := (gfNext_bytes b.toNat b.toNat_lt).2.2
  rwa [UInt8.ofNat_toNat] at hb

/-- **Multiplication by `x` is linear.** -/
theorem gfTurn_xor (a b : UInt8) : gfTurn (a ^^^ b) = gfTurn a ^^^ gfTurn b := by
  have hpoly : (if (a ^^^ b) >>> 7 = 0 then 0 else 0x1d : UInt8) =
      (if a >>> 7 = 0 then 0 else 0x1d) ^^^ (if b >>> 7 = 0 then 0 else 0x1d) := by
    rw [UInt8.shiftRight_xor]
    rcases shiftRight_seven a with ha | ha <;> rcases shiftRight_seven b with hb | hb <;>
      rw [ha, hb] <;> rfl
  rw [gfTurn_eq, gfTurn_eq a, gfTurn_eq b, hpoly, UInt8.shiftLeft_xor]
  ac_rfl

theorem gfTurn_zero : gfTurn 0 = 0 := by decide

theorem iterate_gfTurn_zero (n : ℕ) : gfTurn^[n] 0 = 0 :=
  Function.iterate_fixed gfTurn_zero n

theorem iterate_gfTurn_xor (n : ℕ) (a b : UInt8) :
    gfTurn^[n] (a ^^^ b) = gfTurn^[n] a ^^^ gfTurn^[n] b :=
  Function.Semiconj₂.iterate gfTurn_xor n a b

/-! ### The powers of `x` -/

theorem iterate_255 : gfTurn^[255] 1 = 1 := by decide +kernel

/-- The period is 255: none of its largest proper divisors is one. -/
theorem minimalPeriod_gfTurn : Function.minimalPeriod gfTurn 1 = 255 := by
  have hdvd : Function.minimalPeriod gfTurn 1 ∣ 255 :=
    Function.IsPeriodicPt.minimalPeriod_dvd iterate_255
  have hdiv : ∀ d < 256, d ∣ 255 → d = 255 ∨ d ∣ 85 ∨ d ∣ 51 ∨ d ∣ 15 := by decide +kernel
  have hno : ∀ n, gfTurn^[n] 1 ≠ 1 → ¬ Function.minimalPeriod gfTurn 1 ∣ n := by
    intro n hn h
    exact hn (Function.isPeriodicPt_iff_minimalPeriod_dvd.2 h)
  have hlt : Function.minimalPeriod gfTurn 1 < 256 :=
    Nat.lt_succ_of_le (Nat.le_of_dvd (by decide) hdvd)
  rcases hdiv _ hlt hdvd with h | h | h | h
  · exact h
  · exact absurd h (hno 85 (by decide +kernel))
  · exact absurd h (hno 51 (by decide +kernel))
  · exact absurd h (hno 15 (by decide))

/-- The first 255 powers are distinct. -/
theorem iterate_injOn {i j : ℕ} (hi : i < 255) (hj : j < 255)
    (h : gfTurn^[i] 1 = gfTurn^[j] 1) : i = j := by
  rw [← minimalPeriod_gfTurn] at hi hj
  exact Function.iterate_injOn_Iio_minimalPeriod hi hj h

theorem iterate_ne_zero {i : ℕ} (hi : i < 255) : gfTurn^[i] 1 ≠ 0 := by
  intro h
  have h255 : gfTurn^[255 - i + i] 1 = 0 := by
    rw [Function.iterate_add_apply, h, iterate_gfTurn_zero]
  rw [show 255 - i + i = 255 by omega, iterate_255] at h255
  exact absurd h255 (by decide)

/-- **Every nonzero byte is a power of `x`**: there are 255 of either. -/
theorem exists_iterate {a : UInt8} (ha : a ≠ 0) : ∃ i < 255, gfTurn^[i] 1 = a := by
  have hpos : ∀ b : UInt8, b ≠ 0 → b.toNat ∈ Finset.Icc 1 255 := by
    intro b hb
    have hlt := b.toNat_lt
    have hne : b.toNat ≠ 0 := fun h => hb (UInt8.toNat_inj.1 h)
    rw [Finset.mem_Icc]
    omega
  have himage : (Finset.range 255).image (fun i => (gfTurn^[i] 1).toNat) = Finset.Icc 1 255 := by
    refine Finset.eq_of_subset_of_card_le ?_ ?_
    · intro n hn
      obtain ⟨i, hi, rfl⟩ := Finset.mem_image.1 hn
      exact hpos _ (iterate_ne_zero (Finset.mem_range.1 hi))
    · rw [Finset.card_image_of_injOn, Finset.card_range, Nat.card_Icc]
      intro i hi j hj hij
      exact iterate_injOn (Finset.mem_range.1 hi) (Finset.mem_range.1 hj) (UInt8.toNat_inj.1 hij)
  have hmem := hpos a ha
  rw [← himage] at hmem
  obtain ⟨i, hi, heq⟩ := Finset.mem_image.1 hmem
  exact ⟨i, Finset.mem_range.1 hi, UInt8.toNat_inj.1 heq⟩

/-! ### What `gf_init` writes -/

/-- The tables after `n` turns of the first loop: the powers below `n`, and their exponents. -/
structure Filled (n : ℕ) (s : GfFill) : Prop where
  x : s.x = (gfTurn^[n] 1).toNat
  length_exp : s.exp.length = 512
  length_log : s.log.length = 256
  exp : ∀ i < n, s.exp[i]? = some (gfTurn^[i] 1)
  log : ∀ i < n, s.log[(gfTurn^[i] 1).toNat]? = some (UInt8.ofNat i)

/-- One turn: the power has not come up before, so no exponent is overwritten. -/
theorem Filled.step {n : ℕ} {s : GfFill} (h : Filled n s) (hn : n < 255) :
    Filled (n + 1) (gfFill s n) := by
  have hx : UInt8.ofNat s.x = gfTurn^[n] 1 := by rw [h.x, UInt8.ofNat_toNat]
  constructor
  · show gfNext s.x = _
    rw [h.x, Function.iterate_succ_apply', toNat_gfTurn]
  · show (s.exp.set n _).length = 512
    rw [List.length_set, h.length_exp]
  · show (s.log.set s.x _).length = 256
    rw [List.length_set, h.length_log]
  · intro i hi
    show (s.exp.set n (UInt8.ofNat s.x))[i]? = _
    rcases Nat.lt_succ_iff_lt_or_eq.1 hi with hlt | rfl
    · rw [List.getElem?_set_ne (by omega), h.exp i hlt]
    · rw [List.getElem?_set_self (by rw [h.length_exp]; omega), hx]
  · intro i hi
    show (s.log.set s.x (UInt8.ofNat n))[(gfTurn^[i] 1).toNat]? = _
    rcases Nat.lt_succ_iff_lt_or_eq.1 hi with hlt | rfl
    · have hne : s.x ≠ (gfTurn^[i] 1).toNat := by
        rw [h.x]
        intro heq
        have := iterate_injOn hn (by omega) (UInt8.toNat_inj.1 heq)
        omega
      rw [List.getElem?_set_ne hne, h.log i hlt]
    · rw [h.x, List.getElem?_set_self]
      rw [h.length_log]
      exact UInt8.toNat_lt _

theorem filled_foldl {n : ℕ} (hn : n ≤ 255) :
    Filled n ((List.range n).foldl gfFill ⟨1, List.replicate 512 0, List.replicate 256 0⟩) := by
  induction n with
  | zero =>
    refine ⟨rfl, List.length_replicate, List.length_replicate, ?_, ?_⟩
    · exact fun i hi => absurd hi (Nat.not_lt_zero i)
    · exact fun i hi => absurd hi (Nat.not_lt_zero i)
  | succ n ih =>
    rw [List.range_succ, List.foldl_append, List.foldl_cons, List.foldl_nil]
    exact (ih (by omega)).step (by omega)

theorem filled : Filled 255 gfFilled := filled_foldl (le_refl 255)

/-- The second loop repeats the powers: entry `i` is the power `i`, up to the end. -/
theorem getElem?_foldl_gfDouble {n : ℕ} (hn : n ≤ 257) :
    ((List.range' 255 n).foldl gfDouble gfFilled.exp).length = 512 ∧
      ∀ i < 255 + n, ((List.range' 255 n).foldl gfDouble gfFilled.exp)[i]? =
        some (gfTurn^[i] 1) := by
  induction n with
  | zero => exact ⟨filled.length_exp, fun i hi => filled.exp i hi⟩
  | succ n ih =>
    obtain ⟨hlen, hexp⟩ := ih (by omega)
    rw [List.range'_concat, List.foldl_append, List.foldl_cons, List.foldl_nil, one_mul, gfDouble]
    refine ⟨by rw [List.length_set, hlen], fun i hi => ?_⟩
    rcases Nat.lt_or_ge i (255 + n) with hlt | hge
    · rw [List.getElem?_set_ne (by omega), hexp i hlt]
    · obtain rfl : i = 255 + n := by omega
      rw [List.getElem?_set_self (by omega), List.getD_eq_getElem?_getD, hexp _ (by omega),
        Option.getD_some, show 255 + n - 255 = n by omega, show 255 + n = n + 255 by omega,
        Function.iterate_add_apply, iterate_255]

theorem getD_gfExp {i : ℕ} (hi : i < 512) : gfExp.getD i 0 = gfTurn^[i] 1 := by
  rw [List.getD_eq_getElem?_getD, gfExp, (getElem?_foldl_gfDouble (le_refl 257)).2 i hi,
    Option.getD_some]

/-- The exponent of a nonzero byte. -/
theorem exists_getD_gfLog {a : UInt8} (ha : a ≠ 0) :
    ∃ i < 255, (gfLog.getD a.toNat 0).toNat = i ∧ gfTurn^[i] 1 = a := by
  obtain ⟨i, hi, rfl⟩ := exists_iterate ha
  refine ⟨i, hi, ?_, rfl⟩
  rw [List.getD_eq_getElem?_getD, gfLog, filled.log i hi, Option.getD_some, UInt8.toNat_ofNat',
    Nat.mod_eq_of_lt (by omega)]

/-! ### The operations -/

theorem gfMul_zero_right (a : UInt8) : gfMul a 0 = 0 := if_pos (Or.inr rfl)

theorem gfMul_zero_left (b : UInt8) : gfMul 0 b = 0 := if_pos (Or.inl rfl)

theorem gfMul_comm (a b : UInt8) : gfMul a b = gfMul b a := by
  by_cases h : a = 0 ∨ b = 0
  · rw [gfMul, if_pos h, gfMul, if_pos h.symm]
  · rw [gfMul, if_neg h, gfMul, if_neg fun h' => h h'.symm, Nat.add_comm]

/-- **A product by a nonzero byte is a number of turns**, the same for every other factor. -/
theorem exists_gfMul_eq_iterate {a : UInt8} (ha : a ≠ 0) :
    ∃ i < 255, gfTurn^[i] 1 = a ∧ ∀ b, gfMul a b = gfTurn^[i] b := by
  obtain ⟨i, hi, hlog, hpow⟩ := exists_getD_gfLog ha
  refine ⟨i, hi, hpow, fun b => ?_⟩
  by_cases hb : b = 0
  · rw [hb, gfMul_zero_right, iterate_gfTurn_zero]
  · obtain ⟨j, hj, hlogb, hpowb⟩ := exists_getD_gfLog hb
    rw [gfMul, if_neg (not_or.2 ⟨ha, hb⟩), hlog, hlogb, getD_gfExp (by omega),
      Function.iterate_add_apply, hpowb]

theorem gfMul_xor (a b c : UInt8) : gfMul a (b ^^^ c) = gfMul a b ^^^ gfMul a c := by
  by_cases ha : a = 0
  · rw [ha, gfMul_zero_left, gfMul_zero_left, gfMul_zero_left, UInt8.xor_self]
  · obtain ⟨i, _, _, hmul⟩ := exists_gfMul_eq_iterate ha
    rw [hmul, hmul, hmul, iterate_gfTurn_xor]

theorem gfMul_one (a : UInt8) : gfMul a 1 = a := by
  by_cases ha : a = 0
  · rw [ha, gfMul_zero_left]
  · obtain ⟨i, _, hpow, hmul⟩ := exists_gfMul_eq_iterate ha
    rw [hmul, hpow]

/-- Both sides are the turns of `a` and the turns of `c` on `b`. -/
theorem gfMul_assoc (a b c : UInt8) : gfMul (gfMul a b) c = gfMul a (gfMul b c) := by
  by_cases ha : a = 0
  · rw [ha, gfMul_zero_left, gfMul_zero_left, gfMul_zero_left]
  by_cases hc : c = 0
  · rw [hc, gfMul_zero_right, gfMul_zero_right, gfMul_zero_right]
  obtain ⟨i, _, _, hmula⟩ := exists_gfMul_eq_iterate ha
  obtain ⟨j, _, _, hmulc⟩ := exists_gfMul_eq_iterate hc
  rw [gfMul_comm _ c, gfMul_comm b c, hmulc, hmula, hmulc, hmula, ← Function.iterate_add_apply,
    ← Function.iterate_add_apply, Nat.add_comm]

theorem gfMul_gfInv {a : UInt8} (ha : a ≠ 0) : gfMul a (gfInv a) = 1 := by
  obtain ⟨i, hi, hlog, hpow⟩ := exists_getD_gfLog ha
  obtain ⟨j, hj, hpowj, hmul⟩ := exists_gfMul_eq_iterate ha
  obtain rfl : i = j := iterate_injOn hi hj (hpow.trans hpowj.symm)
  rw [hmul, gfInv, hlog, getD_gfExp (by omega), ← Function.iterate_add_apply,
    show i + (255 - i) = 255 by omega, iterate_255]

/-! ### The product without the tables -/

/-- `a` times `b` as polynomials: `b` times each power of `x` in `a`. -/
def gfShiftMul (a b : UInt8) : UInt8 :=
  (List.range 8).foldl (fun v i => if a.toNat.testBit i then v ^^^ gfTurn^[i] b else v) 0

theorem gfShiftMul_one : ∀ n < 256, gfShiftMul (UInt8.ofNat n) 1 = UInt8.ofNat n := by
  decide +kernel

theorem gfMul_gfTurn (b x : UInt8) : gfMul b (gfTurn x) = gfTurn (gfMul b x) := by
  by_cases hb : b = 0
  · rw [hb, gfMul_zero_left, gfMul_zero_left, gfTurn_zero]
  · obtain ⟨k, -, -, hmul⟩ := exists_gfMul_eq_iterate hb
    rw [hmul, hmul, ← Function.iterate_succ_apply, Function.iterate_succ_apply']

/-- **The tables multiply polynomials** modulo `0x11d`, and `gf_inv` inverts that. -/
theorem gf_tables (a b : UInt8) :
    gfMul a b = gfShiftMul a b ∧ (a ≠ 0 → gfShiftMul a (gfInv a) = 1) := by
  have hshift (b : UInt8) : gfMul a b = gfShiftMul a b := by
    have hpow (i : ℕ) : gfMul b (gfTurn^[i] 1) = gfTurn^[i] b := by
      rw [Function.Semiconj.iterate_right (gfMul_gfTurn b) i 1, gfMul_one]
    -- a product by `b` carries the fold that makes `a` of its powers to the one of the product
    have hfold : (List.range 8).foldl
        (fun v i => if a.toNat.testBit i then v ^^^ gfTurn^[i] b else v) (gfMul b 0) =
          gfMul b (gfShiftMul a 1) := List.foldl_hom (gfMul b) fun v i => by
      rw [← hpow]
      split_ifs
      · exact (gfMul_xor ..).symm
      · rfl
    have hone := gfShiftMul_one a.toNat a.toNat_lt
    rw [UInt8.ofNat_toNat] at hone
    rw [gfMul_zero_right, hone, gfMul_comm] at hfold
    exact hfold.symm
  exact ⟨hshift b, fun ha => (hshift _).symm.trans (gfMul_gfInv ha)⟩

/-! ### The field -/

/-- A byte as an element of the field. -/
@[ext] structure Gf where
  byte : UInt8
  deriving DecidableEq, Repr

namespace Gf

instance : Zero Gf := ⟨⟨0⟩⟩
instance : One Gf := ⟨⟨1⟩⟩
instance : Add Gf := ⟨fun a b => ⟨a.byte ^^^ b.byte⟩⟩
instance : Neg Gf := ⟨fun a => a⟩
instance : Sub Gf := ⟨fun a b => ⟨a.byte ^^^ b.byte⟩⟩
instance : Mul Gf := ⟨fun a b => ⟨gfMul a.byte b.byte⟩⟩

/-- `gf_inv` on the nonzero elements; a field has the inverse of zero be zero. -/
instance : Inv Gf := ⟨fun a => ⟨if a.byte = 0 then 0 else gfInv a.byte⟩⟩

@[simp] theorem byte_zero : (0 : Gf).byte = 0 := rfl
@[simp] theorem byte_one : (1 : Gf).byte = 1 := rfl
@[simp] theorem byte_add (a b : Gf) : (a + b).byte = a.byte ^^^ b.byte := rfl
@[simp] theorem byte_sub (a b : Gf) : (a - b).byte = a.byte ^^^ b.byte := rfl
@[simp] theorem byte_mul (a b : Gf) : (a * b).byte = gfMul a.byte b.byte := rfl

theorem byte_inv {a : Gf} (ha : a.byte ≠ 0) : a⁻¹.byte = gfInv a.byte := if_neg ha

theorem inv_mk {b : UInt8} (hb : b ≠ 0) : (⟨b⟩ : Gf)⁻¹ = ⟨gfInv b⟩ :=
  congrArg Gf.mk (if_neg hb)

theorem byte_eq_zero_iff {a : Gf} : a.byte = 0 ↔ a = 0 :=
  ⟨fun h => Gf.ext h, fun h => by rw [h, byte_zero]⟩

/-- **The bytes under `gf_mul` and exclusive or are a field.** -/
instance : Field Gf where
  add_assoc a b c := Gf.ext (UInt8.xor_assoc _ _ _)
  zero_add a := Gf.ext UInt8.zero_xor
  add_zero a := Gf.ext UInt8.xor_zero
  nsmul := nsmulRec
  zsmul := zsmulRec
  neg_add_cancel a := Gf.ext UInt8.xor_self
  add_comm a b := Gf.ext (UInt8.xor_comm _ _)
  sub_eq_add_neg a b := rfl
  mul_assoc a b c := Gf.ext (gfMul_assoc _ _ _)
  mul_comm a b := Gf.ext (gfMul_comm _ _)
  one_mul a := Gf.ext ((gfMul_comm _ _).trans (gfMul_one _))
  mul_one a := Gf.ext (gfMul_one _)
  left_distrib a b c := Gf.ext (gfMul_xor _ _ _)
  right_distrib a b c := by
    refine Gf.ext ?_
    simp only [byte_mul, byte_add, gfMul_comm _ c.byte, gfMul_xor]
  zero_mul a := Gf.ext (gfMul_zero_left a.byte)
  mul_zero a := Gf.ext (gfMul_zero_right a.byte)
  exists_pair_ne := ⟨0, 1, by decide⟩
  mul_inv_cancel a ha := by
    have hbyte : a.byte ≠ 0 := fun h => ha (byte_eq_zero_iff.1 h)
    refine Gf.ext ?_
    rw [byte_mul, byte_inv hbyte, gfMul_gfInv hbyte, byte_one]
  inv_zero := rfl
  nnqsmul := _
  qsmul := _

/-- An exclusive or over a list is the byte of the sum. -/
theorem foldl_xor {ι : Type*} (f : ι → Gf) (s : List ι) :
    (⟨s.foldl (fun v i => v ^^^ (f i).byte) 0⟩ : Gf) = (s.map f).sum := by
  have hfrom : ∀ b : UInt8,
      (⟨s.foldl (fun v i => v ^^^ (f i).byte) b⟩ : Gf) = ⟨b⟩ + (s.map f).sum := by
    induction s with
    | nil =>
      intro b
      rw [List.foldl_nil, List.map_nil, List.sum_nil, add_zero]
    | cons i s ih =>
      intro b
      rw [List.foldl_cons, ih, List.map_cons, List.sum_cons, ← add_assoc]
      rfl
  rw [hfrom 0]
  exact zero_add _

end Gf

end Chunk
end Fuzznet
