/-
# Reading back what was written

The big-endian integers of `wire/bytes.h` as a codec: `getBe` at a field's offset reads
the number `putBe` wrote there, whatever stands around it.  A record laid out as fields
one behind the other is read back field by field with `getBe_append_left`,
`getBe_append_right` and `getBe_putBe`; `putBe_getBe` is the way back, from bytes read to the
same bytes.
-/

import Fuzznet.Wire.Bytes
import Mathlib.Data.List.Induction
import Mathlib.Tactic.Ring

namespace Fuzznet
namespace Wire

@[simp] theorem length_putBe (n v : ℕ) : (putBe n v).length = n := by
  simp [putBe]

/-- The first byte is the most significant one. -/
theorem putBe_succ (n v : ℕ) : putBe (n + 1) v = UInt8.ofNat (v >>> (8 * n)) :: putBe n v := by
  unfold putBe
  rw [List.range_succ_eq_map, List.map_cons, List.map_map]
  congr 1
  refine List.map_congr_left fun i _ => ?_
  show UInt8.ofNat (v >>> (8 * (n + 1 - 1 - (i + 1)))) = UInt8.ofNat (v >>> (8 * (n - 1 - i)))
  rw [show n + 1 - 1 - (i + 1) = n - 1 - i by omega]

/-- The bytes of `v` behind a number already read. -/
theorem foldl_putBe (n v acc : ℕ) :
    (putBe n v).foldl (fun x b => x * 256 + b.toNat) acc = acc * 256 ^ n + v % 256 ^ n := by
  induction n generalizing acc with
  | zero => simp [putBe, Nat.mod_one]
  | succ n ih =>
    have hbyte : (UInt8.ofNat (v >>> (8 * n))).toNat = v / 256 ^ n % 256 := by
      rw [UInt8.toNat_ofNat', Nat.shiftRight_eq_div_pow, pow_mul]
      rfl
    rw [putBe_succ, List.foldl_cons, ih, hbyte, Nat.mod_pow_succ]
    ring

theorem getBe_append_left {a b : Bytes} {off len : ℕ} (h : off + len ≤ a.length) :
    getBe (a ++ b) off len = getBe a off len := by
  unfold getBe
  rw [List.drop_append_of_le_length (by omega), List.take_append_of_le_length]
  rw [List.length_drop]
  omega

theorem getBe_append_right {a b : Bytes} {off len : ℕ} (h : a.length ≤ off) :
    getBe (a ++ b) off len = getBe b (off - a.length) len := by
  unfold getBe
  rw [List.drop_append, List.drop_of_length_le h, List.nil_append]

/-- A field is read behind the one in front of it. -/
theorem getBe_skip {n v off len : ℕ} {rest : Bytes} (h : n ≤ off) :
    getBe (putBe n v ++ rest) off len = getBe rest (off - n) len := by
  rw [getBe_append_right (by simpa using h), length_putBe]

theorem getBe_cons {b : UInt8} {off len : ℕ} {rest : Bytes} (h : 0 < off) :
    getBe (b :: rest) off len = getBe rest (off - 1) len :=
  getBe_append_right (a := [b]) h

/-- **A number written is read back**, cut to the bytes it was given. -/
theorem getBe_putBe (n v : ℕ) (rest : Bytes) : getBe (putBe n v ++ rest) 0 n = v % 256 ^ n := by
  rw [getBe_append_left (by simp)]
  unfold getBe
  rw [List.drop_zero, List.take_of_length_le (by simp), foldl_putBe]
  simp

theorem getBe_putBe_of_lt {n v : ℕ} (rest : Bytes) (hv : v < 256 ^ n) :
    getBe (putBe n v ++ rest) 0 n = v := by
  rw [getBe_putBe, Nat.mod_eq_of_lt hv]

/-- One byte, read in place. -/
theorem getBe_byte (b : UInt8) (rest : Bytes) : getBe (b :: rest) 0 1 = b.toNat := by
  simp [getBe]

/-- The last byte is the least significant one. -/
theorem putBe_snoc (n v : ℕ) (b : UInt8) : putBe (n + 1) (v * 256 + b.toNat) = putBe n v ++ [b] := by
  have hb := b.toNat_lt
  unfold putBe
  rw [List.range_succ, List.map_append, List.map_singleton]
  congr 1
  · refine List.map_congr_left fun i hi => ?_
    have hlt := List.mem_range.1 hi
    have hcut : (v * 256 + b.toNat) / 2 ^ 8 = v := by omega
    have hpos : 8 * (n + 1 - 1 - i) = 8 + 8 * (n - 1 - i) := by omega
    rw [hpos, Nat.shiftRight_add, Nat.shiftRight_eq_div_pow _ 8, hcut]
  · have hlow : UInt8.ofNat (v * 256 + b.toNat) = b := by
      apply UInt8.toNat.inj
      rw [UInt8.toNat_ofNat']
      omega
    simp [hlow]

/-- **A number read is written back** as the bytes it was read from. -/
theorem putBe_foldl (bs : Bytes) :
    putBe bs.length (bs.foldl (fun v b => v * 256 + b.toNat) 0) = bs := by
  induction bs using List.reverseRecOn with
  | nil => rfl
  | append_singleton bs b ih =>
    rw [List.foldl_append, List.length_append, List.foldl_cons, List.foldl_nil,
      List.length_singleton, putBe_snoc, ih]

/-- A number below the bytes it is read from. -/
theorem foldl_lt (bs : Bytes) :
    bs.foldl (fun v b => v * 256 + b.toNat) 0 < 256 ^ bs.length := by
  induction bs using List.reverseRecOn with
  | nil => simp
  | append_singleton bs b ih =>
    have hb := b.toNat_lt
    rw [List.foldl_append, List.length_append, List.foldl_cons, List.foldl_nil,
      List.length_singleton, pow_succ]
    omega

theorem putBe_getBe {bs : Bytes} {off n : ℕ} (h : off + n ≤ bs.length) :
    putBe n (getBe bs off n) = (bs.drop off).take n := by
  have hlen : ((bs.drop off).take n).length = n := by
    rw [List.length_take, List.length_drop]
    omega
  have hback := putBe_foldl ((bs.drop off).take n)
  rwa [hlen] at hback

/-- A number read in place, and what is behind it. -/
theorem putBe_getBe_append (bs : Bytes) (off n : ℕ) (h : off + n ≤ bs.length) :
    putBe n (getBe bs off n) ++ bs.drop (off + n) = bs.drop off := by
  rw [putBe_getBe h, ← List.drop_drop, List.take_append_drop]

theorem getBe_lt (bs : Bytes) (off n : ℕ) : getBe bs off n < 256 ^ n := by
  refine Nat.lt_of_lt_of_le (foldl_lt ((bs.drop off).take n)) (Nat.pow_le_pow_right (by omega) ?_)
  rw [List.length_take]
  omega

/-- A bit vector of `n` bytes holds the number read of them. -/
theorem toNat_getBe (bs : Bytes) (off n : ℕ) :
    (BitVec.ofNat (8 * n) (getBe bs off n)).toNat = getBe bs off n := by
  have hlt : getBe bs off n < (2 ^ 8) ^ n := getBe_lt bs off n
  rw [BitVec.toNat_ofNat, pow_mul, Nat.mod_eq_of_lt hlt]

/-! ## Fields one behind the other -/

/-- What is behind a field. -/
theorem drop_next {bs field rest : Bytes} {off m : ℕ} (h : bs.drop off = field ++ rest)
    (hm : off + field.length = m) : bs.drop m = rest := by
  rw [← hm, ← List.drop_drop, h, List.drop_left]

theorem drop_next_cons {bs rest : Bytes} {off m : ℕ} {b : UInt8} (h : bs.drop off = b :: rest)
    (hm : off + 1 = m) : bs.drop m = rest := by
  rw [← hm, ← List.drop_drop, h, List.drop_succ_cons, List.drop_zero]

theorem getBe_of_drop {bs rest : Bytes} {off n v : ℕ} (h : bs.drop off = putBe n v ++ rest)
    (hv : v < 256 ^ n) : getBe bs off n = v := by
  have hback := getBe_putBe_of_lt rest hv
  rw [← h] at hback
  exact hback

theorem getD_of_drop {bs rest : Bytes} {off : ℕ} {b : UInt8} (h : bs.drop off = b :: rest) :
    bs.getD off 0 = b := by
  have hget : (bs.drop off)[0]? = some b := by rw [h]; rfl
  rw [List.getElem?_drop, Nat.add_zero] at hget
  rw [List.getD_eq_getElem?_getD, hget, Option.getD_some]

/-- A byte read in place, and what is behind it. -/
theorem getD_cons_drop {bs : Bytes} {off m : ℕ} (h : off < bs.length) (hm : off + 1 = m) :
    bs.getD off 0 :: bs.drop m = bs.drop off := by
  rw [← hm, List.drop_eq_getElem_cons h, List.getD_eq_getElem?_getD, List.getElem?_eq_getElem h,
    Option.getD_some]

/-- The last bytes of a number written are the number of its last digits. -/
theorem putBe_add (m k v : ℕ) : ∃ front : Bytes, front.length = m ∧
    putBe (m + k) v = front ++ putBe k v := by
  induction m with
  | zero => exact ⟨[], rfl, by rw [Nat.zero_add, List.nil_append]⟩
  | succ m ih =>
    obtain ⟨front, hlen, heq⟩ := ih
    refine ⟨UInt8.ofNat (v >>> (8 * (m + k))) :: front, congrArg Nat.succ hlen, ?_⟩
    rw [show m + 1 + k = m + k + 1 by omega, putBe_succ, heq, List.cons_append]

/-- `n` bytes hold a bit vector of `n` bytes. -/
theorem toNat_lt_be {n : ℕ} (b : BitVec (8 * n)) : b.toNat < 256 ^ n := by
  have hlt := b.isLt
  rwa [pow_mul] at hlt

theorem toNat_lt_bytes (b : Bytes32) : b.toNat < 256 ^ 32 := toNat_lt_be (n := 32) b

theorem toNat_lt_sig (s : Sig) : s.toNat < 256 ^ 64 := toNat_lt_be (n := 64) s

theorem toNat_lt_be64 (x : UInt64) : x.toNat < 256 ^ 8 :=
  Nat.lt_of_lt_of_le x.toNat_lt (by norm_num)

end Wire
end Fuzznet
