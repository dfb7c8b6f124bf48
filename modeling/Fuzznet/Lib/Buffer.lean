/-
# Byte ranges of a fixed buffer

A buffer is a list whose length never changes.  `load` reads a range of it and
`store` writes one, which is `memcpy` into the buffer; a `memmove` inside it is a
`store` of a `load`, since the range is read before any of it is written.  The
lemmas are the ones a proof about placement needs: a store that fits keeps the
length, is read back, and leaves every range it does not meet.
-/

import Mathlib.Data.List.Basic

namespace Fuzznet
namespace Lib

variable {α : Type*}

/-- The `len` values at `off`. -/
def load (buf : List α) (off len : ℕ) : List α := (buf.drop off).take len

/-- The buffer with `vs` written at `off`. -/
def store (buf : List α) (off : ℕ) (vs : List α) : List α :=
  buf.take off ++ vs ++ buf.drop (off + vs.length)

theorem length_load {buf : List α} {off len : ℕ} (h : off + len ≤ buf.length) :
    (load buf off len).length = len := by
  rw [load, List.length_take, List.length_drop]
  omega

variable {buf vs : List α}

/-- **A store that fits keeps the length.** -/
theorem length_store {off : ℕ} (h : off + vs.length ≤ buf.length) :
    (store buf off vs).length = buf.length := by
  rw [store, List.length_append, List.length_append, List.length_take, List.length_drop]
  omega

theorem getElem?_load {buf : List α} {off len i : ℕ} (hi : i < len) :
    (load buf off len)[i]? = buf[off + i]? := by
  rw [load, List.getElem?_take_of_lt hi, List.getElem?_drop]

theorem getElem?_store_of_lt {off i : ℕ} (hfit : off ≤ buf.length) (hi : i < off) :
    (store buf off vs)[i]? = buf[i]? := by
  have hlen : (buf.take off).length = off := by
    rw [List.length_take]
    omega
  rw [store, List.append_assoc, List.getElem?_append_left (by omega),
    List.getElem?_take_of_lt hi]

theorem getElem?_store_of_ge {off i : ℕ} (hfit : off ≤ buf.length) (hi : off + vs.length ≤ i) :
    (store buf off vs)[i]? = buf[i]? := by
  have hlen : (buf.take off ++ vs).length = off + vs.length := by
    rw [List.length_append, List.length_take]
    omega
  rw [store, List.getElem?_append_right (by omega), List.getElem?_drop, hlen]
  congr 1
  omega

theorem drop_store {off : ℕ} (h : off ≤ buf.length) :
    (store buf off vs).drop off = vs ++ buf.drop (off + vs.length) := by
  rw [store, List.append_assoc, List.drop_left' (by rw [List.length_take]; omega)]

/-- What a store wrote is read back. -/
theorem load_store_self {off : ℕ} (h : off + vs.length ≤ buf.length) :
    load (store buf off vs) off vs.length = vs := by
  have hlen : (buf.take off).length = off := by
    rw [List.length_take]
    omega
  rw [load, store, List.append_assoc, List.drop_left' hlen, List.take_left]

/-- **A range the store does not meet is read as before.** -/
theorem load_store_of_disjoint {off o n : ℕ} (h : off ≤ buf.length)
    (hdis : o + n ≤ off ∨ off + vs.length ≤ o) : load (store buf off vs) o n = load buf o n := by
  refine List.ext_getElem? fun i => ?_
  by_cases hi : i < n
  · rw [getElem?_load hi, getElem?_load hi]
    rcases hdis with hbelow | habove
    · exact getElem?_store_of_lt h (by omega)
    · exact getElem?_store_of_ge h (by omega)
  · rw [load, load, List.getElem?_take_eq_none (by omega), List.getElem?_take_eq_none (by omega)]

/-- Two ranges one behind the other are one range. -/
theorem load_append_load (buf : List α) (off m n : ℕ) :
    load buf off m ++ load buf (off + m) n = load buf off (m + n) := by
  rw [load, load, load, ← List.drop_drop, List.take_add]

/-- The range behind what stands in front of it. -/
theorem load_append_self {front mid back : List α} {off len : ℕ} (hoff : front.length = off)
    (hlen : mid.length = len) : load (front ++ (mid ++ back)) off len = mid := by
  rw [load, List.drop_left' hoff, List.take_left' hlen]

/-- A range written behind what stands in front of it. -/
theorem store_append_self {front mid back vs : List α} {off : ℕ} (hoff : front.length = off)
    (hlen : mid.length = vs.length) :
    store (front ++ (mid ++ back)) off vs = front ++ (vs ++ back) := by
  rw [store, List.take_left' hoff, ← List.drop_drop, List.drop_left' hoff, List.drop_left' hlen,
    List.append_assoc]

/-- **A range opened for `vs`** in front of `mid`: what is behind moves up, and as much of
the rest is lost. -/
theorem store_opened {front mid back vs : List α} {off k m : ℕ} (hoff : front.length = off)
    (hmid : mid.length = m) (hvs : vs.length = k) (hroom : k ≤ back.length) :
    store (store (front ++ (mid ++ back)) (off + k) (load (front ++ (mid ++ back)) off m)) off vs =
      front ++ (vs ++ (mid ++ back.drop k)) := by
  have hlow : ((front ++ (mid ++ back)).take (off + k)).length = off + k := by
    rw [List.length_take, List.length_append, List.length_append]
    omega
  have hfront : ((front ++ (mid ++ back)).take (off + k)).take off = front := by
    rw [List.take_take, Nat.min_eq_left (by omega), List.take_left' hoff]
  have hback : (front ++ (mid ++ back)).drop (off + k + m) = back.drop k := by
    rw [show off + k + m = off + (m + k) by omega, ← List.drop_drop, List.drop_left' hoff,
      ← List.drop_drop, List.drop_left' hmid]
  rw [load_append_self hoff hmid, store, store, hmid, hback, hvs, List.append_assoc _ mid,
    List.drop_left' hlow, List.take_append_of_le_length (by omega), hfront, List.append_assoc]

/-- A buffer overwritten whole. -/
theorem store_whole (h : vs.length = buf.length) : store buf 0 vs = vs := by
  rw [store, List.take_zero, List.nil_append, Nat.zero_add, List.drop_of_length_le (by omega),
    List.append_nil]

/-- What is written at the start is the start. -/
theorem take_store_zero (buf vs : List α) : (store buf 0 vs).take vs.length = vs := by
  rw [store, List.take_zero, List.nil_append, List.take_left]

/-- The rest of a buffer is its last range. -/
theorem load_rest {buf : List α} {off n : ℕ} (h : buf.length = off + n) :
    load buf off n = buf.drop off := by
  rw [load, List.take_of_length_le]
  rw [List.length_drop]
  omega

end Lib
end Fuzznet
