/-
# A list cut into pieces of one length

What a loop that reads `n` at a time sees: every piece `n` long but the last, none empty.
A list whose front is whole pieces is cut piece by piece (`pieces_append`), so two readers
that cut one list at different places see the same pieces where both cut at multiples of
`n`.

What a list of items comes to when each is laid out as `k` bytes: block `n` starts at
`n * k`, and cutting `k` bytes out there gives the layout of item `n` back.
-/

import Mathlib.Data.List.Basic

namespace Fuzznet
namespace Lib

/-! ## Blocks laid end to end -/

section

variable {α β : Type*} {f : α → List β} {k : ℕ}

theorem length_flatMap_blocks {l : List α} (hf : ∀ x ∈ l, (f x).length = k) :
    (l.flatMap f).length = l.length * k := by
  induction l with
  | nil => simp
  | cons a l ih =>
    rw [List.flatMap_cons, List.length_append, hf a (by simp),
      ih fun x hx => hf x (by simp [hx]), List.length_cons, Nat.succ_mul, Nat.add_comm]

theorem drop_flatMap_blocks {l : List α} (hf : ∀ x ∈ l, (f x).length = k) (n : ℕ) :
    (l.flatMap f).drop (n * k) = (l.drop n).flatMap f := by
  induction n generalizing l with
  | zero => simp
  | succ n ih =>
    cases l with
    | nil => simp
    | cons a l =>
      have ha : (f a).length = k := hf a (by simp)
      rw [List.flatMap_cons, List.drop_append, List.drop_of_length_le, List.nil_append, ha,
        Nat.succ_mul, Nat.add_sub_cancel, List.drop_succ_cons]
      · exact ih fun x hx => hf x (by simp [hx])
      · rw [ha, Nat.succ_mul]
        omega

/-- **Block `n` is the layout of item `n`.** -/
theorem block_flatMap {l : List α} (hf : ∀ x ∈ l, (f x).length = k) {n : ℕ} (hn : n < l.length) :
    ((l.flatMap f).drop (n * k)).take k = f l[n] := by
  rw [drop_flatMap_blocks hf, List.drop_eq_getElem_cons hn, List.flatMap_cons,
    ← hf l[n] (List.getElem_mem hn), List.take_left]

end

/-! ## Pieces -/

variable {α : Type*}

/-- How many pieces a list of this length has. -/
def pieceCount (n len : ℕ) : ℕ := (len + n - 1) / n

/-- The pieces of `n` of a list, the last one what is left. -/
def pieces (n : ℕ) (l : List α) : List (List α) :=
  (List.range (pieceCount n l.length)).map fun i => (l.drop (i * n)).take n

@[simp] theorem pieces_nil {n : ℕ} (h : 0 < n) : pieces n ([] : List α) = [] := by
  have hcount : pieceCount n 0 = 0 := by
    rw [pieceCount, Nat.div_eq_zero_iff]
    omega
  rw [pieces, List.length_nil, hcount]
  rfl

theorem pieceCount_add {n k m : ℕ} (h : 0 < n) : pieceCount n (k * n + m) = k + pieceCount n m := by
  unfold pieceCount
  rcases Nat.eq_zero_or_pos (m + n - 1) with hm | hm
  · have hn : n = 1 := by omega
    subst hn
    omega
  · rw [show k * n + m + n - 1 = m + n - 1 + k * n by omega, Nat.add_mul_div_right _ _ h,
      Nat.add_comm]

/-- **Whole pieces in front are cut by themselves.** -/
theorem pieces_append {n k : ℕ} {a b : List α} (h : 0 < n) (hlen : a.length = k * n) :
    pieces n (a ++ b) = pieces n a ++ pieces n b := by
  have hcount : pieceCount n a.length = k := by
    have hz : pieceCount n 0 = 0 := by
      rw [pieceCount, Nat.div_eq_zero_iff]
      omega
    rw [hlen, ← Nat.add_zero (k * n), pieceCount_add h, hz, Nat.add_zero]
  unfold pieces
  rw [List.length_append, hlen, pieceCount_add h, ← hlen, hcount, List.range_add,
    List.map_append, List.map_map]
  congr 1
  · refine List.map_congr_left fun i hi => ?_
    have hi' : (i + 1) * n ≤ k * n := Nat.mul_le_mul_right n (List.mem_range.1 hi)
    rw [Nat.add_mul, Nat.one_mul] at hi'
    rw [List.drop_append_of_le_length (by omega), List.take_append_of_le_length]
    rw [List.length_drop]
    omega
  · refine List.map_congr_left fun i _ => ?_
    rw [Function.comp_apply, Nat.add_mul, ← hlen, ← List.drop_drop, List.drop_left]

theorem pieces_of_le {n : ℕ} {l : List α} (h₀ : l ≠ []) (h : l.length ≤ n) : pieces n l = [l] := by
  have hpos := List.length_pos_of_ne_nil h₀
  have hcount : pieceCount n l.length = 1 := by
    rw [pieceCount, Nat.div_eq_iff (by omega)]
    omega
  rw [pieces, hcount]
  simp [List.take_of_length_le h]

/-- One piece, and the pieces of what is behind it. -/
theorem pieces_cons {n : ℕ} {l : List α} (h : 0 < n) (hlen : n ≤ l.length) :
    pieces n l = l.take n :: pieces n (l.drop n) := by
  have hfront : (l.take n).length = 1 * n := by
    rw [List.length_take]
    omega
  have hne : l.take n ≠ [] := by
    rw [Ne, ← List.length_eq_zero_iff]
    omega
  conv => lhs; rw [← List.take_append_drop n l]
  rw [pieces_append h hfront, pieces_of_le hne (by omega)]
  rfl

theorem flatten_pieces {n : ℕ} (h : 0 < n) (l : List α) : (pieces n l).flatten = l := by
  induction hl : l.length using Nat.strongRecOn generalizing l with
  | ind m ih =>
    rcases Nat.lt_or_ge l.length n with hlt | hge
    · rcases eq_or_ne l [] with rfl | hne
      · rw [pieces_nil h, List.flatten_nil]
      · rw [pieces_of_le hne (Nat.le_of_lt hlt)]
        simp
    · rw [pieces_cons h hge, List.flatten_cons,
        ih (l.drop n).length (by rw [List.length_drop]; omega) _ rfl, List.take_append_drop]

end Lib
end Fuzznet
