/-
# The newest that fit

What a store with a bound keeps of a growing list when it drops from the front: the longest
suffix whose weights together fit (`newest`).  It is kept up to date without the list: the
newest of a list with one more behind it are the newest of those held with one more behind
them (`newest_append_singleton`), which is to drop the oldest until the new one fits
(`newest_drop_until`).  Where everything weighs one it is the last `cap` (`newest_one`).
-/

import Mathlib.Algebra.BigOperators.Group.List.Basic
import Mathlib.Algebra.GroupWithZero.Nat

namespace Fuzznet
namespace Lib

variable {α : Type*}

/-- The weights of a list together. -/
@[grind =] def weight (w : α → ℕ) (l : List α) : ℕ := (l.map w).sum

/-- The longest suffix that fits. -/
@[grind =] def newest (cap : ℕ) (w : α → ℕ) : List α → List α
  | [] => []
  | a :: l => if weight w (a :: l) ≤ cap then a :: l else newest cap w l

section Newest

variable {cap : ℕ} {w : α → ℕ} {l s : List α} {a b : α}

@[simp] theorem weight_nil : weight w [] = 0 := rfl

@[simp] theorem weight_cons : weight w (a :: l) = w a + weight w l := by
  rw [weight, List.map_cons, List.sum_cons]
  rfl

@[simp] theorem weight_append : weight w (l ++ s) = weight w l + weight w s := by
  rw [weight, List.map_append, List.sum_append]
  rfl

theorem newest_of_fits (h : weight w l ≤ cap) : newest cap w l = l := by
  cases l with
  | nil => rfl
  | cons a l => rw [newest, if_pos h]

theorem newest_suffix (l : List α) : newest cap w l <:+ l := by
  induction l with
  | nil => exact List.suffix_rfl
  | cons a l ih =>
    unfold newest
    split_ifs with hfits
    · exact List.suffix_rfl
    · exact ih.trans (List.suffix_cons a l)

theorem weight_newest_le (l : List α) : weight w (newest cap w l) ≤ cap := by
  induction l with
  | nil => exact Nat.zero_le _
  | cons a l ih =>
    unfold newest
    split_ifs with hfits
    · exact hfits
    · exact ih

/-- **No longer suffix fits.** -/
theorem suffix_newest (h : s <:+ l) (hfits : weight w s ≤ cap) : s <:+ newest cap w l := by
  induction l with
  | nil => exact h
  | cons a l ih =>
    unfold newest
    split_ifs with hall
    · exact h
    · rcases List.suffix_cons_iff.1 h with rfl | h
      · exact absurd hfits hall
      · exact ih h

/-- A suffix that fits is the newest where no longer one fits. -/
theorem eq_newest (h : s <:+ l) (hfits : weight w s ≤ cap)
    (hmost : ∀ t, t <:+ l → weight w t ≤ cap → t <:+ s) : newest cap w l = s :=
  (hmost _ (newest_suffix l) (weight_newest_le l)).eq_of_length_le (suffix_newest h hfits).length_le

/-- **One more**: what was dropped before is not looked at again. -/
theorem newest_append_singleton (l : List α) (b : α) :
    newest cap w (l ++ [b]) = newest cap w (newest cap w l ++ [b]) := by
  have hsuffix : newest cap w l <:+ l := newest_suffix l
  obtain ⟨front, hfront⟩ := hsuffix
  have hsub : newest cap w l ++ [b] <:+ l ++ [b] :=
    ⟨front, by rw [← List.append_assoc, hfront]⟩
  refine eq_newest ((newest_suffix _).trans hsub) (weight_newest_le _) fun t ht hfits => ?_
  refine suffix_newest ?_ hfits
  rcases List.eq_nil_or_concat t with rfl | ⟨t, c, rfl⟩
  · exact List.nil_suffix
  · rw [List.concat_eq_append] at ht hfits ⊢
    obtain ⟨front', hfront'⟩ := ht
    rw [← List.append_assoc] at hfront'
    obtain ⟨hl, hb⟩ := List.append_inj' hfront' rfl
    obtain rfl := List.singleton_inj.1 hb
    have hold : t <:+ newest cap w l := suffix_newest ⟨front', hl⟩ (by
      rw [weight_append] at hfits
      omega)
    obtain ⟨mid, hmid⟩ := hold
    exact ⟨mid, by rw [← List.append_assoc, hmid]⟩

/-- The oldest goes while the new one does not fit. -/
theorem newest_drop_until (h : cap < weight w (a :: l) + w b) :
    newest cap w (a :: l ++ [b]) = newest cap w (l ++ [b]) := by
  rw [List.cons_append, newest, if_neg]
  rw [← List.cons_append, weight_append, weight_cons (a := b), weight_nil]
  omega

theorem weight_map {β : Type*} (f : β → α) (l : List β) :
    weight w (l.map f) = weight (fun b => w (f b)) l := by
  rw [weight, List.map_map]
  rfl

/-- Things weighed through what they are turned into. -/
theorem newest_map {β : Type*} (f : β → α) (l : List β) :
    newest cap w (l.map f) = (newest cap (fun b => w (f b)) l).map f := by
  induction l with
  | nil => rfl
  | cons b l ih =>
    rw [List.map_cons, newest, newest, ← List.map_cons (f := f), weight_map]
    split_ifs
    · rfl
    · exact ih

/-- Of things that weigh one the newest are the last `cap`. -/
theorem newest_one (l : List α) : newest cap (fun _ => 1) l = l.drop (l.length - cap) := by
  have hweight : ∀ s : List α, weight (fun _ => 1) s = s.length := fun s => by
    simp [weight]
  refine eq_newest (List.drop_suffix _ _) (by rw [hweight, List.length_drop]; omega)
    fun t ht hfits => ?_
  rw [hweight] at hfits
  have hlen := ht.length_le
  exact List.suffix_of_suffix_length_le ht (List.drop_suffix _ _) (by
    rw [List.length_drop]
    omega)

end Newest

end Lib
end Fuzznet
