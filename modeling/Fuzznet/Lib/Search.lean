/-
# The first of a sorted list at or past a key

A list in the order of a key is searched by halving an interval.  What is found is where the
elements below the key end (`firstAt_eq`), so what stands from there on begins with the
elements that have the key, all of them (`mem_run`).
-/

import Mathlib.Data.List.Sort
import Mathlib.Order.Lattice

namespace Fuzznet
namespace Lib

variable {α κ : Type*} [LinearOrder κ] (key : α → κ) (l : List α) (k : κ)

/-- Whether the element at a position is below the key; none is behind the list. -/
def below (i : ℕ) : Bool := (l[i]?).any fun a => decide (key a < k)

/-- The search of an interval. -/
def searchIn (low high : ℕ) : ℕ :=
  if low < high then
    if below key l k (low + (high - low) / 2) then searchIn (low + (high - low) / 2 + 1) high
    else searchIn low (low + (high - low) / 2)
  else low
termination_by high - low

/-- The first position at or past the key. -/
def firstAt : ℕ := searchIn key l k 0 l.length

variable {key l k} {a : α}

section

variable (h : l.Pairwise fun a b => key a ≤ key b)
include h

/-- The elements of a sorted list that are below a key. -/
theorem below_iff (i : ℕ) :
    below key l k i = true ↔ i < (l.takeWhile fun a => decide (key a < k)).length := by
  induction l generalizing i with
  | nil => simp [below]
  | cons a l ih =>
    obtain ⟨ha, hl⟩ := List.pairwise_cons.1 h
    by_cases hlt : key a < k
    · rw [List.takeWhile_cons_of_pos (by simpa using hlt), List.length_cons]
      cases i with
      | zero => simpa [below] using hlt
      | succ i => rw [Nat.add_lt_add_iff_right, ← ih hl i]; rfl
    · rw [List.takeWhile_cons_of_neg (by simpa using hlt), List.length_nil]
      refine ⟨fun htrue => ?_, fun hno => absurd hno (Nat.not_lt_zero i)⟩
      unfold below at htrue
      rw [Option.any_eq_true] at htrue
      obtain ⟨b, hb, hbk⟩ := htrue
      have hbk := of_decide_eq_true hbk
      rcases List.mem_cons.1 (List.mem_of_getElem? hb) with rfl | hb
      · exact absurd hbk hlt
      · exact absurd ((ha b hb).trans_lt hbk) hlt

theorem searchIn_eq {low high : ℕ} (hlow : low ≤ (l.takeWhile fun a => decide (key a < k)).length)
    (hhigh : (l.takeWhile fun a => decide (key a < k)).length ≤ high) :
    searchIn key l k low high = (l.takeWhile fun a => decide (key a < k)).length := by
  induction low, high using searchIn.induct key l k with
  | case1 low high hlt hbelow ih =>
    rw [searchIn, if_pos hlt, if_pos hbelow]
    exact ih ((below_iff h _).1 hbelow) hhigh
  | case2 low high hlt hbelow ih =>
    rw [searchIn, if_pos hlt, if_neg hbelow]
    exact ih hlow (Nat.not_lt.1 fun hmid => hbelow ((below_iff h _).2 hmid))
  | case3 low high hlt =>
    rw [searchIn, if_neg hlt]
    omega

/-- **The search finds where the elements below the key end.** -/
theorem firstAt_eq : firstAt key l k = (l.takeWhile fun a => decide (key a < k)).length :=
  searchIn_eq h (Nat.zero_le _) (List.takeWhile_prefix _).length_le

theorem drop_firstAt : l.drop (firstAt key l k) = l.dropWhile fun a => decide (key a < k) := by
  have hsplit := List.takeWhile_append_dropWhile (p := fun a => decide (key a < k)) (l := l)
  rw [firstAt_eq h]
  calc l.drop (l.takeWhile fun a => decide (key a < k)).length
      = ((l.takeWhile fun a => decide (key a < k)) ++
          l.dropWhile fun a => decide (key a < k)).drop
            (l.takeWhile fun a => decide (key a < k)).length := by rw [hsplit]
    _ = l.dropWhile fun a => decide (key a < k) := List.drop_left

theorem le_of_mem_dropWhile (ha : a ∈ l.dropWhile fun a => decide (key a < k)) : k ≤ key a := by
  induction l with
  | nil => exact absurd ha List.not_mem_nil
  | cons b l ih =>
    obtain ⟨hb, hl⟩ := List.pairwise_cons.1 h
    by_cases hlt : key b < k
    · rw [List.dropWhile_cons_of_pos (by simpa using hlt)] at ha
      exact ih hl ha
    · rw [List.dropWhile_cons_of_neg (by simpa using hlt)] at ha
      rcases List.mem_cons.1 ha with rfl | ha
      · exact not_lt.1 hlt
      · exact (not_lt.1 hlt).trans (hb a ha)

theorem mem_takeWhile_eq (hge : ∀ a ∈ l, k ≤ key a) :
    a ∈ l.takeWhile (fun a => decide (key a = k)) ↔ a ∈ l ∧ key a = k := by
  induction l with
  | nil => simp
  | cons b l ih =>
    obtain ⟨hb, hl⟩ := List.pairwise_cons.1 h
    have ih := ih hl fun a ha => hge a (List.mem_cons_of_mem b ha)
    by_cases heq : key b = k
    · rw [List.takeWhile_cons_of_pos (by simpa using heq), List.mem_cons, List.mem_cons, ih,
        or_and_right]
      refine or_congr_left ⟨fun hab => ⟨hab, hab ▸ heq⟩, And.left⟩
    · rw [List.takeWhile_cons_of_neg (by simpa using heq)]
      refine ⟨fun hno => absurd hno List.not_mem_nil, fun ⟨hin, hk⟩ => ?_⟩
      have hbk := lt_of_le_of_ne (hge b List.mem_cons_self) (Ne.symm heq)
      rcases List.mem_cons.1 hin with rfl | hin
      · exact absurd hk heq
      · exact absurd (hbk.trans_le (hb a hin)) (not_lt.2 hk.le)

/-- **The elements of the key stand together**, from where the search ends. -/
theorem mem_run :
    a ∈ (l.drop (firstAt key l k)).takeWhile (fun a => decide (key a = k)) ↔ a ∈ l ∧ key a = k := by
  rw [drop_firstAt h, mem_takeWhile_eq (h.sublist (List.dropWhile_sublist _))
    fun b hb => le_of_mem_dropWhile h hb]
  refine and_congr_left fun hk => ⟨fun ha => (List.dropWhile_sublist _).subset ha, fun ha => ?_⟩
  rw [← List.takeWhile_append_dropWhile (p := fun a => decide (key a < k)) (l := l),
    List.mem_append] at ha
  refine ha.resolve_left fun hlt => ?_
  have hall := List.all_eq_true.1 List.all_takeWhile a hlt
  exact absurd (of_decide_eq_true hall) (not_lt.2 hk.ge)

/-- **What the search ends at has the key**, where anything does. -/
theorem getElem?_firstAt (hk : ∃ a ∈ l, key a = k) :
    ∃ a ∈ l, l[firstAt key l k]? = some a ∧ key a = k := by
  obtain ⟨a, ha⟩ := hk
  have hrun := (mem_run h).2 ha
  rcases hdrop : l.drop (firstAt key l k) with _ | ⟨b, rest⟩
  · rw [hdrop] at hrun
    exact absurd hrun List.not_mem_nil
  · have hb : l[firstAt key l k]? = some b := by
      rw [← List.head?_drop, hdrop, List.head?_cons]
    by_cases heq : key b = k
    · exact ⟨b, List.mem_of_getElem? hb, hb, heq⟩
    · rw [hdrop, List.takeWhile_cons_of_neg (by simpa using heq)] at hrun
      exact absurd hrun List.not_mem_nil

end

end Lib
end Fuzznet
