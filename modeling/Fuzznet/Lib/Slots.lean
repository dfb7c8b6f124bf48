/-
# Arrays of slots

A fixed array whose entries are in use or free: a search stops at a slot of its kind or runs
through (`exists_of_findIdx`), an array with fewer in use than it has slots has a free one
(`findIdx_lt_of_countP_lt`), and a slot written moves a count by that slot alone
(`countP_set_slot`).  More candidates than slots in use, each of which meets one of them at most,
leave a candidate that none meets (`exists_unmet`).
-/

import Mathlib.Data.List.Basic
import Mathlib.Data.List.Count
import Mathlib.Data.List.Perm.Subperm

namespace Fuzznet
namespace Lib

section

variable {α : Type*} {slots : List α} {p : α → Bool}

/-- A search that did not run through. -/
theorem exists_of_findIdx (h : slots.findIdx p ≠ slots.length) :
    ∃ slot, slots[slots.findIdx p]? = some slot ∧ p slot = true := by
  have hlt := Nat.lt_of_le_of_ne List.findIdx_le_length h
  exact ⟨_, List.getElem?_eq_getElem hlt, List.findIdx_getElem⟩

/-- **Fewer in use than there are slots**, and one is free. -/
theorem findIdx_lt_of_countP_lt (h : slots.countP p < slots.length) :
    (slots.findIdx fun slot => !p slot) < slots.length := by
  rw [List.findIdx_lt_length]
  obtain ⟨slot, hslot, hfree⟩ := List.countP_lt_length_iff.1 h
  exact ⟨slot, hslot, by simpa using hfree⟩

/-- A count over an array whose slot at `i` is written. -/
theorem countP_set_slot {i : ℕ} {slot : α} (hslot : slots[i]? = some slot) (slot' : α)
    (p : α → Bool) :
    (slots.set i slot').countP p + (if p slot then 1 else 0) =
      slots.countP p + (if p slot' then 1 else 0) := by
  obtain ⟨hi, hget⟩ := List.getElem?_eq_some_iff.1 hslot
  rw [List.countP_set hi, hget]
  have hpos : p slot = true → 0 < slots.countP p := fun hp =>
    List.countP_pos_iff.2 ⟨slot, List.mem_of_getElem? hslot, hp⟩
  by_cases hp : p slot = true
  · have := hpos hp
    rw [if_pos hp]
    omega
  · rw [if_neg hp]
    omega

/-- **One candidate more than there are slots in use**: if each slot in use meets one of them at
most, some candidate is met by none. -/
theorem exists_unmet {β : Type*} {xs : List β} (meets : α → β → Bool) (hnodup : xs.Nodup)
    (hone : ∀ slot ∈ slots, p slot = true → ∀ x ∈ xs, ∀ y ∈ xs,
      meets slot x = true → meets slot y = true → x = y)
    (hlt : slots.countP p < xs.length) :
    ∃ x ∈ xs, ∀ slot ∈ slots, p slot = true → meets slot x = false := by
  by_contra hmet
  push Not at hmet
  -- the candidate that each slot in use meets: all of them, then
  have hsub : xs ⊆ (slots.filter p).filterMap fun slot => xs.find? (meets slot) := by
    intro x hx
    obtain ⟨slot, hslot, huse, hmeets⟩ := hmet x hx
    rw [ne_eq, Bool.not_eq_false] at hmeets
    refine List.mem_filterMap.2 ⟨slot, List.mem_filter.2 ⟨hslot, huse⟩, ?_⟩
    cases hfind : xs.find? (meets slot) with
    | none => exact absurd hmeets (List.find?_eq_none.1 hfind x hx)
    | some y =>
      rw [hone slot hslot huse y (List.mem_of_find?_eq_some hfind) x hx (List.find?_some hfind)
        hmeets]
  have hle := (List.subperm_of_subset hnodup hsub).length_le
  have hfew := List.length_filterMap_le (fun slot => xs.find? (meets slot)) (slots.filter p)
  rw [List.countP_eq_length_filter] at hlt
  omega

end

/-! ## Compaction in place

A loop that keeps some of the rows of an array writes each kept row at a second,
slower index and cuts the array back to it at the end.  The row written over has
been read already, because the write index never passes the read index.
`compact_eq_filter`: what is left is the kept rows, in their order. -/

variable {α : Type*} (keep : α → Bool)

/-- One turn of the loop at index `i`: the array and the number of rows kept. -/
def compactStep (st : List α × ℕ) (i : ℕ) : List α × ℕ :=
  match st.1[i]? with
  | none => st
  | some a =>
    if keep a then (if st.2 ≠ i then st.1.set st.2 a else st.1, st.2 + 1) else st

/-- The loop over the whole array. -/
def compactLoop (rows : List α) : List α × ℕ :=
  (List.range rows.length).foldl (compactStep keep) (rows, 0)

/-- The array cut back to the rows kept. -/
def compact (rows : List α) : List α :=
  (compactLoop keep rows).1.take (compactLoop keep rows).2

/-- What the loop keeps up to index `i`: the rows kept lie in front, at most `i` of
them, and nothing at or behind `i` has been written. -/
structure CompactedTo (rows : List α) (i : ℕ) (st : List α × ℕ) : Prop where
  kept : st.1.take st.2 = (rows.take i).filter keep
  le : st.2 ≤ i
  rest : st.1.drop i = rows.drop i

variable {keep} {rows : List α} {i : ℕ} {st : List α × ℕ}

/-- A write in front of the read index leaves the rows still to be read. -/
private theorem drop_succ_write {l : List α} {k : ℕ} (a : α) (hk : k ≤ i) :
    (if k ≠ i then l.set k a else l).drop (i + 1) = l.drop (i + 1) := by
  split
  · exact List.drop_set_of_lt (by omega)
  · rfl

theorem CompactedTo.step (h : CompactedTo keep rows i st) (hi : i < rows.length) :
    CompactedTo keep rows (i + 1) (compactStep keep st i) := by
  have hread : st.1[i]? = some rows[i] := by
    have := congrArg List.head? h.rest
    rwa [List.head?_drop, List.head?_drop, List.getElem?_eq_getElem hi] at this
  have hlt : i < st.1.length := (List.getElem?_eq_some_iff.1 hread).1
  have hrest : st.1.drop (i + 1) = rows.drop (i + 1) := by
    have := congrArg List.tail h.rest
    rwa [List.tail_drop, List.tail_drop] at this
  have htake : rows.take (i + 1) = rows.take i ++ [rows[i]] :=
    List.take_succ_eq_append_getElem hi
  unfold compactStep
  rw [hread]
  by_cases hkeep : keep rows[i] = true
  · simp only [hkeep, if_true]
    refine ⟨?_, by have := h.le; omega, ?_⟩
    · show (if st.2 ≠ i then st.1.set st.2 rows[i] else st.1).take (st.2 + 1) = _
      have hwrite : (if st.2 ≠ i then st.1.set st.2 rows[i] else st.1).take (st.2 + 1)
          = st.1.take st.2 ++ [rows[i]] := by
        by_cases hne : st.2 = i
        · rw [if_neg (by simp [hne]), hne, List.take_succ_eq_append_getElem hlt]
          rw [(List.getElem?_eq_some_iff.1 hread).2]
        · have hlt' : st.2 < st.1.length := by have := h.le; omega
          rw [if_pos hne, List.take_succ_eq_append_getElem (by simpa using hlt'),
            List.take_set_of_le (Nat.le_refl _), List.getElem_set_self]
      rw [hwrite, h.kept, htake, List.filter_append]
      simp [hkeep]
    · exact (drop_succ_write _ h.le).trans hrest
  · simp only [if_neg hkeep]
    refine ⟨?_, Nat.le_succ_of_le h.le, hrest⟩
    rw [htake, List.filter_append, h.kept]
    simp [hkeep]

theorem compactedTo_range (n : ℕ) (hn : n ≤ rows.length) :
    CompactedTo keep rows n ((List.range n).foldl (compactStep keep) (rows, 0)) := by
  induction n with
  | zero => exact ⟨rfl, Nat.le_refl _, rfl⟩
  | succ n ih =>
    rw [List.range_succ, List.foldl_append]
    exact (ih (by omega)).step (by omega)

/-- **The loop leaves the rows it keeps, in their order.** -/
theorem compact_eq_filter (rows : List α) : compact keep rows = rows.filter keep := by
  have h := (@compactedTo_range _ keep rows rows.length (Nat.le_refl _)).kept
  rwa [List.take_length] at h

end Lib
end Fuzznet
