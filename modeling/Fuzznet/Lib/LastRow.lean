/-
# Tables read by the last match

A scan that goes over every row and remembers the last one of a key, with its index:
the write that follows goes to that index.  The lemmas say what such a write, and a row
appended, do to the row of the key written and to the row of every other key.
-/

import Mathlib.Data.List.Nodup

namespace Fuzznet
namespace Lib

variable {α κ : Type*} [DecidableEq κ] (key : α → κ)

/-- The last row of key `k`, and where it is. -/
@[grind =] def lastRow (k : κ) : List α → Option (ℕ × α)
  | [] => none
  | a :: rows =>
    match lastRow k rows with
    | some p => some (p.1 + 1, p.2)
    | none => if key a = k then some (0, a) else none

variable {key} {k : κ} {rows : List α} {a b : α} {i : ℕ}

theorem lastRow_cons_some {p : ℕ × α} (h : lastRow key k rows = some p) :
    lastRow key k (a :: rows) = some (p.1 + 1, p.2) := by
  rw [lastRow, h]

theorem lastRow_cons_none (h : lastRow key k rows = none) :
    lastRow key k (a :: rows) = if key a = k then some (0, a) else none := by
  rw [lastRow, h]

theorem lastRow_some (h : lastRow key k rows = some (i, a)) : rows[i]? = some a ∧ key a = k := by
  induction rows generalizing i with
  | nil => exact absurd h (by simp [lastRow])
  | cons b rows ih =>
    cases hr : lastRow key k rows with
    | some p =>
      rw [lastRow_cons_some hr] at h
      obtain ⟨rfl, rfl⟩ := Prod.mk.inj (Option.some.inj h)
      exact ih hr
    | none =>
      rw [lastRow_cons_none hr] at h
      split at h
      case isTrue hk =>
        obtain ⟨rfl, rfl⟩ := Prod.mk.inj (Option.some.inj h)
        exact ⟨rfl, hk⟩
      case isFalse hk => exact absurd h (by simp)

/-- **The key written has the row written, at the same index.** -/
theorem lastRow_set_self (h : lastRow key k rows = some (i, b)) (ha : key a = k) :
    lastRow key k (rows.set i a) = some (i, a) := by
  induction rows generalizing i with
  | nil => exact absurd h (by simp [lastRow])
  | cons c rows ih =>
    cases hr : lastRow key k rows with
    | some p =>
      rw [lastRow_cons_some hr] at h
      obtain ⟨rfl, rfl⟩ := Prod.mk.inj (Option.some.inj h)
      rw [List.set_cons_succ, lastRow_cons_some (ih hr)]
    | none =>
      rw [lastRow_cons_none hr] at h
      split at h
      case isTrue hk =>
        obtain ⟨rfl, rfl⟩ := Prod.mk.inj (Option.some.inj h)
        rw [List.set_cons_zero, lastRow_cons_none hr, if_pos ha]
      case isFalse hk => exact absurd h (by simp)

/-- **Every other key keeps its row.** -/
theorem lastRow_set_ne (hi : rows[i]? = some b) (hb : key b ≠ k) (ha : key a ≠ k) :
    lastRow key k (rows.set i a) = lastRow key k rows := by
  induction rows generalizing i with
  | nil => rfl
  | cons c rows ih =>
    cases i with
    | zero =>
      obtain rfl : c = b := Option.some.inj hi
      rw [List.set_cons_zero, lastRow, lastRow, if_neg ha, if_neg hb]
    | succ i =>
      rw [List.set_cons_succ, lastRow, lastRow, ih (by simpa using hi)]

theorem lastRow_concat_self (ha : key a = k) :
    lastRow key k (rows ++ [a]) = some (rows.length, a) := by
  induction rows with
  | nil => simp [lastRow, ha]
  | cons c rows ih => rw [List.cons_append, lastRow_cons_some ih, List.length_cons]

theorem lastRow_concat_ne (ha : key a ≠ k) : lastRow key k (rows ++ [a]) = lastRow key k rows := by
  induction rows with
  | nil => simp [lastRow, ha]
  | cons c rows ih => rw [List.cons_append, lastRow, lastRow, ih]

/-- A key that has a row is found. -/
theorem lastRow_ne_none (h : a ∈ rows) (ha : key a = k) : lastRow key k rows ≠ none := by
  induction rows with
  | nil => cases h
  | cons c rows ih =>
    cases hr : lastRow key k rows with
    | some p =>
      rw [lastRow_cons_some hr]
      exact Option.some_ne_none _
    | none =>
      obtain rfl | hmem := List.mem_cons.1 h
      · rw [lastRow_cons_none hr, if_pos ha]
        exact Option.some_ne_none _
      · exact absurd hr (ih hmem)

/-! ## One row per key -/

omit [DecidableEq κ] in
/-- A write that keeps the key keeps the keys. -/
theorem map_set_of_key (hi : rows[i]? = some b) (hb : key b = key a) :
    (rows.set i a).map key = rows.map key := by
  obtain ⟨hlt, hget⟩ := List.getElem?_eq_some_iff.1 hi
  have hmap : i < (rows.map key).length := by rwa [List.length_map]
  rw [List.map_set, ← hb, ← hget, ← List.getElem_map key (h := hmap), List.set_getElem_self]

theorem lastRow_eq_none_iff : lastRow key k rows = none ↔ ∀ c ∈ rows, key c ≠ k := by
  constructor
  · intro h c hc hck
    exact lastRow_ne_none hc hck h
  · intro h
    cases hr : lastRow key k rows with
    | none => rfl
    | some p =>
      obtain ⟨hi, hk⟩ := lastRow_some hr
      exact absurd hk (h p.2 (List.mem_of_getElem? hi))

theorem nodup_concat_of_lastRow (hn : (rows.map key).Nodup)
    (h : lastRow key (key a) rows = none) : ((rows ++ [a]).map key).Nodup := by
  rw [List.map_append]
  refine hn.append (List.nodup_singleton _) (List.disjoint_singleton.2 fun hmem => ?_)
  obtain ⟨r, hr, heq⟩ := List.mem_map.1 hmem
  exact lastRow_eq_none_iff.1 h r hr heq

/-- **A row of a new key over any other keeps one row per key.** -/
theorem nodup_set_of_lastRow (hn : (rows.map key).Nodup) (h : lastRow key (key a) rows = none)
    (i : ℕ) : ((rows.set i a).map key).Nodup := by
  rw [List.map_set]
  refine hn.set fun hmem => ?_
  obtain ⟨c, hc, hca⟩ := List.mem_map.1 hmem
  exact lastRow_eq_none_iff.1 h c hc hca

/-- **With one row per key the last of a key is the one there is.** -/
theorem lastRow_iff_mem (hn : (rows.map key).Nodup) :
    (∃ i, lastRow key k rows = some (i, a)) ↔ a ∈ rows ∧ key a = k := by
  constructor
  · rintro ⟨i, h⟩
    obtain ⟨hi, hk⟩ := lastRow_some h
    exact ⟨List.mem_of_getElem? hi, hk⟩
  · rintro ⟨hmem, hk⟩
    cases hr : lastRow key k rows with
    | none => exact absurd hr (lastRow_ne_none hmem hk)
    | some p =>
      obtain ⟨hi, hpk⟩ := lastRow_some hr
      obtain rfl := List.inj_on_of_nodup_map hn (List.mem_of_getElem? hi) hmem
        (hpk.trans hk.symm)
      exact ⟨p.1, rfl⟩

/-- With one row per key, the rows of a key are the one there is. -/
theorem filter_key_of_nodup (hn : (rows.map key).Nodup) (h : a ∈ rows) :
    (rows.filter fun c => decide (key c = key a)) = [a] := by
  induction rows with
  | nil => cases h
  | cons c rows ih =>
    obtain ⟨hc, hrows⟩ := List.nodup_cons.1 hn
    have hne : ∀ d ∈ rows, key d ≠ key c := fun d hd heq => hc (List.mem_map.2 ⟨d, hd, heq⟩)
    rcases List.mem_cons.1 h with rfl | hmem
    · rw [List.filter_cons_of_pos (by simp), List.filter_eq_nil_iff.2]
      intro d hd
      simpa using hne d hd
    · rw [List.filter_cons_of_neg (by simpa using (hne a hmem).symm), ih hrows hmem]

/-- **What is there behind a write over the row of its key.** -/
theorem mem_set_lastRow {x : α} (hn : (rows.map key).Nodup)
    (h : lastRow key k rows = some (i, b)) (ha : key a = k) :
    x ∈ rows.set i a ↔ x = a ∨ x ∈ rows ∧ key x ≠ k := by
  obtain ⟨hi, hb⟩ := lastRow_some h
  have hn' : ((rows.set i a).map key).Nodup := by
    rw [map_set_of_key hi (hb.trans ha.symm)]
    exact hn
  have hself : a ∈ rows.set i a := by
    obtain ⟨hlt, -⟩ := List.getElem?_eq_some_iff.1 hi
    exact List.mem_set hlt a
  constructor
  · intro hx
    by_cases hxk : key x = k
    · exact Or.inl (List.inj_on_of_nodup_map hn' hx hself (hxk.trans ha.symm))
    · rcases List.mem_or_eq_of_mem_set hx with hmem | rfl
      · exact Or.inr ⟨hmem, hxk⟩
      · exact Or.inl rfl
  · rintro (rfl | ⟨hmem, hxk⟩)
    · exact hself
    · obtain ⟨j, hj⟩ := List.mem_iff_getElem?.1 hmem
      have hij : i ≠ j := by
        rintro rfl
        exact hxk (Option.some.inj (hj.symm.trans hi) ▸ hb)
      exact List.mem_iff_getElem?.2 ⟨j, by rw [List.getElem?_set_ne hij, hj]⟩

end Lib
end Fuzznet
