/-
# Tables with one row per key

A table is a list of rows and a key read off each row.  `row` finds the first
row of a key and `writeRow` writes over that row, or behind the last one when
the key has none, which is how a fixed array with a fill count is kept: a scan,
then a store at the index the scan stopped at.  Nothing here removes a row.

The lemmas say what a write does to the row of every key, to the membership of
a table with one row per key, and to a count over the table: a count moves by
at most the row written over, and a count of rows told apart by some name is
bounded by the number of names.
-/

import Mathlib.Data.Finset.Card
import Mathlib.Data.List.Nodup

namespace Fuzznet
namespace Lib

variable {α κ : Type*} [DecidableEq κ] (key : α → κ)

/-- The first row of key `k`. -/
@[grind =] def row (k : κ) (rows : List α) : Option α :=
  rows.find? fun b => key b = k

/-- Write row `a` over the first row of its key, or at the end. -/
@[grind =] def writeRow (a : α) : List α → List α
  | [] => [a]
  | b :: rows => if key b = key a then a :: rows else b :: writeRow a rows

variable {key} {rows : List α} {a : α} {k : κ}

theorem row_mem (h : row key k rows = some a) : a ∈ rows :=
  List.mem_of_find?_eq_some h

theorem row_key (h : row key k rows = some a) : key a = k := by
  simpa using List.find?_some h

theorem row_eq_none_iff : row key k rows = none ↔ ∀ a ∈ rows, key a ≠ k := by
  simp [row]

/-- With one row per key, the row of a key is the row that has it. -/
theorem row_eq_some_iff (hn : (rows.map key).Nodup) :
    row key k rows = some a ↔ a ∈ rows ∧ key a = k := by
  refine ⟨fun h => ⟨row_mem h, row_key h⟩, fun ⟨ha, hk⟩ => ?_⟩
  cases hr : row key k rows with
  | none => exact absurd hk (row_eq_none_iff.1 hr a ha)
  | some b =>
    have hb : b = a :=
      List.inj_on_of_nodup_map hn (row_mem hr) ha ((row_key hr).trans hk.symm)
    rw [hb]

/-- The key written has the row written. -/
theorem row_writeRow_self (a : α) (rows : List α) :
    row key (key a) (writeRow key a rows) = some a := by
  induction rows with
  | nil => simp [writeRow, row]
  | cons b rows ih =>
    rw [writeRow]
    split_ifs with hb
    · simp [row]
    · simpa [row, hb] using ih

/-- Every other key keeps its row. -/
theorem row_writeRow_ne (hk : k ≠ key a) (rows : List α) :
    row key k (writeRow key a rows) = row key k rows := by
  induction rows with
  | nil => simp [writeRow, row, hk.symm]
  | cons b rows ih =>
    rw [writeRow]
    split_ifs with hb
    · simp [row, hk.symm, hb]
    · by_cases hbk : key b = k
      · simp [row, hbk]
      · simpa [row, hbk] using ih

/-- A key without a row gets one at the end. -/
theorem writeRow_eq_append (h : row key (key a) rows = none) :
    writeRow key a rows = rows ++ [a] := by
  induction rows with
  | nil => rfl
  | cons b rows ih =>
    have hb : key b ≠ key a := row_eq_none_iff.1 h b List.mem_cons_self
    rw [writeRow, if_neg hb, List.cons_append, ih]
    exact row_eq_none_iff.2 fun c hc => row_eq_none_iff.1 h c (List.mem_cons_of_mem _ hc)

/-- A write over a row keeps the length. -/
theorem length_writeRow {a b : α} (h : row key (key a) rows = some b) :
    (writeRow key a rows).length = rows.length := by
  induction rows with
  | nil => simp [row] at h
  | cons c rows ih =>
    rw [writeRow]
    split_ifs with hc
    · rfl
    · rw [List.length_cons, List.length_cons, ih (by simpa [row, hc] using h)]

/-- A write over the last row, its key having no other. -/
theorem writeRow_concat {a b : α} (h : row key (key a) rows = none) (hb : key b = key a) :
    writeRow key a (rows ++ [b]) = rows ++ [a] := by
  induction rows with
  | nil => simp [writeRow, hb]
  | cons c rows ih =>
    have hc : key c ≠ key a := row_eq_none_iff.1 h c List.mem_cons_self
    rw [List.cons_append, writeRow, if_neg hc, List.cons_append, ih]
    exact row_eq_none_iff.2 fun d hd => row_eq_none_iff.1 h d (List.mem_cons_of_mem _ hd)

/-- The row added at the end is found there, its key having no other. -/
theorem row_concat (h : row key (key a) rows = none) : row key (key a) (rows ++ [a]) = some a := by
  rw [← writeRow_eq_append h]
  exact row_writeRow_self a rows

theorem mem_of_mem_writeRow {a b : α} (h : b ∈ writeRow key a rows) : b = a ∨ b ∈ rows := by
  induction rows with
  | nil => exact Or.inl (by simpa [writeRow] using h)
  | cons c rows ih =>
    rw [writeRow] at h
    split_ifs at h
    · exact (List.mem_cons.1 h).imp_right (List.mem_cons_of_mem _)
    · rcases List.mem_cons.1 h with rfl | h
      · exact Or.inr List.mem_cons_self
      · exact (ih h).imp_right (List.mem_cons_of_mem _)

/-- **A write keeps one row per key.** -/
theorem nodup_writeRow (hn : (rows.map key).Nodup) (a : α) :
    ((writeRow key a rows).map key).Nodup := by
  induction rows with
  | nil => simp [writeRow]
  | cons b rows ih =>
    obtain ⟨hb, hrows⟩ := List.nodup_cons.1 hn
    rw [writeRow]
    split_ifs with hba
    · rw [List.map_cons, List.nodup_cons, ← hba]
      exact ⟨hb, hrows⟩
    · rw [List.map_cons, List.nodup_cons]
      refine ⟨fun hmem => ?_, ih hrows⟩
      obtain ⟨c, hc, hcb⟩ := List.mem_map.1 hmem
      rcases mem_of_mem_writeRow hc with rfl | hc
      · exact hba hcb.symm
      · exact hb (List.mem_map.2 ⟨c, hc, hcb⟩)

/-- So does a row of a new key at the end. -/
theorem nodup_concat_of_row (hn : (rows.map key).Nodup) (h : row key (key a) rows = none) :
    ((rows ++ [a]).map key).Nodup := by
  rw [← writeRow_eq_append h]
  exact nodup_writeRow hn a

/-- **With one row per key, a write changes the rows of the key and no other.** -/
theorem writeRow_eq_map {a b : α} (hn : (rows.map key).Nodup) (h : row key (key a) rows = some b) :
    writeRow key a rows = rows.map fun c => if key c = key a then a else c := by
  induction rows with
  | nil => simp [row] at h
  | cons c rows ih =>
    obtain ⟨hc, hrows⟩ := List.nodup_cons.1 hn
    rw [writeRow, List.map_cons]
    split_ifs with hca
    · have hrest : rows.map (fun d => if key d = key a then a else d) = rows := by
        refine (List.map_congr_left fun d hd => if_neg ?_).trans (List.map_id rows)
        rintro hda
        exact hc (hca ▸ hda ▸ List.mem_map_of_mem hd)
      rw [hrest]
    · rw [ih hrows (by simpa [row, hca] using h)]

variable {R : α → α → Prop}

/-- Two tables related row by row stay so related under a write over a row that
the new row is related to. -/
theorem forall₂_writeRow (hR : ∀ b, R b b) {a b : α} (h : row key (key a) rows = some b)
    (hab : R b a) : List.Forall₂ R rows (writeRow key a rows) := by
  induction rows with
  | nil => simp [row] at h
  | cons c rows ih =>
    by_cases hc : key c = key a
    · obtain rfl : c = b := by simpa [row, hc] using h
      rw [writeRow, if_pos hc]
      exact List.Forall₂.cons hab (List.forall₂_same.2 fun d _ => hR d)
    · rw [writeRow, if_neg hc]
      exact List.Forall₂.cons (hR c) (ih (by simpa [row, hc] using h))

omit [DecidableEq κ] in
/-- Rows related one by one are counted alike. -/
theorem countP_forall₂ {rows rows' : List α} {p p' : α → Bool} (h : List.Forall₂ R rows rows')
    (hp : ∀ a b, R a b → p a = p' b) : rows.countP p = rows'.countP p' := by
  induction h with
  | nil => rfl
  | cons hab _ ih => rw [List.countP_cons, List.countP_cons, ih, hp _ _ hab]

omit [DecidableEq κ] in
/-- Rows related one by one are folded alike. -/
theorem foldl_forall₂ {β : Type*} {rows rows' : List α} {f f' : β → α → β}
    (h : List.Forall₂ R rows rows') (hf : ∀ x a b, R a b → f x a = f' x b) (x : β) :
    rows.foldl f x = rows'.foldl f' x := by
  induction h generalizing x with
  | nil => rfl
  | cons hab _ ih => rw [List.foldl_cons, List.foldl_cons, hf _ _ _ hab, ih]

omit [DecidableEq κ] in
/-- Rows related one by one are selected and read alike. -/
theorem map_filter_forall₂ {β : Type*} {rows rows' : List α} {p p' : α → Bool} {f : α → β}
    (h : List.Forall₂ R rows rows') (hp : ∀ a b, R a b → p a = p' b)
    (hf : ∀ a b, R a b → f a = f b) : (rows.filter p).map f = (rows'.filter p').map f := by
  induction h with
  | nil => rfl
  | cons hab _ ih =>
    rw [List.filter_cons, List.filter_cons, hp _ _ hab]
    split_ifs
    · rw [List.map_cons, List.map_cons, ih, hf _ _ hab]
    · exact ih

omit [DecidableEq κ] in
/-- **Rows told apart by a name are at most as many as the names.** -/
theorem countP_le_card {ν : Type*} [DecidableEq ν] {p : α → Bool} (hn : (rows.map key).Nodup)
    (name : α → ν) (S : Finset ν) (hname : ∀ a ∈ rows, p a → name a ∈ S)
    (hinj : ∀ a ∈ rows, ∀ b ∈ rows, p a → p b → name a = name b → key a = key b) :
    rows.countP p ≤ S.card := by
  have hrows : rows.Nodup := List.Nodup.of_map key hn
  have hmem : ∀ a, a ∈ rows.filter p ↔ a ∈ rows ∧ p a = true := fun a => List.mem_filter
  have hnd : ((rows.filter p).map name).Nodup := by
    refine List.Nodup.map_on (fun a ha b hb hab => ?_) (hrows.filter _)
    obtain ⟨ha, hpa⟩ := (hmem a).1 ha
    obtain ⟨hb, hpb⟩ := (hmem b).1 hb
    exact List.inj_on_of_nodup_map hn ha hb (hinj a ha b hb hpa hpb hab)
  calc rows.countP p = ((rows.filter p).map name).length := by
        rw [List.length_map, List.countP_eq_length_filter]
    _ = ((rows.filter p).map name).toFinset.card := (List.toFinset_card_of_nodup hnd).symm
    _ ≤ S.card := by
        refine Finset.card_le_card fun x hx => ?_
        obtain ⟨a, ha, rfl⟩ := List.mem_map.1 (List.mem_toFinset.1 hx)
        exact hname a ((hmem a).1 ha).1 ((hmem a).1 ha).2

omit [DecidableEq κ] in
/-- Names that each have a row are at most as many as the rows. -/
theorem card_le_countP {ν : Type*} [DecidableEq ν] {p : α → Bool} (name : α → ν) (S : Finset ν)
    (hrow : ∀ x ∈ S, ∃ a ∈ rows, p a ∧ name a = x) : S.card ≤ rows.countP p := by
  calc S.card ≤ ((rows.filter p).map name).toFinset.card := by
        refine Finset.card_le_card fun x hx => ?_
        obtain ⟨a, ha, hp, hname⟩ := hrow x hx
        exact List.mem_toFinset.2 (List.mem_map.2 ⟨a, List.mem_filter.2 ⟨ha, hp⟩, hname⟩)
    _ ≤ ((rows.filter p).map name).length := List.toFinset_card_le _
    _ = rows.countP p := by rw [List.length_map, List.countP_eq_length_filter]

/-! ## A row taken out -/

/-- Write the last row over the first row of key `k`, and leave the last row out. -/
def takeOut (key : α → κ) (k : κ) (rows : List α) : List α :=
  match rows.getLast? with
  | none => []
  | some last => (rows.set (rows.findIdx fun b => key b = k) last).dropLast

/-- **A row taken out is gone, and every other row stays**, in some order. -/
theorem takeOut_perm (hn : (rows.map key).Nodup) (h : row key k rows = some a) :
    (takeOut key k rows).Perm (rows.filter fun b => key b ≠ k) := by
  obtain ⟨hk, front, back, rfl, hfront⟩ := List.find?_eq_some_iff_append.1 h
  rw [decide_eq_true_eq] at hk
  have hidx : (front ++ a :: back).findIdx (fun b => decide (key b = k)) = front.length := by
    rw [List.findIdx_append, if_neg, List.findIdx_cons]
    · simp [hk]
    · simpa [List.findIdx_eq_length] using hfront
  have hback : ∀ b ∈ back, key b ≠ k := by
    intro b hb hbk
    rw [List.map_append, List.map_cons] at hn
    refine (List.nodup_cons.1 (List.nodup_append.1 hn).2.1).1 ?_
    rw [hk, ← hbk]
    exact List.mem_map_of_mem hb
  have hothers : (front ++ a :: back).filter (fun b => decide (key b ≠ k)) = front ++ back := by
    rw [List.filter_append, List.filter_cons_of_neg (by simp [hk]),
      List.filter_eq_self.2 (by simpa using hfront), List.filter_eq_self.2 (by simpa using hback)]
  rw [hothers, takeOut, hidx]
  rcases List.eq_nil_or_concat back with rfl | ⟨back', last, rfl⟩
  · simp
  · have hlast : front ++ a :: (back' ++ [last]) = (front ++ a :: back') ++ [last] := by simp
    rw [List.concat_eq_append, hlast, List.getLast?_concat]
    simp only
    rw [List.set_append_left _ _ (by simp), List.dropLast_concat,
      List.set_append_right _ _ le_rfl, Nat.sub_self, List.set_cons_zero, ← List.append_assoc]
    exact List.perm_middle.trans (List.perm_append_singleton _ _).symm

end Lib
end Fuzznet
