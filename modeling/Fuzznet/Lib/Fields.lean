/-
# A text in lines and fields

A line is what stands before a separator; what is behind the last one is no line yet
(`wholeLines`).  `placed` gives each line with where it begins, as a reader counts that.

A text cut at the first of a separator (`cutAt`), and so many fields taken from its front, each
ended by one and none empty, with the rest behind them (`fields`).  Both say exactly how the
text is made up of what they give (`cutAt_eq_some_iff`, `fields_eq_some_iff`), so a text joined
from fields is read back as them.
-/

import Mathlib.Data.List.Basic
import Mathlib.Data.Nat.Notation
import Mathlib.Tactic.Common

namespace Fuzznet
namespace Lib

/-! ## Lines -/

section

variable {α : Type*} [DecidableEq α] (sep : α)
variable {sep}

/-! ## Where each line begins -/

omit [DecidableEq α] in
omit [DecidableEq α] in
omit [DecidableEq α] in
omit [DecidableEq α] in
omit [DecidableEq α] in
end

/-! ## Fields -/

variable {α : Type*} [DecidableEq α]

/-- A text before the first of a separator, and behind it. -/
def cutAt (sep : α) : List α → Option (List α × List α)
  | [] => none
  | b :: t => if b = sep then some ([], t) else (cutAt sep t).map fun r => (b :: r.1, r.2)

/-- The first `n` fields, and the rest. -/
def fields (sep : α) : ℕ → List α → Option (List (List α) × List α)
  | 0, t => some ([], t)
  | n + 1, t => do
    let (f, t) ← cutAt sep t
    if f = [] then none
    else
      let (fs, rest) ← fields sep n t
      some (f :: fs, rest)

section Cut

variable {sep : α} {t a r : List α} {n : ℕ} {fs : List (List α)} {rest : List α}

/-- **A cut is at the first separator.** -/
theorem cutAt_eq_some_iff : cutAt sep t = some (a, r) ↔ t = a ++ sep :: r ∧ sep ∉ a := by
  induction t generalizing a with
  | nil =>
    rw [cutAt]
    refine ⟨fun h => (by cases h), fun h => ?_⟩
    exact absurd h.1 (by simp)
  | cons b t ih =>
    rw [cutAt]
    split_ifs with hb
    · subst hb
      constructor
      · intro h
        obtain ⟨rfl, rfl⟩ := Prod.mk.inj (Option.some.inj h)
        exact ⟨rfl, List.not_mem_nil⟩
      · rintro ⟨heq, hnot⟩
        cases a with
        | nil =>
          obtain ⟨-, rfl⟩ := List.cons.inj heq
          rfl
        | cons c a =>
          obtain ⟨rfl, -⟩ := List.cons.inj heq
          exact absurd List.mem_cons_self hnot
    · constructor
      · intro h
        obtain ⟨⟨a', r'⟩, htail, heq⟩ := Option.map_eq_some_iff.1 h
        obtain ⟨rfl, rfl⟩ := Prod.mk.inj heq
        obtain ⟨rfl, hnot⟩ := ih.1 htail
        refine ⟨rfl, fun hmem => ?_⟩
        rcases List.mem_cons.1 hmem with rfl | hmem
        · exact hb rfl
        · exact hnot hmem
      · rintro ⟨heq, hnot⟩
        cases a with
        | nil =>
          obtain ⟨rfl, -⟩ := List.cons.inj heq
          exact absurd rfl hb
        | cons c a =>
          obtain ⟨rfl, rfl⟩ := List.cons.inj heq
          rw [ih.2 ⟨rfl, fun hmem => hnot (List.mem_cons_of_mem _ hmem)⟩, Option.map_some]

/-- A text joined at a separator is cut there. -/
theorem cutAt_append (h : sep ∉ a) (r : List α) : cutAt sep (a ++ sep :: r) = some (a, r) :=
  cutAt_eq_some_iff.2 ⟨rfl, h⟩

/-- **The fields of a text are what its front is joined from.** -/
theorem fields_eq_some_iff : fields sep n t = some (fs, rest) ↔ fs.length = n ∧
    (∀ f ∈ fs, f ≠ [] ∧ sep ∉ f) ∧ t = fs.flatMap (· ++ [sep]) ++ rest := by
  induction n generalizing t fs with
  | zero =>
    constructor
    · intro h
      obtain ⟨rfl, rfl⟩ := Prod.mk.inj (Option.some.inj h)
      exact ⟨rfl, fun f hf => absurd hf List.not_mem_nil, rfl⟩
    · rintro ⟨hlen, -, rfl⟩
      obtain rfl := List.eq_nil_of_length_eq_zero hlen
      rfl
  | succ n ih =>
    rw [fields, Option.bind_eq_bind]
    constructor
    · intro h
      obtain ⟨⟨f, r⟩, hcut, h⟩ := Option.bind_eq_some_iff.1 h
      dsimp only at h
      split_ifs at h with hempty
      obtain ⟨⟨fs', rest'⟩, hfs, heq⟩ := Option.bind_eq_some_iff.1 h
      obtain ⟨rfl, rfl⟩ := Prod.mk.inj (Option.some.inj heq)
      obtain ⟨rfl, hnot⟩ := cutAt_eq_some_iff.1 hcut
      obtain ⟨rfl, hall, rfl⟩ := ih.1 hfs
      refine ⟨rfl, fun g hg => ?_, ?_⟩
      · rcases List.mem_cons.1 hg with rfl | hg
        · exact ⟨hempty, hnot⟩
        · exact hall g hg
      · rw [List.flatMap_cons, List.append_assoc, List.append_assoc, List.singleton_append]
    · rintro ⟨hlen, hall, rfl⟩
      match fs, hlen with
      | f :: fs, hlen =>
        obtain ⟨hne, hnot⟩ := hall f List.mem_cons_self
        have hrest := ih.2 ⟨Nat.succ.inj hlen, fun g hg => hall g (List.mem_cons_of_mem f hg),
          rfl⟩
        rw [List.flatMap_cons, List.append_assoc, List.append_assoc, List.singleton_append,
          cutAt_append hnot, Option.bind_some]
        dsimp only
        rw [if_neg hne, hrest]
        rfl

end Cut

end Lib
end Fuzznet
