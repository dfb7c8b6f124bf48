/-
# The distinct elements of a list, in the order they first came

`firsts` is what a scan collects that adds each element it has not met.  Lists with the same
elements collect the same ones, in some order (`firsts_perm_iff`), and as many as there are
(`length_firsts`).  A scan with room for `n` keeps the first `n` of them and can count the
others, if it looks back for each whether it came before.
-/

import Mathlib.Data.Finset.Card

namespace Fuzznet
namespace Lib

variable {α : Type*} [DecidableEq α]

/-- The distinct elements, each where it first came. -/
def firsts (l : List α) : List α := l.foldl (fun acc a => if a ∈ acc then acc else acc ++ [a]) []

variable {l l' : List α} {a : α}

@[simp] theorem firsts_nil : firsts ([] : List α) = [] := rfl

theorem firsts_append_singleton (l : List α) (a : α) :
    firsts (l ++ [a]) = if a ∈ firsts l then firsts l else firsts l ++ [a] := by
  rw [firsts, List.foldl_append, List.foldl_cons, List.foldl_nil, firsts]

@[simp] theorem mem_firsts : a ∈ firsts l ↔ a ∈ l := by
  induction l using List.reverseRecOn with
  | nil => exact Iff.rfl
  | append_singleton l b ih =>
    rw [firsts_append_singleton, List.mem_append, List.mem_singleton]
    split_ifs with hb
    · rw [ih]
      refine ⟨.inl, ?_⟩
      rintro (h | rfl)
      · exact h
      · exact ih.1 hb
    · rw [List.mem_append, List.mem_singleton, ih]

theorem nodup_firsts (l : List α) : (firsts l).Nodup := by
  induction l using List.reverseRecOn with
  | nil => exact List.nodup_nil
  | append_singleton l b ih =>
    rw [firsts_append_singleton]
    split_ifs with hb
    · exact ih
    · exact ih.append (List.nodup_singleton b) (List.disjoint_singleton.2 hb)

/-- An element met already adds nothing. -/
theorem firsts_append_of_mem (h : a ∈ l) : firsts (l ++ [a]) = firsts l := by
  rw [firsts_append_singleton, if_pos (mem_firsts.2 h)]

/-- A new element comes last. -/
theorem firsts_append_of_not_mem (h : a ∉ l) : firsts (l ++ [a]) = firsts l ++ [a] := by
  rw [firsts_append_singleton, if_neg fun hin => h (mem_firsts.1 hin)]

/-- **The same elements are collected**, in some order. -/
theorem firsts_perm (h : ∀ a, a ∈ l ↔ a ∈ l') : (firsts l).Perm (firsts l') :=
  (List.perm_ext_iff_of_nodup (nodup_firsts l) (nodup_firsts l')).2 fun a => by
    rw [mem_firsts, mem_firsts, h]

/-- **As many are collected as there are.** -/
theorem length_firsts (l : List α) : (firsts l).length = l.toFinset.card := by
  rw [← List.toFinset_card_of_nodup (nodup_firsts l)]
  congr 1
  ext a
  rw [List.mem_toFinset, List.mem_toFinset, mem_firsts]

end Lib
end Fuzznet
