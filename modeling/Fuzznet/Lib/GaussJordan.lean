/-
# Gauss-Jordan elimination on the rows of a module

The rows are `k` vectors of a module over a field, and `lead` reads the `k`
coefficients of a row that the elimination works on; in an augmented matrix the rest
of the row rides along.  A column is reduced by three operations: the pivot row is
swapped into place, scaled to have a one there, and subtracted from every other row
as often as that row has the column.

Two facts are enough to use it.  Each operation keeps the row space, said as: all
rows lie in a submodule before exactly when they do after.  And reducing column `c`
makes it a unit column and leaves the unit columns before it (`Cleared`).  Then
`Reduced.exists_pivot` finds a pivot in every column as long as no vector but zero is
orthogonal to all rows, and `Reduced.solve` reads the solution off the last state.
-/

import Mathlib.Algebra.Field.Basic
import Mathlib.Data.Matrix.Mul
import Mathlib.LinearAlgebra.Pi

namespace Fuzznet
namespace Lib

section Rows

variable {K V : Type*} [Field K] [AddCommGroup V] [Module K V] {k : ℕ}

/-- The rows with `c` and `p` exchanged. -/
def swapRows (c p : Fin k) (rows : Fin k → V) : Fin k → V := fun r => rows (Equiv.swap c p r)

/-- The rows with row `c` multiplied by `s`. -/
def scaleRow (c : Fin k) (s : K) (rows : Fin k → V) : Fin k → V :=
  fun r => if r = c then s • rows r else rows r

/-- The rows with `f r` times row `c` taken from every other row `r`. -/
def clearRows (c : Fin k) (f : Fin k → K) (rows : Fin k → V) : Fin k → V :=
  fun r => if r = c then rows r else rows r - f r • rows c

/-- One column of the elimination, with the pivot in row `p`. -/
def reduceRows (lead : V →ₗ[K] (Fin k → K)) (c p : Fin k) (rows : Fin k → V) : Fin k → V :=
  clearRows c
    (fun r => lead (scaleRow c (lead (rows p) c)⁻¹ (swapRows c p rows) r) c)
    (scaleRow c (lead (rows p) c)⁻¹ (swapRows c p rows))

/-- The columns before `n` are unit columns. -/
def Cleared (lead : V →ₗ[K] (Fin k → K)) (rows : Fin k → V) (n : ℕ) : Prop :=
  ∀ j : Fin k, j.val < n → ∀ r, lead (rows r) j = if r = j then 1 else 0

/-! ### The row space -/

theorem forall_mem_swapRows {c p : Fin k} {rows : Fin k → V} (S : Submodule K V) :
    (∀ r, swapRows c p rows r ∈ S) ↔ ∀ r, rows r ∈ S := by
  constructor
  · intro h r
    have hr := h (Equiv.swap c p r)
    rwa [swapRows, Equiv.swap_apply_self] at hr
  · intro h r
    exact h _

theorem forall_mem_scaleRow {c : Fin k} {s : K} (hs : s ≠ 0) {rows : Fin k → V}
    (S : Submodule K V) : (∀ r, scaleRow c s rows r ∈ S) ↔ ∀ r, rows r ∈ S := by
  constructor
  · intro h r
    have hr := h r
    by_cases hrc : r = c
    · rw [scaleRow, if_pos hrc] at hr
      exact (S.smul_mem_iff hs).1 hr
    · rwa [scaleRow, if_neg hrc] at hr
  · intro h r
    by_cases hrc : r = c
    · rw [scaleRow, if_pos hrc]
      exact S.smul_mem s (h r)
    · rw [scaleRow, if_neg hrc]
      exact h r

theorem forall_mem_clearRows {c : Fin k} {f : Fin k → K} {rows : Fin k → V}
    (S : Submodule K V) : (∀ r, clearRows c f rows r ∈ S) ↔ ∀ r, rows r ∈ S := by
  constructor
  · intro h r
    have hc := h c
    rw [clearRows, if_pos rfl] at hc
    have hr := h r
    by_cases hrc : r = c
    · rwa [clearRows, if_pos hrc] at hr
    · rw [clearRows, if_neg hrc] at hr
      exact (S.sub_mem_iff_left (S.smul_mem (f r) hc)).1 hr
  · intro h r
    by_cases hrc : r = c
    · rw [clearRows, if_pos hrc]
      exact h r
    · rw [clearRows, if_neg hrc]
      exact S.sub_mem (h r) (S.smul_mem (f r) (h c))

/-! ### The unit columns -/

section Columns

variable {lead : V →ₗ[K] (Fin k → K)} {rows : Fin k → V} {c p : Fin k}

theorem Cleared.swapRows (h : Cleared lead rows c) (hcp : c ≤ p) :
    Cleared lead (swapRows c p rows) c := by
  intro j hj r
  have hjc : j ≠ c := Fin.ne_of_lt hj
  have hjp : j ≠ p := Fin.ne_of_lt (lt_of_lt_of_le hj hcp)
  have hswap : Equiv.swap c p r = j ↔ r = j := by
    rw [← Equiv.eq_symm_apply, Equiv.symm_swap, Equiv.swap_apply_of_ne_of_ne hjc hjp]
  rw [Lib.swapRows, h j hj]
  simp only [hswap]

theorem Cleared.scaleRow (h : Cleared lead rows c) (s : K) :
    Cleared lead (scaleRow c s rows) c := by
  intro j hj r
  by_cases hrc : r = c
  · have hrj : r ≠ j := by
      rw [hrc]
      exact Fin.ne_of_gt hj
    rw [Lib.scaleRow, if_pos hrc, map_smul, Pi.smul_apply, h j hj, if_neg hrj, smul_zero]
  · rw [Lib.scaleRow, if_neg hrc, h j hj]

theorem Cleared.clearRows (h : Cleared lead rows c) (hone : lead (rows c) c = 1) :
    Cleared lead (clearRows c (fun r => lead (rows r) c) rows) (c + 1) := by
  intro j hj r
  rcases Nat.lt_succ_iff_lt_or_eq.1 hj with hlt | heq
  · have hcj : c ≠ j := Fin.ne_of_gt hlt
    by_cases hrc : r = c
    · rw [Lib.clearRows, if_pos hrc, h j hlt]
    · rw [Lib.clearRows, if_neg hrc, map_sub, map_smul, Pi.sub_apply, Pi.smul_apply, h j hlt,
        h j hlt c, if_neg hcj, smul_zero, sub_zero]
  · obtain rfl : j = c := Fin.ext heq
    by_cases hrc : r = j
    · rw [Lib.clearRows, if_pos hrc, if_pos hrc, hrc, hone]
    · rw [Lib.clearRows, if_neg hrc, if_neg hrc, map_sub, map_smul, Pi.sub_apply, Pi.smul_apply,
        hone, smul_eq_mul, mul_one, sub_self]

end Columns

/-! ### The whole elimination -/

/-- The rows of an elimination started at `start`, after `n` columns. -/
structure Reduced (lead : V →ₗ[K] (Fin k → K)) (start rows : Fin k → V) (n : ℕ) : Prop where
  /-- the columns done are unit columns -/
  cleared : Cleared lead rows n
  /-- the row space is the one it started with -/
  same : ∀ S : Submodule K V, (∀ r, rows r ∈ S) ↔ ∀ r, start r ∈ S

section Reduced

variable {lead : V →ₗ[K] (Fin k → K)} {start rows : Fin k → V}

theorem Reduced.init : Reduced lead start start 0 :=
  ⟨fun _ hj => absurd hj (Nat.not_lt_zero _), fun _ => Iff.rfl⟩

/-- **One column further.** -/
theorem Reduced.reduceRows {c p : Fin k} (h : Reduced lead start rows c) (hcp : c ≤ p)
    (hp : lead (rows p) c ≠ 0) : Reduced lead start (reduceRows lead c p rows) (c + 1) := by
  constructor
  · refine ((h.cleared.swapRows hcp).scaleRow _).clearRows ?_
    rw [Lib.scaleRow, if_pos rfl, Lib.swapRows, Equiv.swap_apply_left, map_smul, Pi.smul_apply,
      smul_eq_mul, inv_mul_cancel₀ hp]
  · intro S
    rw [Lib.reduceRows, forall_mem_clearRows, forall_mem_scaleRow (inv_ne_zero hp),
      forall_mem_swapRows, h.same]

/-- The rows whose leading part meets `v` in what `tail` says. -/
def meets (lead : V →ₗ[K] (Fin k → K)) (tail : V →ₗ[K] K) (v : Fin k → K) : Submodule K V where
  carrier := { x | lead x ⬝ᵥ v = tail x }
  add_mem' {x y} hx hy := by
    show lead (x + y) ⬝ᵥ v = tail (x + y)
    rw [map_add, map_add, add_dotProduct, show lead x ⬝ᵥ v = tail x from hx,
      show lead y ⬝ᵥ v = tail y from hy]
  zero_mem' := by
    show lead 0 ⬝ᵥ v = tail 0
    rw [map_zero, map_zero, zero_dotProduct]
  smul_mem' s x hx := by
    show lead (s • x) ⬝ᵥ v = tail (s • x)
    rw [map_smul, map_smul, smul_dotProduct, show lead x ⬝ᵥ v = tail x from hx]

theorem mem_meets {tail : V →ₗ[K] K} {v : Fin k → K} {x : V} :
    x ∈ meets lead tail v ↔ lead x ⬝ᵥ v = tail x := Iff.rfl

/-- Column `c` less its entries times the unit columns before it. -/
def columnRelation (lead : V →ₗ[K] (Fin k → K)) (rows : Fin k → V) (c : Fin k) : Fin k → K :=
  fun j => if j = c then 1 else if j < c then -lead (rows j) c else 0

/-- Against a row, the unit columns leave the entry in column `c` and, in the rows that have
a unit column, its negative. -/
theorem Cleared.mul_columnRelation {c : Fin k} (h : Cleared lead rows c) (r j : Fin k) :
    lead (rows r) j * columnRelation lead rows c j =
      (if j = c then lead (rows r) c else 0) +
        if j = r then (if r < c then -lead (rows r) c else 0) else 0 := by
  rcases lt_trichotomy j c with hlt | heq | hgt
  · rw [h j hlt r]
    by_cases hrj : j = r
    · subst hrj
      simp [columnRelation, Fin.ne_of_lt hlt, hlt]
    · simp [hrj, Ne.symm hrj, Fin.ne_of_lt hlt]
  · subst heq
    by_cases hrj : j = r
    · subst hrj
      simp [columnRelation]
    · simp [columnRelation, hrj]
  · have hjc : j ≠ c := Fin.ne_of_gt hgt
    by_cases hrj : j = r
    · subst hrj
      simp [columnRelation, hjc, not_lt_of_gt hgt]
    · simp [columnRelation, hjc, hrj, not_lt_of_gt hgt]

/-- **A pivot is always found.**  Were column `c` zero from row `c` on, it would be a
combination of the unit columns before it, and that combination a vector orthogonal to
every row. -/
theorem Reduced.exists_pivot {c : Fin k} (h : Reduced lead start rows c)
    (hstart : ∀ v, (∀ r, lead (start r) ⬝ᵥ v = 0) → v = 0) :
    ∃ p, c ≤ p ∧ lead (rows p) c ≠ 0 := by
  by_contra hnone
  have hzero : ∀ p, c ≤ p → lead (rows p) c = 0 := by
    intro p hp
    by_contra hne
    exact hnone ⟨p, hp, hne⟩
  have horth : ∀ r, rows r ∈ meets lead 0 (columnRelation lead rows c) := by
    intro r
    rw [mem_meets, dotProduct, Finset.sum_congr rfl fun j _ => h.cleared.mul_columnRelation r j,
      Finset.sum_add_distrib, Finset.sum_ite_eq' Finset.univ c, Finset.sum_ite_eq' Finset.univ r,
      if_pos (Finset.mem_univ c), if_pos (Finset.mem_univ r), LinearMap.zero_apply]
    by_cases hrc : r < c
    · rw [if_pos hrc, add_neg_cancel]
    · rw [if_neg hrc, hzero r (not_lt.1 hrc), add_zero]
  have hnull : columnRelation lead rows c = 0 := hstart _ ((h.same _).1 horth)
  have hone : columnRelation lead rows c c = 1 := if_pos rfl
  rw [hnull] at hone
  exact zero_ne_one hone

/-- **The last state is the solution.**  Where every row started with `tail` equal to its
product with `v`, row `r` ends with `tail` equal to `v r`. -/
theorem Reduced.solve (h : Reduced lead start rows k) (tail : V →ₗ[K] K) {v : Fin k → K}
    (hstart : ∀ r, lead (start r) ⬝ᵥ v = tail (start r)) (r : Fin k) : tail (rows r) = v r := by
  have hr : lead (rows r) ⬝ᵥ v = tail (rows r) := (h.same (meets lead tail v)).2 hstart r
  have hunit : ∀ j, lead (rows r) j * v j = if r = j then v j else 0 := by
    intro j
    rw [h.cleared j j.isLt r, ite_mul, one_mul, zero_mul]
  rw [← hr, dotProduct, Finset.sum_congr rfl fun j _ => hunit j, Finset.sum_ite_eq,
    if_pos (Finset.mem_univ r)]

end Reduced

end Rows

end Lib
end Fuzznet
