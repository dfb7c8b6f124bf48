/-
# The identity stacked on a Cauchy matrix

A Cauchy matrix has `1 / (x - y)` in row `x` and column `y`.  A vector that as many
rows as it has columns send to zero is zero (`cauchy_eq_zero`): multiplied by the
product of the `x - y`, the row sums are the values of one polynomial of degree below
the number of columns, so it has too many roots, and its value at a column's `y` is
that entry of the vector times a product that is not zero.

The rows of the identity fix entries of the vector, and each that is taken leaves one
Cauchy row less and one column less.  So any `κ`-many distinct rows of the identity
stacked on a Cauchy matrix with columns `κ` are independent
(`eq_zero_of_identity_over_cauchy`), which is what makes a systematic code rebuild
from any of its pieces.
-/

import Mathlib.LinearAlgebra.Lagrange

namespace Fuzznet
namespace Lib

open Polynomial

variable {K κ : Type*} [Field K] [DecidableEq κ]

/-- The row sums of a Cauchy matrix over the columns `U`, cleared of denominators. -/
noncomputable def cauchyPoly (U : Finset κ) (y v : κ → K) : K[X] :=
  ∑ c ∈ U, C (v c) * ∏ d ∈ U.erase c, (X - C (y d))

theorem degree_cauchyPoly_lt (U : Finset κ) (y v : κ → K) :
    (cauchyPoly U y v).degree < U.card := by
  rw [← mem_degreeLT, cauchyPoly]
  refine Submodule.sum_mem _ fun c hc => ?_
  rw [← smul_eq_C_mul]
  refine Submodule.smul_mem _ _ (mem_degreeLT.2 ?_)
  have hpos := Finset.card_pos.2 ⟨c, hc⟩
  rw [degree_prod, Finset.sum_congr rfl fun d _ => degree_X_sub_C (y d), Finset.sum_const,
    nsmul_one, Finset.card_erase_of_mem hc]
  exact_mod_cast Nat.sub_lt hpos Nat.one_pos

theorem eval_cauchyPoly (U : Finset κ) (y v : κ → K) (a : K) :
    (cauchyPoly U y v).eval a = ∑ c ∈ U, v c * ∏ d ∈ U.erase c, (a - y d) := by
  simp only [cauchyPoly, eval_finsetSum, eval_mul, eval_C, eval_prod, eval_sub, eval_X]

/-- Away from the columns, the value is the row sum times the product cleared. -/
theorem eval_cauchyPoly_of_ne {U : Finset κ} {y : κ → K} {a : K} (hne : ∀ c ∈ U, a ≠ y c)
    (v : κ → K) :
    (cauchyPoly U y v).eval a = (∏ d ∈ U, (a - y d)) * ∑ c ∈ U, (a - y c)⁻¹ * v c := by
  rw [eval_cauchyPoly, Finset.mul_sum]
  refine Finset.sum_congr rfl fun c hc => ?_
  have hac : a - y c ≠ 0 := sub_ne_zero.2 (hne c hc)
  rw [← Finset.mul_prod_erase U _ hc]
  field_simp

/-- At a column, only that column's term is left. -/
theorem eval_cauchyPoly_self {U : Finset κ} {c : κ} (hc : c ∈ U) (y v : κ → K) :
    (cauchyPoly U y v).eval (y c) = v c * ∏ d ∈ U.erase c, (y c - y d) := by
  rw [eval_cauchyPoly]
  refine Finset.sum_eq_single c (fun b hb hbc => ?_) (fun h => absurd hc h)
  rw [Finset.prod_eq_zero (Finset.mem_erase.2 ⟨Ne.symm hbc, hc⟩) (sub_self _), mul_zero]

/-- **As many Cauchy rows as columns leave only the zero vector.** -/
theorem cauchy_eq_zero {U : Finset κ} {s : Finset K} {y v : κ → K} (hcard : U.card ≤ s.card)
    (hy : Set.InjOn y U) (hne : ∀ a ∈ s, ∀ c ∈ U, a ≠ y c)
    (hsum : ∀ a ∈ s, ∑ c ∈ U, (a - y c)⁻¹ * v c = 0) : ∀ c ∈ U, v c = 0 := by
  intro c hc
  have hzero : cauchyPoly U y v = 0 := by
    refine eq_zero_of_degree_lt_of_eval_finset_eq_zero s ?_ fun a ha => ?_
    · exact lt_of_lt_of_le (degree_cauchyPoly_lt U y v) (by exact_mod_cast hcard)
    · rw [eval_cauchyPoly_of_ne (hne a ha), hsum a ha, mul_zero]
  have heval := eval_cauchyPoly_self hc y v
  rw [hzero, eval_zero] at heval
  have hprod : ∏ d ∈ U.erase c, (y c - y d) ≠ 0 := by
    refine Finset.prod_ne_zero_iff.2 fun d hd => sub_ne_zero.2 fun heq => ?_
    obtain ⟨hdc, hdU⟩ := Finset.mem_erase.1 hd
    exact hdc (hy hdU hc heq.symm)
  exact (mul_eq_zero.1 heval.symm).resolve_right hprod

/-! ### Rows of the identity among them -/

section Stacked

variable [Fintype κ]

/-- The rows that are not a row of the identity. -/
def cauchyRows (unit : κ → Option κ) : Finset κ := Finset.univ.filter fun i => unit i = none

/-- The columns that no row of the identity fixes. -/
def freeColumns (unit : κ → Option κ) : Finset κ :=
  Finset.univ.filter fun c => ∀ i, unit i ≠ some c

omit [DecidableEq κ] in
theorem mem_cauchyRows {unit : κ → Option κ} {i : κ} : i ∈ cauchyRows unit ↔ unit i = none := by
  rw [cauchyRows, Finset.mem_filter, and_iff_right (Finset.mem_univ i)]

theorem mem_freeColumns {unit : κ → Option κ} {c : κ} :
    c ∈ freeColumns unit ↔ ∀ i, unit i ≠ some c := by
  rw [freeColumns, Finset.mem_filter, and_iff_right (Finset.mem_univ c)]

/-- Each row of the identity that is taken fixes a column of its own. -/
theorem card_freeColumns_le {unit : κ → Option κ}
    (hunit : ∀ i j d, unit i = some d → unit j = some d → i = j) :
    (freeColumns unit).card ≤ (cauchyRows unit).card := by
  have hcompl : (cauchyRows unit)ᶜ.card ≤ (freeColumns unit)ᶜ.card := by
    refine Finset.card_le_card_of_injOn (fun i => (unit i).getD i) ?_ ?_
    · intro i hi
      rw [Finset.mem_coe, Finset.mem_compl, mem_cauchyRows] at hi
      obtain ⟨d, hd⟩ := Option.ne_none_iff_exists'.1 hi
      show (unit i).getD i ∈ (↑(freeColumns unit)ᶜ : Set κ)
      rw [Finset.mem_coe, Finset.mem_compl, mem_freeColumns, hd, Option.getD_some]
      exact fun h => h i hd
    · intro i hi j hj hij
      rw [Finset.mem_coe, Finset.mem_compl, mem_cauchyRows] at hi hj
      obtain ⟨d, hd⟩ := Option.ne_none_iff_exists'.1 hi
      obtain ⟨e, he⟩ := Option.ne_none_iff_exists'.1 hj
      simp only [hd, he, Option.getD_some] at hij
      exact hunit i j d hd (by rw [he, hij])
  have hrows := Finset.card_add_card_compl (cauchyRows unit)
  have hcols := Finset.card_add_card_compl (freeColumns unit)
  omega

/-- **Any rows of the identity over a Cauchy matrix are independent**, as many as there are
columns.  Row `i` is the row `d` of the identity when `u i = some d`, and the Cauchy row
of `x i` otherwise. -/
theorem eq_zero_of_identity_over_cauchy [DecidableEq K] {u : κ → Option κ} {x y v : κ → K}
    (hunit : ∀ i j d, u i = some d → u j = some d → i = j)
    (hx : ∀ i j, u i = none → u j = none → x i = x j → i = j)
    (hy : Function.Injective y) (hne : ∀ i c, u i = none → x i ≠ y c)
    (hfixed : ∀ i d, u i = some d → v d = 0)
    (hsum : ∀ i, u i = none → ∑ c, (x i - y c)⁻¹ * v c = 0) : v = 0 := by
  have hout : ∀ c, c ∉ freeColumns u → v c = 0 := by
    intro c hc
    rw [mem_freeColumns, not_forall] at hc
    obtain ⟨i, hi⟩ := hc
    exact hfixed i c (not_not.1 hi)
  have hinj : Set.InjOn x (cauchyRows u) := fun i hi j hj hij =>
    hx i j (mem_cauchyRows.1 hi) (mem_cauchyRows.1 hj) hij
  have hin : ∀ c ∈ freeColumns u, v c = 0 := by
    refine cauchy_eq_zero (s := (cauchyRows u).image x) ?_ hy.injOn ?_ ?_
    · rw [Finset.card_image_of_injOn hinj]
      exact card_freeColumns_le hunit
    · intro a ha c _
      obtain ⟨i, hi, rfl⟩ := Finset.mem_image.1 ha
      exact hne i c (mem_cauchyRows.1 hi)
    · intro a ha
      obtain ⟨i, hi, rfl⟩ := Finset.mem_image.1 ha
      rw [← hsum i (mem_cauchyRows.1 hi)]
      refine Finset.sum_subset (Finset.subset_univ _) fun c _ hc => ?_
      rw [hout c hc, mul_zero]
  funext c
  by_cases hc : c ∈ freeColumns u
  · exact hin c hc
  · exact hout c hc

end Stacked

end Lib
end Fuzznet
