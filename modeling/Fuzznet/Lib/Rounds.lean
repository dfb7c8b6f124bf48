/-
# Flags settled by rounds in place

A finite set of flags is raised in rounds.  A round visits the indices in
order and raises a flag as soon as its test passes on the flags *as they stand
at that moment*, flags raised earlier in the same round included; rounds go on
until one raises nothing, or until as many have run as there are indices and
one more.

For a test that is monotone in the flags, the flags that stand at the end are
the least set closed under the test (`rounds_closed`, `rounds_least`) and every
flag that stands is supported by the flags that stand (`rounds_supported`).
Neither the order of the indices nor the updates in place show in that
description.
-/

import Mathlib.Logic.Function.Basic
import Mathlib.Order.Basic
import Mathlib.Data.Nat.Notation

namespace Fuzznet
namespace Lib

variable {ι : Type*} [DecidableEq ι]

/-- One round over the indices `as`: the flags after it, and whether one was
raised. -/
@[grind =] def sweep (ok : (ι → Bool) → ι → Bool) : List ι → (ι → Bool) → (ι → Bool) × Bool
  | [], c => (c, false)
  | a :: as, c =>
    if c a || !ok c a then sweep ok as c
    else ((sweep ok as (Function.update c a true)).1, true)

/-- At most `n` rounds, stopping behind the first that raises nothing. -/
@[grind =] def rounds (ok : (ι → Bool) → ι → Bool) (as : List ι) : ℕ → (ι → Bool) → ι → Bool
  | 0, c => c
  | n + 1, c =>
    if (sweep ok as c).2 then rounds ok as n (sweep ok as c).1 else (sweep ok as c).1

/-- A test that stays passed when more flags stand. -/
def MonoTest (ok : (ι → Bool) → ι → Bool) : Prop :=
  ∀ c d : ι → Bool, (∀ a, c a → d a) → ∀ a, ok c a → ok d a

variable {ok : (ι → Bool) → ι → Bool}

theorem update_true_of {c : ι → Bool} {a b : ι} (h : c b = true) :
    Function.update c a true b = true := by
  by_cases hb : b = a
  · rw [hb, Function.update_self]
  · rw [Function.update_of_ne hb, h]

/-- A round lowers no flag. -/
theorem le_sweep (as : List ι) (c : ι → Bool) (b : ι) (h : c b = true) :
    (sweep ok as c).1 b = true := by
  induction as generalizing c with
  | nil => exact h
  | cons a as ih =>
    rw [sweep]
    split_ifs
    · exact ih c h
    · exact ih _ (update_true_of h)

/-- A round keeps every flag inside a set closed under the test. -/
theorem sweep_le (hok : MonoTest ok) {d : ι → Bool} (as : List ι)
    (hd : ∀ a ∈ as, ok d a → d a) (c : ι → Bool) (hc : ∀ a, c a → d a) :
    ∀ a, (sweep ok as c).1 a → d a := by
  induction as generalizing c with
  | nil => exact hc
  | cons a as ih =>
    have has : ∀ b ∈ as, ok d b → d b := fun b hb => hd b (List.mem_cons_of_mem _ hb)
    rw [sweep]
    split_ifs with h
    · exact ih has c hc
    · refine ih has _ fun b hb => ?_
      simp only [Bool.or_eq_true, Bool.not_eq_true', not_or, Bool.not_eq_false] at h
      by_cases hba : b = a
      · rw [hba]
        exact hd a List.mem_cons_self (hok c d hc a h.2)
      · rw [Function.update_of_ne hba] at hb
        exact hc b hb

/-- A round keeps every flag supported by the flags that stand behind it. -/
theorem sweep_supported (hok : MonoTest ok) (as : List ι) (c : ι → Bool)
    (hc : ∀ a, c a → ok c a) : ∀ a, (sweep ok as c).1 a → ok (sweep ok as c).1 a := by
  induction as generalizing c with
  | nil => exact hc
  | cons a as ih =>
    rw [sweep]
    split_ifs with h
    · exact ih c hc
    · refine ih _ fun b hb => ?_
      have hle : ∀ x, c x → Function.update c a true x := fun x hx => update_true_of hx
      simp only [Bool.or_eq_true, Bool.not_eq_true', not_or, Bool.not_eq_false] at h
      by_cases hba : b = a
      · rw [hba]
        exact hok c _ hle a h.2
      · rw [Function.update_of_ne hba] at hb
        exact hok c _ hle b (hc b hb)

/-- A round that raises nothing changes nothing and leaves a closed set. -/
theorem sweep_unchanged (as : List ι) (c : ι → Bool) (h : (sweep ok as c).2 = false) :
    (sweep ok as c).1 = c ∧ ∀ a ∈ as, ok c a → c a := by
  induction as generalizing c with
  | nil => exact ⟨rfl, fun a ha => absurd ha List.not_mem_nil⟩
  | cons a as ih =>
    rw [sweep] at h ⊢
    split_ifs at h ⊢ with hca
    obtain ⟨heq, hcl⟩ := ih c h
    refine ⟨heq, fun b hb hokb => ?_⟩
    rcases List.mem_cons.1 hb with rfl | hb
    · simpa [hokb] using hca
    · exact hcl b hb hokb

/-- The flags of `as` still down. -/
def down (as : List ι) (c : ι → Bool) : ℕ := as.countP fun a => !c a

omit [DecidableEq ι] in
theorem down_mono {as : List ι} {c d : ι → Bool} (h : ∀ a, c a → d a) : down as d ≤ down as c := by
  refine List.countP_mono_left fun a _ hda => ?_
  cases hca : c a with
  | false => rfl
  | true => simp [h a hca] at hda

/-- A round that raises a flag leaves fewer down. -/
theorem down_sweep_lt (as : List ι) (c : ι → Bool) (h : (sweep ok as c).2 = true) :
    down as (sweep ok as c).1 < down as c := by
  induction as generalizing c with
  | nil => simp [sweep] at h
  | cons a as ih =>
    rw [sweep] at h ⊢
    split_ifs at h ⊢ with hca
    · have hle : (!(sweep ok as c).1 a) = true → (!c a) = true := fun hn => by
        cases hc : c a with
        | false => rfl
        | true => simp [le_sweep as c a hc] at hn
      have := ih c h
      simp only [down, List.countP_cons] at this ⊢
      split_ifs <;> first | omega | (exfalso; simp_all)
    · simp only [Bool.or_eq_true, not_or, Bool.not_eq_true] at hca
      have hup : (sweep ok as (Function.update c a true)).1 a = true :=
        le_sweep as _ a (Function.update_self ..)
      have hle : down as (sweep ok as (Function.update c a true)).1 ≤ down as c :=
        down_mono fun b hb => le_sweep as _ b (update_true_of hb)
      simp only [down, List.countP_cons, hup, hca.1] at hle ⊢
      simpa using Nat.lt_succ_of_le hle

/-- **The rounds end on a closed set** when there are more of them than flags
down. -/
theorem rounds_closed {as : List ι} {n : ℕ} {c : ι → Bool} (hn : down as c < n) :
    ∀ a ∈ as, ok (rounds ok as n c) a → rounds ok as n c a := by
  induction n generalizing c with
  | zero => omega
  | succ n ih =>
    rw [rounds]
    split_ifs with h
    · exact ih (by have := down_sweep_lt as c h; omega)
    · obtain ⟨heq, hcl⟩ := sweep_unchanged as c (by simpa using h)
      rw [heq]
      exact hcl

/-- **It is the least one:** every closed set that holds the flags the rounds
started from holds the flags they end with. -/
theorem rounds_least (hok : MonoTest ok) {as : List ι} {d : ι → Bool}
    (hd : ∀ a ∈ as, ok d a → d a) (n : ℕ) (c : ι → Bool) (hc : ∀ a, c a → d a) :
    ∀ a, rounds ok as n c a → d a := by
  induction n generalizing c with
  | zero => exact hc
  | succ n ih =>
    rw [rounds]
    split_ifs
    · exact ih _ (sweep_le hok as hd c hc)
    · exact sweep_le hok as hd c hc

/-- **Every flag that stands is supported** by the flags that stand. -/
theorem rounds_supported (hok : MonoTest ok) (as : List ι) (n : ℕ) (c : ι → Bool)
    (hc : ∀ a, c a → ok c a) : ∀ a, rounds ok as n c a → ok (rounds ok as n c) a := by
  induction n generalizing c with
  | zero => exact hc
  | succ n ih =>
    rw [rounds]
    split_ifs
    · exact ih _ (sweep_supported hok as c hc)
    · exact sweep_supported hok as c hc

end Lib
end Fuzznet
