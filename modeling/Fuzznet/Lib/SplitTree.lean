/-
# Trees split at a power of two

The tree over `n` leaves that RFC 6962 splits at the largest power of two below `n`: the left
half is perfect, the right one the rest (`apex`).  The same tree comes out of a stack of
perfect subtrees folded like a binary counter (`carry`): pushing the leaves one by one keeps
the stack that `n` spells in binary (`Stacked`), and folding the stack from the top down
gives the apex (`fold_stacked`).
-/

import Mathlib.Data.Nat.Log
import Mathlib.Tactic.Ring

namespace Fuzznet
namespace Lib

/-- The largest power of two below `n`. -/
def splitSize (n : ℕ) : ℕ := 2 ^ Nat.log 2 (n - 1)

theorem splitSize_pos (n : ℕ) : 0 < splitSize n := Nat.two_pow_pos _

theorem splitSize_lt {n : ℕ} (h : 1 < n) : splitSize n < n := by
  have := Nat.pow_log_le_self 2 (x := n - 1) (by omega)
  unfold splitSize
  omega

theorem le_two_mul_splitSize (n : ℕ) : n ≤ 2 * splitSize n := by
  have := Nat.lt_pow_succ_log_self one_lt_two (n - 1)
  rw [Nat.pow_succ] at this
  unfold splitSize
  omega

/-- A power of two and at most as much again is split behind the power. -/
theorem splitSize_add {l r : ℕ} (hr : 0 < r) (hle : r ≤ 2 ^ l) : splitSize (2 ^ l + r) = 2 ^ l := by
  have hpos := Nat.two_pow_pos l
  unfold splitSize
  congr 1
  refine (Nat.log_eq_iff (.inr ⟨one_lt_two, by omega⟩)).2 ⟨by omega, ?_⟩
  rw [Nat.pow_succ]
  omega

section Apex

variable {α : Type*} (node : α → α → α) (f : ℕ → α)

/-- The apex of the tree over `n` leaves from `lo` on. -/
def apex (lo n : ℕ) : α :=
  if _ : 1 < n then node (apex lo (splitSize n)) (apex (lo + splitSize n) (n - splitSize n)) else f lo
termination_by n
decreasing_by
  · exact splitSize_lt ‹_›
  · have := splitSize_pos n
    omega

variable {node f}

theorem apex_one (lo : ℕ) : apex node f lo 1 = f lo := by
  rw [apex, dif_neg (by omega)]

theorem apex_of_lt {lo n : ℕ} (h : 1 < n) : apex node f lo n =
    node (apex node f lo (splitSize n)) (apex node f (lo + splitSize n) (n - splitSize n)) := by
  rw [apex, dif_pos h]

/-- A perfect tree and at most as much again, side by side. -/
theorem apex_add {lo l r : ℕ} (hr : 0 < r) (hle : r ≤ 2 ^ l) : apex node f lo (2 ^ l + r) =
    node (apex node f lo (2 ^ l)) (apex node f (lo + 2 ^ l) r) := by
  have hpos := Nat.two_pow_pos l
  rw [apex_of_lt (by omega), splitSize_add hr hle, Nat.add_sub_cancel_left]

/-- Two perfect trees of one height are one of the next. -/
theorem apex_two_pow (lo l : ℕ) : apex node f lo (2 ^ (l + 1)) =
    node (apex node f lo (2 ^ l)) (apex node f (lo + 2 ^ l) (2 ^ l)) := by
  rw [Nat.pow_succ, Nat.mul_two]
  exact apex_add (Nat.two_pow_pos l) (Nat.le_refl _)

/-- The tree does not depend on where its leaves are counted from. -/
theorem apex_shift (k lo n : ℕ) (hn : 0 < n) :
    apex node (fun i => f (k + i)) lo n = apex node f (k + lo) n := by
  induction n using Nat.strongRecOn generalizing lo with
  | ind n ih =>
    by_cases hone : 1 < n
    · have hlt := splitSize_lt hone
      have hpos := splitSize_pos n
      rw [apex_of_lt hone, apex_of_lt hone, ih _ hlt _ hpos, ih _ (by omega) _ (by omega),
        Nat.add_assoc]
    · obtain rfl : n = 1 := by omega
      rw [apex_one, apex_one]

/-- The ranges of leaves that are subtrees of the tree over `n` leaves from `lo` on. -/
inductive Part (lo n : ℕ) : ℕ → ℕ → Prop
  | whole : Part lo n lo n
  | left {lo' n' : ℕ} (h : Part lo n lo' n') (many : 1 < n') : Part lo n lo' (splitSize n')
  | right {lo' n' : ℕ} (h : Part lo n lo' n') (many : 1 < n') :
      Part lo n (lo' + splitSize n') (n' - splitSize n')

theorem Part.trans {lo n lo' n' lo'' n'' : ℕ} (h : Part lo n lo' n') (h' : Part lo' n' lo'' n'') :
    Part lo n lo'' n'' := by
  induction h' with
  | whole => exact h
  | left _ many ih => exact ih.left many
  | right _ many ih => exact ih.right many

/-- A subtree's leaves are some of the tree's. -/
theorem Part.bounds {lo n lo' n' : ℕ} (h : Part lo n lo' n') :
    lo ≤ lo' ∧ lo' + n' ≤ lo + n := by
  induction h with
  | whole => exact ⟨Nat.le_refl _, Nat.le_refl _⟩
  | @left lo' n' _ many ih =>
    have := splitSize_lt many
    omega
  | @right lo' n' _ many ih =>
    have := splitSize_lt many
    omega

theorem Part.pos {lo n lo' n' : ℕ} (h : Part lo n lo' n') (hn : 0 < n) : 0 < n' := by
  induction h with
  | whole => exact hn
  | left _ _ _ => exact splitSize_pos _
  | right _ many _ => exact Nat.sub_pos_of_lt (splitSize_lt many)

/-- A subtree is the tree, or one of a half. -/
theorem Part.of_halves {lo n lo' n' : ℕ} (h : Part lo n lo' n') : lo' = lo ∧ n' = n ∨
    1 < n ∧ (Part lo (splitSize n) lo' n' ∨ Part (lo + splitSize n) (n - splitSize n) lo' n') := by
  induction h with
  | whole => exact .inl ⟨rfl, rfl⟩
  | left _ many ih =>
    rcases ih with ⟨rfl, rfl⟩ | ⟨hn, h | h⟩
    · exact .inr ⟨many, .inl .whole⟩
    · exact .inr ⟨hn, .inl (h.left many)⟩
    · exact .inr ⟨hn, .inr (h.left many)⟩
  | right _ many ih =>
    rcases ih with ⟨rfl, rfl⟩ | ⟨hn, h | h⟩
    · exact .inr ⟨many, .inr .whole⟩
    · exact .inr ⟨hn, .inl (h.right many)⟩
    · exact .inr ⟨hn, .inr (h.right many)⟩

/-! ## A stack of perfect trees -/

/-- A stack, its top first, of perfect trees and their heights: they stand one behind the
other up to leaf `m`, each higher than the next. -/
inductive Stacked (node : α → α → α) (f : ℕ → α) : ℕ → List (ℕ × α) → Prop
  | nil : Stacked node f 0 []
  | cons {m l : ℕ} {rest : List (ℕ × α)} (below : Stacked node f m rest)
      (higher : ∀ e ∈ rest.head?, l < e.1) :
      Stacked node f (m + 2 ^ l) ((l, apex node f m (2 ^ l)) :: rest)

/-- Two trees of one height on top become one, while there are two. -/
def carry (node : α → α → α) (l : ℕ) (x : α) : List (ℕ × α) → List (ℕ × α)
  | [] => [(l, x)]
  | e :: rest => if e.1 = l then carry node (l + 1) (node e.2 x) rest else (l, x) :: e :: rest

variable {stack : List (ℕ × α)}

/-- **A perfect tree pushed** keeps the stack one. -/
theorem Stacked.carry {m l : ℕ} (h : Stacked node f m stack) (hle : ∀ e ∈ stack.head?, l ≤ e.1) :
    Stacked node f (m + 2 ^ l) (carry node l (apex node f m (2 ^ l)) stack) := by
  induction h generalizing l with
  | nil => exact .cons .nil (by simp)
  | @cons m l' rest below higher ih =>
    rw [Lib.carry]
    by_cases heq : l' = l
    · -- two of one height: the sum carries
      subst heq
      have hnext := ih (l := l' + 1) fun e he => higher e he
      rw [apex_two_pow] at hnext
      rw [if_pos rfl, Nat.add_assoc, ← Nat.mul_two, ← Nat.pow_succ]
      exact hnext
    · rw [if_neg heq]
      have hle' : l ≤ l' := hle _ rfl
      refine .cons (.cons below higher) fun e he => ?_
      obtain rfl : (l', _) = e := Option.some.inj he
      exact Nat.lt_of_le_of_ne hle' (Ne.symm heq)

/-- What stands below a tree that is no higher than the stack, folded over it. -/
theorem fold_stacked {m r : ℕ} (h : Stacked node f m stack) (hr : 0 < r)
    (hle : ∀ e ∈ stack.head?, r ≤ 2 ^ e.1) :
    stack.foldl (fun acc e => node e.2 acc) (apex node f m r) = apex node f 0 (m + r) := by
  induction h generalizing r with
  | nil => rw [List.foldl_nil, Nat.zero_add]
  | @cons m l rest below higher ih =>
    have hle' : r ≤ 2 ^ l := hle _ rfl
    have hadd : node (apex node f m (2 ^ l)) (apex node f (m + 2 ^ l) r) =
        apex node f m (2 ^ l + r) := (apex_add hr hle').symm
    rw [List.foldl_cons, hadd, ih (by omega), Nat.add_assoc]
    intro e he
    have hpow := Nat.pow_le_pow_right Nat.two_pos (Nat.succ_le_of_lt (higher e he))
    rw [Nat.succ_eq_add_one, Nat.pow_succ] at hpow
    omega

/-! ## How high a stack is -/

theorem Stacked.le_of_mem_head {m l : ℕ} (h : Stacked node f m stack)
    (hle : ∀ e ∈ stack.head?, l ≤ e.1) : 2 ^ l ∣ m := by
  induction h generalizing l with
  | nil => exact Nat.dvd_zero _
  | @cons m l' rest below higher ih =>
    have hle' : l ≤ l' := hle _ rfl
    exact Nat.dvd_add (ih fun e he => hle'.trans (higher e he).le) (Nat.pow_dvd_pow 2 hle')

/-- A stack of `k` trees has at least `2 ^ k - 1` leaves. -/
theorem Stacked.two_pow_length_le {m l : ℕ} (h : Stacked node f m stack)
    (hle : ∀ e ∈ stack.head?, l ≤ e.1) : 2 ^ l * 2 ^ stack.length ≤ m + 2 ^ l := by
  induction h generalizing l with
  | nil => simp
  | @cons m l' rest below higher ih =>
    have hle' : l ≤ l' := hle _ rfl
    have hrest := ih (l := l' + 1) fun e he => higher e he
    obtain ⟨d, rfl⟩ := Nat.exists_eq_add_of_le hle'
    have hlen : 1 ≤ 2 ^ (rest.length + 1) := Nat.one_le_two_pow
    have hd : 2 ^ l ≤ 2 ^ (l + d) := Nat.pow_le_pow_right Nat.two_pos hle'
    have hmul := Nat.mul_le_mul_right (2 ^ (rest.length + 1) - 1) hd
    rw [Nat.mul_sub_one, Nat.mul_sub_one] at hmul
    have hsame : 2 ^ (l + d + 1) * 2 ^ rest.length = 2 ^ (l + d) * 2 ^ (rest.length + 1) := by ring
    have hself : 2 ^ l ≤ 2 ^ l * 2 ^ (rest.length + 1) := Nat.le_mul_of_pos_right _ hlen
    have hself' : 2 ^ (l + d) ≤ 2 ^ (l + d) * 2 ^ (rest.length + 1) :=
      Nat.le_mul_of_pos_right _ hlen
    rw [hsame, Nat.pow_succ 2 (l + d)] at hrest
    rw [List.length_cons]
    omega

/-- **One leaf short of a perfect tree, a stack has a tree of every height.** -/
theorem Stacked.length_eq {m l k : ℕ} (h : Stacked node f m stack)
    (hle : ∀ e ∈ stack.head?, l ≤ e.1) (hm : m + 2 ^ l = 2 ^ (l + k)) : stack.length = k := by
  induction h generalizing l k with
  | nil =>
    rw [Nat.zero_add] at hm
    have := Nat.pow_right_injective (le_refl 2) hm
    rw [List.length_nil]
    omega
  | @cons m l' rest below higher ih =>
    have hle' : l ≤ l' := hle _ rfl
    have hpos := Nat.two_pow_pos l'
    cases k with
    | zero =>
      rw [Nat.add_zero] at hm
      omega
    | succ k =>
      have heq : l' = l := by
        by_contra hne
        -- all above `l`, but the leaves are an odd number of trees of height `l`
        have hrest : 2 ^ (l + 1) ∣ m + 2 ^ l' :=
          Nat.dvd_add (below.le_of_mem_head fun e he => (show l + 1 ≤ l' by omega).trans
            (higher e he).le) (Nat.pow_dvd_pow 2 (by omega))
        have hall : 2 ^ (l + 1) ∣ m + 2 ^ l' + 2 ^ l := by
          rw [hm]
          exact Nat.pow_dvd_pow 2 (by omega)
        have hdvd := (Nat.dvd_add_right hrest).1 hall
        exact absurd (Nat.le_of_dvd (Nat.two_pow_pos l) hdvd)
          (not_le.2 (Nat.pow_lt_pow_right one_lt_two (Nat.lt_succ_self l)))
      subst heq
      have hlen := ih (l := l' + 1) (k := k) (fun e he => higher e he) (by
        rw [show l' + 1 + k = l' + (k + 1) by omega, ← hm, Nat.pow_succ]
        omega)
      rw [List.length_cons, hlen]

end Apex

end Lib
end Fuzznet
