/-
# Following a relation step by step, so far at the most

From an element `next` answers where it leads on: to one other (`some (some b)`), nowhere
(`some none`), or several ways at once (`none`).  `follow` goes on until nowhere is left to
go.  It answers exactly the end of a path of fewer steps than its bound
(`follow_eq_some_iff`), and nothing on a way that parts, runs in a circle or is too long:
a path is determined by where it starts (`Path.end_unique`), so no other one saves it.
-/

import Mathlib.Data.Nat.Notation
import Mathlib.Order.Basic

namespace Fuzznet
namespace Lib

variable {α : Type*} (next : α → Option (Option α))

/-- At most `fuel` looks from `a` on. -/
def follow : ℕ → α → Option α
  | 0, _ => none
  | fuel + 1, a =>
    match next a with
    | none => none
    | some none => some a
    | some (some b) => follow fuel b

/-- `n` steps lead from `a` to `b`. -/
inductive Path : ℕ → α → α → Prop
  | refl (a : α) : Path 0 a a
  | step {n : ℕ} {a b c : α} (h : next a = some (some b)) (rest : Path n b c) : Path (n + 1) a c

variable {next} {a b c : α} {n m fuel : ℕ}

theorem Path.trans (h : Path next n a b) (h' : Path next m b c) : Path next (n + m) a c := by
  induction h with
  | refl => rwa [Nat.zero_add]
  | step hab _ ih =>
    rw [Nat.succ_add]
    exact .step hab (ih h')

/-- One number of steps leads to one place. -/
theorem Path.unique (h : Path next n a b) (h' : Path next n a c) : b = c := by
  induction h with
  | refl => cases h'; rfl
  | step hab _ ih =>
    cases h' with
    | step hab' rest =>
      obtain rfl := Option.some.inj (Option.some.inj (hab.symm.trans hab'))
      exact ih rest

/-- A longer path goes on from the end of a shorter one. -/
theorem Path.split (h : Path next (n + m) a c) : ∃ b, Path next n a b ∧ Path next m b c := by
  induction n generalizing a with
  | zero => exact ⟨a, .refl a, by rwa [Nat.zero_add] at h⟩
  | succ n ih =>
    rw [Nat.succ_add] at h
    cases h with
    | step hab rest =>
      obtain ⟨b, hfirst, hrest⟩ := ih rest
      exact ⟨b, .step hab hfirst, hrest⟩

/-- No path leaves a place that does not lead to one other. -/
theorem Path.not_step (hb : ∀ d, next b ≠ some (some d)) (h : Path next (n + 1) b c) : False := by
  cases h with
  | step hab _ => exact hb _ hab

/-- A path, as the places on it. -/
theorem path_iff_places : Path next n a b ↔
    ∃ p : ℕ → α, p 0 = a ∧ p n = b ∧ ∀ i < n, next (p i) = some (some (p (i + 1))) := by
  constructor
  · intro h
    induction h with
    | refl a => exact ⟨fun _ => a, rfl, rfl, fun i hi => by omega⟩
    | @step n a b c hab _ ih =>
      obtain ⟨p, hstart, hend, hsteps⟩ := ih
      refine ⟨fun i => i.casesOn a p, rfl, hend, fun i hi => ?_⟩
      cases i with
      | zero =>
        rw [← hstart] at hab
        exact hab
      | succ i => exact hsteps i (by omega)
  · rintro ⟨p, rfl, rfl, hsteps⟩
    induction n generalizing p with
    | zero => exact .refl _
    | succ n ih =>
      exact .step (hsteps 0 (by omega))
        (ih (fun i => p (i + 1)) fun i hi => hsteps (i + 1) (by omega))

/-- **What a walk answers**: the end of a path shorter than its bound. -/
theorem follow_eq_some_iff :
    follow next fuel a = some b ↔ ∃ n < fuel, Path next n a b ∧ next b = some none := by
  induction fuel generalizing a with
  | zero => simp [follow]
  | succ fuel ih =>
    rw [follow]
    constructor
    · intro h
      split at h
      next => cases h
      next hnone =>
        obtain rfl := Option.some.inj h
        exact ⟨0, by omega, .refl a, hnone⟩
      next c hc =>
        obtain ⟨n, hn, hpath, hend⟩ := ih.1 h
        exact ⟨n + 1, by omega, .step hc hpath, hend⟩
    · rintro ⟨n, hn, hpath, hend⟩
      cases hpath with
      | refl => rw [hend]
      | step hc rest =>
        rw [hc]
        exact ih.2 ⟨_, by omega, rest, hend⟩

/-- The end of a path is where every walk past it stops. -/
theorem Path.end_unique (h : Path next n a b) (hb : ∀ d, next b ≠ some (some d))
    (h' : Path next m a c) : m ≤ n := by
  by_contra hlt
  obtain ⟨k, rfl⟩ : ∃ k, m = n + (k + 1) := ⟨m - n - 1, by omega⟩
  obtain ⟨d, hfirst, hrest⟩ := h'.split
  obtain rfl := h.unique hfirst
  exact hrest.not_step hb

/-- **A way that parts** answers nothing. -/
theorem follow_of_parts (h : Path next n a b) (hb : next b = none) : follow next fuel a = none := by
  refine Option.eq_none_iff_forall_not_mem.2 fun c hc => ?_
  obtain ⟨m, -, hpath, hend⟩ := follow_eq_some_iff.1 hc
  have hle := h.end_unique (by simp [hb]) hpath
  have hle' := hpath.end_unique (by simp [hend]) h
  obtain rfl : m = n := by omega
  obtain rfl := h.unique hpath
  rw [hb] at hend
  cases hend

/-- **A way longer than the bound** answers nothing. -/
theorem follow_of_long (h : Path next n a b) (hn : fuel ≤ n) : follow next fuel a = none := by
  refine Option.eq_none_iff_forall_not_mem.2 fun c hc => ?_
  obtain ⟨m, hm, hpath, hend⟩ := follow_eq_some_iff.1 hc
  have hle := hpath.end_unique (by simp [hend]) h
  omega

/-- **A way that comes back** to where it was answers nothing, however far it is followed. -/
theorem follow_of_circle (h : Path next n a b) (hcircle : Path next (m + 1) b b) :
    follow next fuel a = none := by
  have hround : ∀ k, ∃ j, k ≤ j ∧ Path next j b b := by
    intro k
    induction k with
    | zero => exact ⟨0, Nat.le_refl 0, .refl b⟩
    | succ k ih =>
      obtain ⟨j, hj, hpath⟩ := ih
      exact ⟨j + (m + 1), by omega, hpath.trans hcircle⟩
  obtain ⟨j, hj, hpath⟩ := hround fuel
  exact follow_of_long (h.trans hpath) (by omega)

end Lib
end Fuzznet
