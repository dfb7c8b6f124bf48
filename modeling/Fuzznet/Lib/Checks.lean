/-
# Checks

A function that may refuse is a row of checks with its answer behind them.  What it answers
with says that no check refused (`past_check`), and that each step it waits for answered
(`bind_ok_iff`).
-/

import Mathlib.Logic.Basic

namespace Fuzznet
namespace Lib

section Refusals

variable {α β ε : Type} {r : Except ε α} {f : α → Except ε β} {a : α} {b : β}

/-- An answer a check does not give comes past it. -/
theorem past_check {γ : Type*} {p : Prop} [Decidable p] {refused x y : γ}
    (h : (if p then refused else x) = y) (hne : refused ≠ y) : ¬p ∧ x = y := by
  by_cases hp : p
  · exact absurd ((if_pos hp).symm.trans h) hne
  · exact ⟨hp, (if_neg hp).symm.trans h⟩

theorem ite_ok_iff {p : Prop} [Decidable p] {err : ε} :
    (if p then .error err else r) = Except.ok a ↔ ¬p ∧ r = .ok a :=
  ⟨fun h => past_check h nofun, fun h => (if_neg h.1).trans h.2⟩

theorem bind_ok_iff : (r >>= f) = .ok b ↔ ∃ a, r = .ok a ∧ f a = .ok b := by
  cases r with
  | error err => exact ⟨fun h => (nomatch h), fun ⟨_, h, _⟩ => (nomatch h)⟩
  | ok a =>
    exact ⟨fun h => ⟨a, rfl, h⟩, fun ⟨a', ha, h⟩ => by
      rw [Except.ok.inj ha]
      exact h⟩

theorem map_ok_iff {g : α → β} : g <$> r = .ok b ↔ ∃ a, r = .ok a ∧ g a = b := by
  cases r with
  | error err => exact ⟨fun h => (nomatch h), fun ⟨_, h, _⟩ => (nomatch h)⟩
  | ok a =>
    exact ⟨fun h => ⟨a, rfl, Except.ok.inj h⟩, fun ⟨a', ha, h⟩ => by
      rw [← h, ← Except.ok.inj ha]
      rfl⟩

end Refusals

end Lib
end Fuzznet
