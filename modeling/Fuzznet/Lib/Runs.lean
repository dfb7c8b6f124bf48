/-
# Runs of a step function

A run is a fold of a step over a list of events.  What a step may do often depends
on the state it is taken in, so a hypothesis on a run speaks of its prefixes: the
event `e` is taken behind `pre` wherever `pre ++ [e]` is a prefix of the run.
`prefix_induction` carries a property along the prefixes, and `foldl_induction`
along the states of a fold.

A loop that may not end is run with fuel: it `Returns` a result when that is its answer
for any fuel that is enough.
-/

import Mathlib.Data.List.Induction

namespace Fuzznet
namespace Lib

variable {σ ε : Type*}

/-- **Induction along the prefixes of a run.** -/
theorem prefix_induction {P : List ε → Prop} {events : List ε} (hnil : P [])
    (hstep : ∀ pre e, pre ++ [e] <+: events → P pre → P (pre ++ [e])) : P events := by
  suffices hpre : ∀ pre, pre <+: events → P pre from hpre events List.prefix_rfl
  intro pre
  induction pre using List.reverseRecOn with
  | nil => exact fun _ => hnil
  | append_singleton pre e ih =>
    intro hle
    exact hstep pre e hle (ih ((List.prefix_append pre [e]).trans hle))

/-- **What every step of a run keeps, the run keeps.** -/
theorem foldl_induction {step : σ → ε → σ} {P : σ → Prop} {s : σ} {events : List ε}
    (hstep : ∀ pre e, pre ++ [e] <+: events → P (pre.foldl step s) →
      P (step (pre.foldl step s) e))
    (hs : P s) : P (events.foldl step s) := by
  refine prefix_induction (P := fun pre => P (pre.foldl step s)) hs fun pre e hle h => ?_
  rw [List.foldl_append]
  exact hstep pre e hle h

section

variable {R : σ → σ → Prop} {step : σ → ε → σ} (hrefl : ∀ s, R s s)
  (htrans : ∀ s t u, R s t → R t u → R s u) (hstep : ∀ s e, R s (step s e))
include hrefl htrans hstep

/-- A run is a way, where every step is one. -/
theorem foldl_rel (events : List ε) (s : σ) : R s (events.foldl step s) :=
  foldl_induction (fun _ _ _ h => htrans _ _ _ h (hstep _ _)) (hrefl s)

/-- The step of a run at one of its events, with the ways to it and from it. -/
theorem foldl_at {events : List ε} {e : ε} (he : e ∈ events) (s : σ) :
    ∃ s', R s s' ∧ R (step s' e) (events.foldl step s) := by
  obtain ⟨pre, post, rfl⟩ := List.append_of_mem he
  refine ⟨pre.foldl step s, foldl_rel hrefl htrans hstep pre s, ?_⟩
  rw [List.foldl_append, List.foldl_cons]
  exact foldl_rel hrefl htrans hstep post _

end

/-- What a run's prefixes are asked, one position at a time. -/
theorem forall_prefix {Q : List ε → ε → Prop} {events : List ε}
    (h : ∀ n (hn : n < events.length), Q (events.take n) events[n]) :
    ∀ pre e, pre ++ [e] <+: events → Q pre e := by
  rintro pre e ⟨post, rfl⟩
  simpa using h pre.length (by simp)

/-- A loop run with fuel comes to `r`. -/
def Returns {α : Type*} (run : ℕ → Option α) (r : α) : Prop :=
  ∃ enough, ∀ fuel ≥ enough, run fuel = some r

theorem Returns.unique {α : Type*} {run : ℕ → Option α} {r r' : α} (h : Returns run r)
    (h' : Returns run r') : r = r' := by
  obtain ⟨n, hn⟩ := h
  obtain ⟨n', hn'⟩ := h'
  have heq := hn (max n n') (Nat.le_max_left n n')
  rw [hn' (max n n') (Nat.le_max_right n n')] at heq
  exact (Option.some.inj heq).symm

/-- A turn more, and the loop is where it was. -/
theorem Returns.succ {α : Type*} {run run' : ℕ → Option α} {r : α} (h : Returns run r)
    (hstep : ∀ fuel, run' (fuel + 1) = run fuel) : Returns run' r := by
  obtain ⟨n, hn⟩ := h
  refine ⟨n + 1, fun fuel hle => ?_⟩
  obtain ⟨fuel, rfl⟩ := Nat.exists_eq_add_of_le' (Nat.lt_of_lt_of_le (Nat.succ_pos n) hle)
  rw [hstep]
  exact hn fuel (Nat.le_of_succ_le_succ hle)

theorem Returns.map {α β : Type*} {run : ℕ → Option α} {r : α} (f : α → β) (h : Returns run r) :
    Returns (fun fuel => (run fuel).map f) (f r) := by
  obtain ⟨n, hn⟩ := h
  refine ⟨n, fun fuel hle => ?_⟩
  show (run fuel).map f = some (f r)
  rw [hn fuel hle, Option.map_some]

/-- A loop behind another, on what that came to. -/
theorem Returns.bind {α β : Type*} {run : ℕ → Option α} {run' : α → ℕ → Option β} {a : α} {b : β}
    (h : Returns run a) (h' : Returns (run' a) b) :
    Returns (fun fuel => (run fuel).bind fun x => run' x fuel) b := by
  obtain ⟨n, hn⟩ := h
  obtain ⟨n', hn'⟩ := h'
  refine ⟨max n n', fun fuel hle => ?_⟩
  show (run fuel).bind _ = some b
  rw [hn fuel (Nat.le_trans (Nat.le_max_left n n') hle), Option.bind_some]
  exact hn' fuel (Nat.le_trans (Nat.le_max_right n n') hle)

end Lib
end Fuzznet
