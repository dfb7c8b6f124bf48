/-
# Processes that may stop

A process writes to what outlasts it and may stop behind any of its writes.  `Lasting` is
what its writes left, one after the other, so a stop leaves one of these (`left`).  Two
writes may belong together: the first of them opens what the second closes, and a stop
between the two leaves it open.  A process `Passes` through a property when all that it
leaves has it, save for what it leaves open: one write at a time (`write`), two that belong
together (`pair`), and one stretch behind the other (`trans`, `foldl`).
-/

import Mathlib.Data.List.Basic

namespace Fuzznet
namespace Lib

/-- What outlasts a process as it stands, and as it stood behind each write, the newest
first and the state it began on last. -/
structure Lasting (ω δ : Type) where
  disk : δ
  past : List (Option ω × δ)

namespace Lasting

variable {ω δ : Type} (apply : δ → ω → δ)

/-- A process that has written nothing. -/
def begin (d : δ) : Lasting ω δ := ⟨d, [(none, d)]⟩

/-- One write more. -/
def write (l : Lasting ω δ) (w : ω) : Lasting ω δ :=
  ⟨apply l.disk w, (some w, apply l.disk w) :: l.past⟩

/-- What a stop leaves with `n` of the writes still to come. -/
def left (l : Lasting ω δ) (n : ℕ) : Option (Option ω × δ) := l.past[n]?

/-- All that is left on the way from one state of a process to a later one is `P`, except
behind a write that opens what the next one closes. -/
structure Passes (opens : ω → Prop) (P : δ → Prop) (l l' : Lasting ω δ) : Prop where
  disk : P l'.disk
  past : ∃ new, l'.past = new ++ l.past ∧ ∀ x ∈ new, (∀ w ∈ x.1, ¬ opens w) → P x.2

variable {apply} {opens : ω → Prop} {P P' : δ → Prop} {l l' l'' : Lasting ω δ}

theorem Passes.refl (h : P l.disk) : Passes opens P l l :=
  ⟨h, [], rfl, fun _ hx => absurd hx List.not_mem_nil⟩

theorem Passes.trans (h : Passes opens P l l') (h' : Passes opens P l' l'') :
    Passes opens P l l'' := by
  obtain ⟨new, hnew, hall⟩ := h.past
  obtain ⟨new', hnew', hall'⟩ := h'.past
  refine ⟨h'.disk, new' ++ new, by rw [hnew', hnew, List.append_assoc], fun x hx => ?_⟩
  exact (List.mem_append.1 hx).elim (hall' x) (hall x)

/-- **One write.** -/
theorem Passes.write {w : ω} (h : P (apply l.disk w)) : Passes opens P l (l.write apply w) := by
  refine ⟨h, [(some w, apply l.disk w)], rfl, fun x hx _ => ?_⟩
  rw [List.mem_singleton.1 hx]
  exact h

/-- **Two writes that belong together.** -/
theorem Passes.pair {w w' : ω} (hw : opens w) (h : P (apply (apply l.disk w) w')) :
    Passes opens P l ((l.write apply w).write apply w') := by
  refine ⟨h, [(some w', apply (apply l.disk w) w'), (some w, apply l.disk w)], rfl,
    fun x hx hnot => ?_⟩
  rcases List.mem_cons.1 hx with rfl | hx
  · exact h
  · rw [List.mem_singleton.1 hx] at hnot
    exact absurd hw (hnot w rfl)

/-- **What a stop leaves**, unless it falls behind a write that opens something. -/
theorem Passes.of_left {d d' : δ} {n : ℕ} {w : Option ω} (h : Passes opens P (begin d) l)
    (hd : P d) (hleft : l.left n = some (w, d')) (hw : ∀ v ∈ w, ¬ opens v) : P d' := by
  obtain ⟨new, hnew, hall⟩ := h.past
  have hmem : (w, d') ∈ new ++ (begin d).past := hnew ▸ List.mem_of_getElem? hleft
  rcases List.mem_append.1 hmem with hmem | hmem
  · exact hall _ hmem hw
  · obtain ⟨-, rfl⟩ := Prod.mk.inj (List.mem_singleton.1 hmem)
    exact hd

end Lasting
end Lib
end Fuzznet
