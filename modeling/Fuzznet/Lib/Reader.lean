/-
# Readers

A reader takes what it reads from the front of a list and leaves the rest: a computation of
`StateT (List β) Option`.  What it `Reads` a value from, it reads it from with anything
behind; readers in a row read what stands in a row (`Reads.bind`), and a reader repeated
reads the values one behind the other (`Reads.times`).
-/

import Mathlib.Data.List.Basic

namespace Fuzznet
namespace Lib

variable {α β γ : Type}

/-- A reader of lists of `β`. -/
abbrev Reader (β α : Type) := StateT (List β) Option α

/-- A reader reads `v` from `bs`, whatever is behind. -/
def Reads (r : Reader β α) (bs : List β) (v : α) : Prop :=
  ∀ rest, r.run (bs ++ rest) = some (v, rest)

/-- The next `n`. -/
def Reader.take (n : ℕ) : Reader β (List β) := fun bs =>
  if bs.length < n then none else some (bs.take n, bs.drop n)

/-- A reader `n` times over. -/
def Reader.times (r : Reader β α) : ℕ → Reader β (List α)
  | 0 => pure []
  | n + 1 => do
    let v ← r
    let vs ← Reader.times r n
    pure (v :: vs)

/-- What a reader reads a whole list as. -/
def Reader.all (r : Reader β α) (bs : List β) : Option α :=
  (r.run bs).bind fun x => if x.2.isEmpty then some x.1 else none

theorem Reads.pure (v : α) : Reads (pure v : Reader β α) [] v := fun _ => rfl

variable {r : Reader β α}

theorem Reads.bind {f : α → Reader β γ} {bs bs' : List β} {v : α} {w : γ} (h : Reads r bs v)
    (h' : Reads (f v) bs' w) : Reads (r >>= f) (bs ++ bs') w := by
  intro rest
  rw [List.append_assoc, StateT.run_bind, h]
  exact h' rest

/-- The last reader of a row, and what its value is part of. -/
theorem Reads.last {bs : List β} {v : α} {f : α → γ} (h : Reads r bs v) :
    Reads (r >>= fun x => Pure.pure (f x)) bs (f v) := by
  have hbind := h.bind (f := fun x => Pure.pure (f x)) (Reads.pure (f v))
  rwa [List.append_nil] at hbind

theorem Reads.take {bs : List β} {n : ℕ} (h : bs.length = n) : Reads (Reader.take n) bs bs := by
  intro rest
  show (if (bs ++ rest).length < n then none else
    some ((bs ++ rest).take n, (bs ++ rest).drop n)) = some (bs, rest)
  rw [if_neg (by rw [List.length_append]; omega), List.take_left' h, List.drop_left' h]

theorem Reads.map {bs : List β} {v : α} (f : α → γ) (h : Reads r bs v) :
    Reads (f <$> r) bs (f v) := by
  intro rest
  rw [StateT.run_map, h]
  rfl

/-- What is asked of the values read so far takes nothing. -/
theorem Reads.check {p : Prop} [Decidable p] (hp : p) :
    Reads (guard p : Reader β Unit) [] () := by
  have heq : (guard p : Reader β Unit) = Pure.pure () := if_pos hp
  rw [heq]
  exact Reads.pure ()

theorem Reads.lift {x : Option α} {v : α} (h : x = some v) :
    Reads (StateT.lift x : Reader β α) [] v := by
  intro rest
  rw [h]
  rfl

/-- **Values written one behind the other are read again.** -/
theorem Reads.times {encode : α → List β} {vs : List α} (h : ∀ v ∈ vs, Reads r (encode v) v) :
    Reads (r.times vs.length) (vs.flatMap encode) vs := by
  induction vs with
  | nil => exact Reads.pure []
  | cons v vs ih =>
    rw [List.flatMap_cons]
    refine (h v (List.mem_cons_self ..)).bind ?_
    exact (ih fun w hw => h w (List.mem_cons_of_mem v hw)).last

theorem Reads.all {bs : List β} {v : α} (h : Reads r bs v) : r.all bs = some v := by
  have hrun := h []
  rw [List.append_nil] at hrun
  unfold Reader.all
  rw [hrun]
  rfl

end Lib
end Fuzznet
