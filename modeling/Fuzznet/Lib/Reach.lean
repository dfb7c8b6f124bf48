/-
# The least set from a start under links

What a start and a relation reach is the least set that holds the start and is closed under
the relation.  A set found by some walk is that set as soon as the walk only ever adds what
is reached, and what it ended with holds the start and is closed (`reach_iff`).

A walk that lists what it finds goes along its own list and puts each element's links behind
it, each once and while there is room (`listed`).  Its invariant is `Walking`, which a turn keeps
(`Walking.next`); where it ends, what it lists is distinct and reached, and, where it did not
fill its room, all that is reached (`Walking.done`).
-/

import Mathlib.Data.List.Nodup
import Mathlib.Logic.Equiv.Defs

namespace Fuzznet
namespace Lib

/-- What `start` reaches along `link`. -/
inductive Reach {α : Type*} (start : α → Prop) (link : α → α → Prop) : α → Prop
  | start {a : α} (h : start a) : Reach start link a
  | link {a b : α} (h : Reach start link a) (hab : link a b) : Reach start link b

section Reach

variable {α β : Type*} {start : α → Prop} {link : α → α → Prop}

/-- What is reached is in every set with the start that is closed. -/
theorem Reach.mem {S : α → Prop} (hstart : ∀ a, start a → S a)
    (hclosed : ∀ a b, S a → link a b → S b) {a : α} (h : Reach start link a) : S a := by
  induction h with
  | start h => exact hstart _ h
  | link _ hab ih => exact hclosed _ _ ih hab

/-- Where a map keeps start and links, it keeps what is reached. -/
theorem Reach.map {start' : β → Prop} {link' : β → β → Prop} (f : α → β)
    (hstart : ∀ a, start a → start' (f a)) (hlink : ∀ a b, link a b → link' (f a) (f b)) {a : α}
    (h : Reach start link a) : Reach start' link' (f a) := by
  induction h with
  | start h => exact .start (hstart _ h)
  | link _ hab ih => exact .link ih (hlink _ _ hab)

/-- **What is reached does not hang on the names**: start and links renamed, it is renamed. -/
theorem reach_equiv {start' : β → Prop} {link' : β → β → Prop} (e : α ≃ β)
    (hstart : ∀ a, start a ↔ start' (e a)) (hlink : ∀ a b, link a b ↔ link' (e a) (e b)) {a : α} :
    Reach start link a ↔ Reach start' link' (e a) := by
  refine ⟨Reach.map e (fun a => (hstart a).1) fun a b => (hlink a b).1, fun h => ?_⟩
  have hback : Reach start link (e.symm (e a)) := Reach.map e.symm
    (fun b hb => (hstart _).2 (by rwa [e.apply_symm_apply]))
    (fun a b hab => (hlink _ _).2 (by rwa [e.apply_symm_apply, e.apply_symm_apply])) h
  rwa [e.symm_apply_apply] at hback

end Reach

/-! ## A walk out from a list -/

section Walk

variable {α : Type*} [DecidableEq α] (room : ℕ)

/-- Elements listed behind a list, each once, while there is room. -/
@[grind =] def listed (out : List α) : List α → List α
  | [] => out
  | a :: rest => if room ≤ out.length ∨ a ∈ out then listed out rest else listed (out ++ [a]) rest

variable {links : α → List α} {room} {out as : List α} {a : α}

theorem prefix_listed (out as : List α) : out <+: listed room out as := by
  induction as generalizing out with
  | nil => exact List.prefix_rfl
  | cons a rest ih =>
    rw [listed]
    split_ifs
    · exact ih out
    · exact (List.prefix_append out [a]).trans (ih _)

/-- A full list stays. -/
theorem listed_full (h : room ≤ out.length) (as : List α) : listed room out as = out := by
  induction as with
  | nil => rfl
  | cons a rest ih => rw [listed, if_pos (Or.inl h), ih]

theorem nodup_listed (h : out.Nodup) : (listed room out as).Nodup := by
  induction as generalizing out with
  | nil => exact h
  | cons a rest ih =>
    rw [listed]
    split_ifs with hin
    · exact ih h
    · exact ih (h.append (List.nodup_singleton a) (List.disjoint_singleton.2 (not_or.1 hin).2))

theorem length_listed_le (h : out.length ≤ room) : (listed room out as).length ≤ room := by
  induction as generalizing out with
  | nil => exact h
  | cons a rest ih =>
    rw [listed]
    split_ifs with hin
    · exact ih h
    · refine ih ?_
      rw [List.length_append, List.length_singleton]
      exact Nat.lt_of_not_le fun hle => hin (Or.inl hle)

theorem of_mem_listed (h : a ∈ listed room out as) : a ∈ out ∨ a ∈ as := by
  induction as generalizing out with
  | nil => exact Or.inl h
  | cons b rest ih =>
    rw [listed] at h
    split_ifs at h
    · exact (ih h).imp_right (List.mem_cons_of_mem b)
    · rcases ih h with hout | hrest
      · rcases List.mem_append.1 hout with hout | hb
        · exact Or.inl hout
        · exact Or.inr (List.mem_singleton.1 hb ▸ List.mem_cons_self)
      · exact Or.inr (List.mem_cons_of_mem b hrest)

/-- What is not listed found no room. -/
theorem mem_listed (hroom : (listed room out as).length < room) (h : a ∈ as) :
    a ∈ listed room out as := by
  induction as generalizing out with
  | nil => exact absurd h List.not_mem_nil
  | cons b rest ih =>
    have hpre : out <+: listed room out (b :: rest) := prefix_listed out (b :: rest)
    rw [listed] at hroom hpre ⊢
    split_ifs at hroom hpre ⊢ with hin
    · rcases List.mem_cons.1 h with rfl | h
      · rcases hin with hle | hin
        · exact absurd (Nat.le_trans hle hpre.length_le) (Nat.not_le.2 hroom)
        · exact hpre.subset hin
      · exact ih hroom h
    · rcases List.mem_cons.1 h with rfl | h
      · exact (prefix_listed _ rest).subset (List.mem_append_right out List.mem_cons_self)
      · exact ih hroom h

/-- What a walk has at its position `i`: all of it distinct and reached, and, unless its room
is filled, the start in it and the links of what stands in front of `i`. -/
structure Walking (links : α → List α) (room : ℕ) (start : α → Prop) (i : ℕ) (out : List α) :
    Prop where
  nodup : out.Nodup
  fits : out.length ≤ room
  reached : ∀ a ∈ out, Reach start (fun a b => b ∈ links a) a
  begun : out.length < room → ∀ a, start a → a ∈ out
  closed : out.length < room → ∀ j < i, ∀ a, out[j]? = some a → ∀ b ∈ links a, b ∈ out

variable {start : α → Prop}

/-- **A turn of a walk.** -/
theorem Walking.next {i : ℕ} (h : Walking links room start i out) (hi : out[i]? = some a) :
    Walking links room start (i + 1) (listed room out (links a)) := by
  have hpre : out <+: listed room out (links a) := prefix_listed out (links a)
  have hle := hpre.length_le
  have hlt := (List.getElem?_eq_some_iff.1 hi).1
  refine ⟨nodup_listed h.nodup, length_listed_le h.fits, fun b hb => ?_,
    fun hroom b hb => hpre.subset (h.begun (by omega) b hb), fun hroom j hj b hb c hc => ?_⟩
  · rcases of_mem_listed hb with hb | hb
    · exact h.reached b hb
    · exact .link (h.reached a (List.mem_of_getElem? hi)) hb
  · have hb : out[j]? = some b := by
      obtain ⟨rest, hrest⟩ := hpre
      rwa [← hrest, List.getElem?_append_left (by omega)] at hb
    rcases Nat.lt_succ_iff_lt_or_eq.1 hj with hj | rfl
    · exact hpre.subset (h.closed (by omega) j hj b hb c hc)
    · obtain rfl := Option.some.inj (hi.symm.trans hb)
      exact mem_listed hroom hc

omit [DecidableEq α] in
/-- **What a walk lists is distinct and reached, and all that is reached where it did not fill
its room.** -/
theorem Walking.done {i : ℕ} (h : Walking links room start i out) (hend : out.length ≤ i) :
    out.Nodup ∧ out.length ≤ room ∧ (∀ a ∈ out, Reach start (fun a b => b ∈ links a) a) ∧
      (out.length < room → ∀ a, Reach start (fun a b => b ∈ links a) a → a ∈ out) := by
  refine ⟨h.nodup, h.fits, h.reached, fun hroom a => Reach.mem (h.begun hroom) ?_⟩
  intro a b ha hb
  obtain ⟨j, hj⟩ := List.getElem?_of_mem ha
  have hlt := (List.getElem?_eq_some_iff.1 hj).1
  exact h.closed hroom j (by omega) a hj b hb

end Walk

end Lib
end Fuzznet
