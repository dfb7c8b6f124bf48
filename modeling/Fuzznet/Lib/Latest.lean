/-
# The latest of each key

Elements with a key and a rank.  The latest of a key in a set is the element of that key
with the highest rank, the only one where no two elements of a key share a rank
(`Latest.eq`).  It depends on the set alone, so whoever keeps the latest of each key while
elements arrive (`latest_insert_gt`, `latest_insert_le`) ends the same in every order, and
whatever arrives again.
-/

import Mathlib.Data.Set.Finite.Lemmas
import Mathlib.Data.Set.Insert

namespace Fuzznet
namespace Lib

variable {α κ σ : Type*} [LinearOrder σ] (key : α → κ) (rank : α → σ)

/-- `a` is the latest of its key in `A`. -/
structure Latest (A : Set α) (a : α) : Prop where
  mem : a ∈ A
  le : ∀ b ∈ A, key b = key a → rank b ≤ rank a

/-- No two elements of one key share a rank. -/
def OneAtRank (A : Set α) : Prop := ∀ a ∈ A, ∀ b ∈ A, key a = key b → rank a = rank b → a = b

variable {key rank} {A B : Set α} {a b r : α}

/-- **A key has one latest.** -/
theorem Latest.eq (hone : OneAtRank key rank A) (ha : Latest key rank A a)
    (hb : Latest key rank A b) (h : key a = key b) : a = b :=
  hone a ha.mem b hb.mem h (le_antisymm (hb.le a ha.mem h) (ha.le b hb.mem h.symm))

omit [LinearOrder σ] in
theorem OneAtRank.mono (hone : OneAtRank key rank B) (h : A ⊆ B) : OneAtRank key rank A :=
  fun a ha b hb => hone a (h ha) b (h hb)

/-- An element of another key changes nothing. -/
theorem latest_insert_ne (h : key a ≠ key r) :
    Latest key rank (insert r A) a ↔ Latest key rank A a := by
  constructor
  · rintro ⟨hmem, hle⟩
    exact ⟨Set.mem_of_mem_insert_of_ne hmem fun har => h (congrArg key har),
      fun b hb => hle b (Set.mem_insert_of_mem r hb)⟩
  · rintro ⟨hmem, hle⟩
    refine ⟨Set.mem_insert_of_mem r hmem, ?_⟩
    rintro b (rfl | hb) hba
    · exact absurd hba.symm h
    · exact hle b hb hba

/-- What is above all of its key is the latest. -/
theorem latest_insert_self (h : ∀ b ∈ A, key b = key r → rank b ≤ rank r) :
    Latest key rank (insert r A) r := by
  refine ⟨Set.mem_insert r A, ?_⟩
  rintro b (rfl | hb) hbr
  · exact le_rfl
  · exact h b hb hbr

/-- **What outranks the latest of its key takes its place.** -/
theorem latest_insert_gt (ha : Latest key rank A a) (hkey : key a = key r)
    (h : rank a < rank r) : Latest key rank (insert r A) r :=
  latest_insert_self fun b hb hbr => (ha.le b hb (hbr.trans hkey.symm)).trans h.le

/-- **What does not leaves it.** -/
theorem latest_insert_le (ha : Latest key rank A a) (h : key a = key r → rank r ≤ rank a) :
    Latest key rank (insert r A) a := by
  refine ⟨Set.mem_insert_of_mem r ha.mem, ?_⟩
  rintro b (rfl | hb) hba
  · exact h hba.symm
  · exact ha.le b hb hba

/-- The latest of every key stay as they are. -/
theorem latest_insert_iff (hone : OneAtRank key rank (insert r A)) (hb : Latest key rank A b)
    (hkey : key b = key r) (hle : rank r ≤ rank b) :
    Latest key rank (insert r A) a ↔ Latest key rank A a := by
  have hb' : Latest key rank (insert r A) b := latest_insert_le hb fun _ => hle
  by_cases har : key a = key r
  · have hab := har.trans hkey.symm
    constructor
    · intro ha
      rwa [ha.eq hone hb' hab]
    · intro ha
      rwa [ha.eq (hone.mono (Set.subset_insert r A)) hb hab]
  · exact latest_insert_ne har

/-- In a finite set every key that is there has a latest. -/
theorem exists_latest (hfin : A.Finite) (ha : a ∈ A) :
    ∃ b, Latest key rank A b ∧ key b = key a := by
  obtain ⟨b, ⟨hb, hba⟩, hmax⟩ := Set.exists_max_image {b ∈ A | key b = key a} rank
    (hfin.subset (Set.sep_subset A _)) ⟨a, ha, rfl⟩
  exact ⟨b, ⟨hb, fun c hc hcb => hmax c ⟨hc, hcb.trans hba⟩⟩, hba⟩

end Lib
end Fuzznet
