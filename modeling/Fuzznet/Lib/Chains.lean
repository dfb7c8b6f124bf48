/-
# Rows in chained buckets

A hash table with a fixed number of chains: a row stands in the chain of its key, a row is
found by walking that chain, and a new row is put in front of it.  Nothing moves a row from
one chain to another, so a row is in its own chain in every table that can be built.

The rows of a table are read chain after chain.  What the operations do to them is said up
to their order (`rows_forget_perm`, `rows_push_perm`), and everything counted over the rows
follows from that.
-/

import Fuzznet.Lib.Table
import Mathlib.Data.Fintype.List
import Mathlib.Data.List.FinRange

namespace Fuzznet
namespace Lib

/-- Where rows stand: the key of a row and the chain of a key. -/
structure Filing (κ ρ : Type*) where
  key : ρ → κ
  size : ℕ
  chainOf : κ → Fin size

/-- The chains, each with rows of its own keys only. -/
structure Chains {κ ρ : Type*} (F : Filing κ ρ) where
  chain : Fin F.size → List ρ
  filed : ∀ i, ∀ r ∈ chain i, F.chainOf (F.key r) = i

/-- A row found in a list, and the list without it. -/
theorem perm_cons_eraseP {ρ : Type*} {p : ρ → Bool} {r : ρ} {rows : List ρ}
    (h : rows.find? p = some r) : rows.Perm (r :: rows.eraseP p) := by
  induction rows with
  | nil => cases h
  | cons a rows ih =>
    by_cases ha : p a = true
    · rw [List.find?_cons_of_pos ha] at h
      rw [List.eraseP_cons_of_pos ha, Option.some.inj h]
    · rw [List.find?_cons_of_neg ha] at h
      rw [List.eraseP_cons_of_neg ha]
      exact ((ih h).cons a).trans (List.Perm.swap r a _)

namespace Chains

variable {κ ρ : Type*} {F : Filing κ ρ}

/-- No row. -/
def empty : Chains F := ⟨fun _ => [], fun _ _ h => absurd h List.not_mem_nil⟩

/-- Every row, chain after chain. -/
def rows (b : Chains F) : List ρ := (List.finRange F.size).flatMap b.chain

/-- One chain replaced by rows of its keys. -/
def withChain (b : Chains F) (i : Fin F.size) (rs : List ρ)
    (h : ∀ r ∈ rs, F.chainOf (F.key r) = i) : Chains F where
  chain := Function.update b.chain i rs
  filed j r hr := by
    rcases eq_or_ne j i with rfl | hne
    · exact h r (by rwa [Function.update_self] at hr)
    · exact b.filed j r (by rwa [Function.update_of_ne hne] at hr)

@[simp] theorem chain_withChain_self (b : Chains F) (i : Fin F.size) (rs : List ρ)
    (h : ∀ r ∈ rs, F.chainOf (F.key r) = i) : (b.withChain i rs h).chain i = rs := by
  simp only [withChain, Function.update_self]

theorem chain_withChain_of_ne (b : Chains F) {i j : Fin F.size} (hne : j ≠ i) (rs : List ρ)
    (h : ∀ r ∈ rs, F.chainOf (F.key r) = i) : (b.withChain i rs h).chain j = b.chain j := by
  simp only [withChain, Function.update_of_ne hne]

/-- A row put in front of its chain. -/
def push (b : Chains F) (r : ρ) : Chains F :=
  b.withChain (F.chainOf (F.key r)) (r :: b.chain (F.chainOf (F.key r))) <| by
    intro r' hr'
    rcases List.mem_cons.1 hr' with rfl | hmem
    · rfl
    · exact b.filed _ r' hmem

variable [DecidableEq κ]

/-- The row of a key, in the key's chain. -/
def find (b : Chains F) (k : κ) : Option ρ := row F.key k (b.chain (F.chainOf k))

/-- The row of a key taken out. -/
def forget (b : Chains F) (k : κ) : Chains F :=
  b.withChain (F.chainOf k) ((b.chain (F.chainOf k)).eraseP fun r => F.key r = k)
    fun r hr => b.filed _ r (List.mem_of_mem_eraseP hr)

/-- One row a key. -/
def Distinct (b : Chains F) : Prop := (b.rows.map F.key).Nodup

/-! ## The rows of a table -/

variable {b : Chains F}

omit [DecidableEq κ] in
theorem mem_rows {r : ρ} : r ∈ b.rows ↔ r ∈ b.chain (F.chainOf (F.key r)) := by
  rw [rows, List.mem_flatMap]
  constructor
  · rintro ⟨i, -, hr⟩
    rwa [b.filed i r hr]
  · exact fun hr => ⟨_, List.mem_finRange _, hr⟩

omit [DecidableEq κ] in
@[simp] theorem rows_empty : (empty : Chains F).rows = [] := by
  rw [rows, List.flatMap_eq_nil_iff]
  exact fun _ _ => rfl

omit [DecidableEq κ] in
theorem rows_perm (b : Chains F) (i : Fin F.size) :
    b.rows.Perm (b.chain i ++ ((List.finRange F.size).erase i).flatMap b.chain) := by
  have hperm := (List.perm_cons_erase (List.mem_finRange i)).flatMap_right b.chain
  rwa [List.flatMap_cons] at hperm

omit [DecidableEq κ] in
/-- The rows with one chain replaced. -/
theorem rows_withChain_perm (b : Chains F) (i : Fin F.size) (rs : List ρ)
    (h : ∀ r ∈ rs, F.chainOf (F.key r) = i) :
    (b.withChain i rs h).rows.Perm
      (rs ++ ((List.finRange F.size).erase i).flatMap b.chain) := by
  have hperm := (b.withChain i rs h).rows_perm i
  have hrest : ((List.finRange F.size).erase i).flatMap (b.withChain i rs h).chain =
      ((List.finRange F.size).erase i).flatMap b.chain := by
    refine List.flatMap_congr fun j hj => ?_
    exact b.chain_withChain_of_ne ((List.nodup_finRange F.size).mem_erase_iff.1 hj).1 rs h
  rwa [chain_withChain_self, hrest] at hperm

omit [DecidableEq κ] in
/-- **A row put in front of its chain is one row more.** -/
theorem rows_push_perm (b : Chains F) (r : ρ) : (b.push r).rows.Perm (r :: b.rows) :=
  (b.rows_withChain_perm _ _ _).trans ((b.rows_perm (F.chainOf (F.key r))).symm.cons r)

/-- **A row found is the row taken out.** -/
theorem rows_forget_perm {k : κ} {r : ρ} (h : b.find k = some r) :
    b.rows.Perm (r :: (b.forget k).rows) := by
  have hchain := perm_cons_eraseP h
  have hrest := (b.rows_withChain_perm (F.chainOf k)
    ((b.chain (F.chainOf k)).eraseP fun r => F.key r = k)
    fun r hr => b.filed _ r (List.mem_of_mem_eraseP hr)).symm
  exact ((b.rows_perm _).trans (hchain.append_right _)).trans (hrest.cons r)

theorem find_eq_none_iff {k : κ} : b.find k = none ↔ ∀ r ∈ b.rows, F.key r ≠ k := by
  rw [find, row_eq_none_iff]
  constructor
  · rintro h r hr rfl
    exact h r (mem_rows.1 hr) rfl
  · rintro h r hr hkey
    exact h r (mem_rows.2 (by rwa [hkey])) hkey

theorem mem_of_find {k : κ} {r : ρ} (h : b.find k = some r) : r ∈ b.rows ∧ F.key r = k := by
  have hkey := row_key h
  exact ⟨mem_rows.2 (by rw [hkey]; exact row_mem h), hkey⟩

/-- What has no row to take out is left as it is. -/
theorem forget_of_none {k : κ} (h : b.find k = none) : b.forget k = b := by
  have hchain : ((b.chain (F.chainOf k)).eraseP fun r => F.key r = k) = b.chain (F.chainOf k) :=
    List.eraseP_of_forall_not fun r hr => by simpa using row_eq_none_iff.1 h r hr
  unfold forget withChain
  simp only [hchain, Function.update_eq_self]

/-! ## One row a key -/

section

variable {b : Chains F} (hd : b.Distinct)
include hd

theorem find_eq_some_iff {k : κ} {r : ρ} : b.find k = some r ↔ r ∈ b.rows ∧ F.key r = k := by
  refine ⟨mem_of_find, fun ⟨hr, hk⟩ => ?_⟩
  cases hf : b.find k with
  | none => exact absurd hk (find_eq_none_iff.1 hf r hr)
  | some r' =>
    obtain ⟨hr', hk'⟩ := mem_of_find hf
    rw [List.inj_on_of_nodup_map hd hr' hr (hk'.trans hk.symm)]

theorem Distinct.forget (k : κ) : (b.forget k).Distinct := by
  cases hf : b.find k with
  | none => rwa [forget_of_none hf]
  | some r =>
    have hnodup := ((rows_forget_perm hf).map F.key).nodup_iff.1 hd
    rw [List.map_cons] at hnodup
    exact hnodup.of_cons

theorem Distinct.push {r : ρ} (h : b.find (F.key r) = none) : (b.push r).Distinct := by
  refine ((b.rows_push_perm r).map F.key).nodup_iff.2 (List.nodup_cons.2 ⟨?_, hd⟩)
  rintro hmem
  obtain ⟨r', hr', hkey⟩ := List.mem_map.1 hmem
  exact find_eq_none_iff.1 h r' hr' hkey

/-- **What is taken out is every row of its key and no other.** -/
theorem mem_forget {k : κ} {r : ρ} : r ∈ (b.forget k).rows ↔ r ∈ b.rows ∧ F.key r ≠ k := by
  cases hf : b.find k with
  | none =>
    rw [forget_of_none hf]
    exact ⟨fun hr => ⟨hr, find_eq_none_iff.1 hf r hr⟩, And.left⟩
  | some a =>
    have hperm := rows_forget_perm hf
    have hkey := (mem_of_find hf).2
    have hnodup := (hperm.map F.key).nodup_iff.1 hd
    rw [List.map_cons, List.nodup_cons, hkey] at hnodup
    rw [hperm.mem_iff, List.mem_cons]
    constructor
    · intro hr
      refine ⟨Or.inr hr, fun hk => hnodup.1 ?_⟩
      rw [← hk]
      exact List.mem_map_of_mem (by rwa [hk])
    · rintro ⟨rfl | hr, hk⟩
      · exact absurd hkey hk
      · exact hr

theorem find_forget_self (k : κ) : (b.forget k).find k = none :=
  find_eq_none_iff.2 fun _ hr => ((mem_forget hd).1 hr).2

theorem find_forget_ne {k k' : κ} (h : k' ≠ k) : (b.forget k).find k' = b.find k' := by
  refine Option.ext fun r => ?_
  rw [find_eq_some_iff (hd.forget k), find_eq_some_iff hd, mem_forget hd]
  constructor
  · exact fun ⟨⟨hr, _⟩, hk⟩ => ⟨hr, hk⟩
  · exact fun ⟨hr, hk⟩ => ⟨⟨hr, by rwa [hk]⟩, hk⟩

theorem find_push_self {r : ρ} (h : b.find (F.key r) = none) : (b.push r).find (F.key r) = some r :=
  (find_eq_some_iff (hd.push h)).2
    ⟨(b.rows_push_perm r).mem_iff.2 List.mem_cons_self, rfl⟩

theorem find_push_ne {r : ρ} (h : b.find (F.key r) = none) {k : κ} (hk : k ≠ F.key r) :
    (b.push r).find k = b.find k := by
  refine Option.ext fun r' => ?_
  rw [find_eq_some_iff (hd.push h), find_eq_some_iff hd, (b.rows_push_perm r).mem_iff,
    List.mem_cons]
  constructor
  · rintro ⟨rfl | hr, hkey⟩
    · exact absurd hkey.symm hk
    · exact ⟨hr, hkey⟩
  · exact fun ⟨hr, hkey⟩ => ⟨Or.inr hr, hkey⟩

end

end Chains

end Lib
end Fuzznet
