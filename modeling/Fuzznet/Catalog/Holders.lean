/-
# Who holds an entity

`catalog/catalog.c`: `fzn_catalog_holders`.  A host holds an entity when a live assertion of
the holder capability that names it is the host's.  The holders are collected in a list with
room for `outCap` of them, in the order their first such assertion came; those that do not fit
are counted, each once, at its first assertion.

The list and the count are the distinct holders, cut (`holders_eq`), so their sum is how many
hold the entity, whatever fitted.  An assertion's other fields, its name, value, class, scope
and merge, decide nothing here.
-/

import Fuzznet.Lib.Firsts
import Fuzznet.Wire.Codec

namespace Fuzznet
namespace Catalog

open Wire

/-- `FZN_CATALOG_ENTITY_LEN`. -/
def entityLen : ℕ := 32

/-- `fzn_catalog_capability_t`. -/
inductive Capability
  | none
  | holder
  | granted
  deriving DecidableEq, Repr

/-- `fzn_catalog_assertion_t`, as far as the holders are concerned. -/
structure Assertion where
  issuer : Bytes
  entity : Bytes
  capability : Capability
  live : Bool
  deriving DecidableEq, Repr

/-- `fzn_catalog_issuer_t`. -/
structure Issuer where
  issuer : Bytes
  assertions : ℕ
  deriving DecidableEq, Repr

/-- The assertion says its issuer holds the entity. -/
def Assertion.holds (a : Assertion) (entity : Bytes) : Bool :=
  a.live && a.capability == .holder && a.entity == entity

/-- One more assertion of an issuer listed. -/
def countAssertion (issuer : Bytes) : List Issuer → List Issuer
  | [] => []
  | h :: hs =>
    if h.issuer = issuer then { h with assertions := h.assertions + 1 } :: hs
    else h :: countAssertion issuer hs

/-- The loop of `fzn_catalog_holders` over what comes behind `before`: the holders listed and
how many found no room. -/
def holdersFrom (entity : Bytes) (outCap : ℕ) :
    List Assertion → List Assertion → List Issuer → ℕ → List Issuer × ℕ
  | _, [], out, dropped => (out, dropped)
  | before, a :: set, out, dropped =>
    if a.holds entity = false then holdersFrom entity outCap (before ++ [a]) set out dropped
    else if out.any fun h => h.issuer = a.issuer then
      holdersFrom entity outCap (before ++ [a]) set (countAssertion a.issuer out) dropped
    else if out.length < outCap then
      holdersFrom entity outCap (before ++ [a]) set (out ++ [⟨a.issuer, 1⟩]) dropped
    else if before.any fun b => b.holds entity && b.issuer = a.issuer then
      holdersFrom entity outCap (before ++ [a]) set out dropped
    else holdersFrom entity outCap (before ++ [a]) set out (dropped + 1)

/-- `fzn_catalog_holders`. -/
def holders (set : List Assertion) (entity : Bytes) (outCap : ℕ) : List Issuer × ℕ :=
  holdersFrom entity outCap [] set [] 0

/-! ## The distinct holders -/

/-- The holders of an entity, each where its first assertion came. -/
def holdersOf (set : List Assertion) (entity : Bytes) : List Bytes :=
  Lib.firsts ((set.filter fun a => a.holds entity).map Assertion.issuer)

variable {set set' : List Assertion} {entity host : Bytes}

/-- A holder is one that says so. -/
theorem mem_holdersOf : host ∈ holdersOf set entity ↔
    ∃ a ∈ set, a.live = true ∧ a.capability = .holder ∧ a.entity = entity ∧ a.issuer = host := by
  simp [holdersOf, Assertion.holds, and_assoc]

theorem nodup_holdersOf (set : List Assertion) (entity : Bytes) : (holdersOf set entity).Nodup :=
  Lib.nodup_firsts _

/-- The order of the assertions decides the order of the holders alone. -/
theorem holdersOf_perm (h : set.Perm set') : (holdersOf set entity).Perm (holdersOf set' entity) :=
  Lib.firsts_perm fun _ => ((h.filter _).map _).mem_iff

theorem holdersOf_skip {a : Assertion} (h : a.holds entity = false) :
    holdersOf (set ++ [a]) entity = holdersOf set entity := by
  rw [holdersOf, List.filter_append, List.filter_cons_of_neg (by simp [h]), List.filter_nil,
    List.append_nil, holdersOf]

theorem holdersOf_snoc (set : List Assertion) {a : Assertion} (h : a.holds entity = true) :
    holdersOf (set ++ [a]) entity =
      if a.issuer ∈ holdersOf set entity then holdersOf set entity
      else holdersOf set entity ++ [a.issuer] := by
  rw [holdersOf, List.filter_append, List.filter_cons_of_pos (by exact h), List.filter_nil, List.map_append,
    List.map_singleton, Lib.firsts_append_singleton]
  by_cases hin : a.issuer ∈ holdersOf set entity
  · rw [if_pos hin]
    exact if_pos hin
  · rw [if_neg hin]
    exact if_neg hin

theorem map_countAssertion (issuer : Bytes) (out : List Issuer) :
    (countAssertion issuer out).map Issuer.issuer = out.map Issuer.issuer := by
  induction out with
  | nil => rfl
  | cons h hs ih =>
    rw [countAssertion]
    split_ifs
    · rfl
    · rw [List.map_cons, ih, List.map_cons]

/-- The list and the count behind some assertions: the distinct holders, cut to the room. -/
structure Scanned (before : List Assertion) (entity : Bytes) (outCap : ℕ) (out : List Issuer)
    (dropped : ℕ) : Prop where
  listed : out.map Issuer.issuer = (holdersOf before entity).take outCap
  dropped : dropped = (holdersOf before entity).length - outCap

/-- **The scan keeps its reading** over every assertion. -/
theorem Scanned.run {before : List Assertion} {outCap : ℕ} {out : List Issuer} {dropped : ℕ}
    (h : Scanned before entity outCap out dropped) (set : List Assertion) :
    Scanned (before ++ set) entity outCap (holdersFrom entity outCap before set out dropped).1
      (holdersFrom entity outCap before set out dropped).2 := by
  induction set generalizing before out dropped with
  | nil => rwa [List.append_nil]
  | cons a set ih =>
    have hlen : out.length = min outCap (holdersOf before entity).length := by
      rw [← List.length_take, ← h.listed, List.length_map]
    have hany : (out.any fun h => decide (h.issuer = a.issuer)) = true ↔
        a.issuer ∈ (holdersOf before entity).take outCap := by
      rw [← h.listed, List.any_eq_true, List.mem_map]
      simp
    have hback : (before.any fun b => b.holds entity && decide (b.issuer = a.issuer)) = true ↔
        a.issuer ∈ holdersOf before entity := by
      rw [List.any_eq_true, holdersOf, Lib.mem_firsts, List.mem_map]
      simp [and_assoc]
    rw [List.append_cons, holdersFrom]
    by_cases hholds : a.holds entity = false
    · rw [if_pos hholds]
      exact ih ⟨by rw [holdersOf_skip hholds]; exact h.listed,
        by rw [holdersOf_skip hholds]; exact h.dropped⟩
    have hsnoc := holdersOf_snoc before (Bool.eq_true_of_not_eq_false hholds)
    rw [if_neg hholds]
    by_cases hlisted : (out.any fun h => decide (h.issuer = a.issuer)) = true
    · rw [if_pos hlisted]
      rw [if_pos (List.mem_of_mem_take (hany.1 hlisted))] at hsnoc
      exact ih ⟨by rw [hsnoc, map_countAssertion]; exact h.listed,
        by rw [hsnoc]; exact h.dropped⟩
    rw [if_neg hlisted]
    by_cases hroom : out.length < outCap
    · -- room is left, so all the holders so far are listed and this one is new
      have hall : (holdersOf before entity).length ≤ outCap := by omega
      have hnew : a.issuer ∉ holdersOf before entity := by
        rwa [hany, List.take_of_length_le hall] at hlisted
      rw [if_pos hroom]
      rw [if_neg hnew] at hsnoc
      refine ih ⟨?_, ?_⟩
      · rw [hsnoc, List.map_append, h.listed, List.take_of_length_le hall,
          List.take_of_length_le (by rw [List.length_append, List.length_singleton]; omega)]
        rfl
      · rw [hsnoc, h.dropped, List.length_append, List.length_singleton]
        omega
    rw [if_neg hroom]
    by_cases hmet : (before.any fun b => b.holds entity && decide (b.issuer = a.issuer)) = true
    · rw [if_pos hmet]
      rw [if_pos (hback.1 hmet)] at hsnoc
      exact ih ⟨by rw [hsnoc]; exact h.listed, by rw [hsnoc]; exact h.dropped⟩
    · rw [if_neg hmet]
      rw [if_neg fun hin => hmet (hback.2 hin)] at hsnoc
      refine ih ⟨?_, ?_⟩
      · rw [hsnoc, List.take_append_of_le_length (by omega)]
        exact h.listed
      · rw [hsnoc, h.dropped, List.length_append, List.length_singleton]
        omega

/-- **The holders listed and dropped** are the distinct holders, cut to the room. -/
theorem holders_eq (set : List Assertion) (entity : Bytes) (outCap : ℕ) :
    (holders set entity outCap).1.map Issuer.issuer = (holdersOf set entity).take outCap ∧
      (holders set entity outCap).2 = (holdersOf set entity).length - outCap := by
  have hnone : Scanned [] entity outCap [] 0 := ⟨by simp [holdersOf], by simp [holdersOf]⟩
  obtain ⟨hlisted, hdropped⟩ := hnone.run set
  exact ⟨hlisted, hdropped⟩

end Catalog
end Fuzznet
