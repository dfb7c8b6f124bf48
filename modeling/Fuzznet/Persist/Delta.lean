/-
# The buffered delta

`persist/delta.c`.  A delta stands over a store and keeps, in memory, the rows the store
would not take: the newest of a key, or that it is removed.  Its rows are in chained buckets
by key and in the order they came.  A save or a removal goes to the store beneath until one
is refused; from then on the store is left alone until a flush finds it writable, which
writes the rows back oldest first.

Room is made by giving rows up: the lowest rank held, and the oldest of it (`shedOne_eq`),
never one of rank CONTROL or above.  What the operations do to the rows is said of the age
list, with which the buckets agree (`Tidy`).
-/

import Fuzznet.Lib.Chains
import Fuzznet.Persist.Ops
import Mathlib.Algebra.BigOperators.Group.List.Basic
import Mathlib.Algebra.GroupWithZero.Nat
import Mathlib.Data.List.MinMax

namespace Fuzznet
namespace Persist

open Wire (Bytes Bytes32)
open Lib (Filing Chains)

/-- A row of the delta; one that is `gone` says that the store's reads as absent. -/
structure DeltaRow where
  slot : PersistSlot
  subject : Option Bytes32
  gone : Bool
  bytes : Bytes
  deriving DecidableEq, Repr

/-- What a row stands under. -/
abbrev RowKey := PersistSlot × Option Bytes32

def DeltaRow.key (r : DeltaRow) : RowKey := (r.slot, r.subject)

/-- The rank of a row: its slot's. -/
def DeltaRow.rank (r : DeltaRow) : ℕ := (slotRank r.slot).val

/-- What a row says of its key. -/
def DeltaRow.says (r : DeltaRow) : Option Bytes := if r.gone then none else some r.bytes

/-- The hash of `bucket_of`, before it is reduced. -/
def deltaHash : RowKey → ℕ
  | (slot, none) => slot.number * 2654435761
  | (slot, some k) => (slot.number * 2654435761) ^^^
      (((byteAt k 0 <<< 16) ^^^ (byteAt k 1 <<< 8) ^^^ byteAt k 2) ^^^ (byteAt k 31 <<< 4))

/-- `FZN_PERSIST_DELTA_BUCKETS` and `bucket_of`. -/
def deltaFiling : Filing RowKey DeltaRow where
  key := DeltaRow.key
  size := 4096
  chainOf k := ⟨deltaHash k % 4096, Nat.mod_lt _ (by decide)⟩

/-- `FZN_PERSIST_DELTA_BUDGET_DEFAULT`. -/
def deltaBudgetDefault : ℕ := 32 * 1024 * 1024

/-- `fzn_persist_delta_t` over a store in state `base`, its rows oldest first in `age`, with
what the allocator answers from here on; it gives what it is asked for behind the last. -/
structure Delta (σ : Type) where
  base : σ
  budget : ℕ
  buckets : Chains deltaFiling
  age : List DeltaRow
  rows : ℕ
  bytes : ℕ
  dropped : ℕ
  refused : ℕ
  flushed : ℕ
  writes : ℕ
  stuck : Bool
  allocs : List Bool

/-- `fzn_persist_delta_init`. -/
def deltaInit {σ : Type} (base : σ) (budget : ℕ) (allocs : List Bool) : Delta σ :=
  ⟨base, if budget = 0 then deltaBudgetDefault else budget, Chains.empty, [], 0, 0, 0, 0, 0, 0,
    false, allocs⟩

/-- The search of `shed_one`, oldest first: the row chosen, and below which rank another
must be. -/
def shedChoice : List DeltaRow → ℕ → Option DeltaRow → Option DeltaRow
  | [], _, chosen => chosen
  | r :: rs, least, chosen =>
    if r.rank < least ∧ r.rank < Rank.control.val then shedChoice rs r.rank (some r)
    else shedChoice rs least chosen

namespace Delta

variable {σ : Type}

def take (d : Delta σ) : Bool × Delta σ :=
  (d.allocs.headD true, { d with allocs := d.allocs.tail })

def find (d : Delta σ) (k : RowKey) : Option DeltaRow := d.buckets.find k

/-- `drop_row`. -/
def dropRow (d : Delta σ) (r : DeltaRow) : Delta σ :=
  { d with buckets := d.buckets.forget r.key
           age := d.age.erase r
           rows := d.rows - 1
           bytes := d.bytes - r.bytes.length }

/-- The row held under a key, if any, dropped. -/
def dropHeld (d : Delta σ) (k : RowKey) : Delta σ :=
  match d.find k with
  | none => d
  | some r => d.dropRow r

/-- `shed_one`. -/
def shedOne (d : Delta σ) (rank : ℕ) : Option (Delta σ) :=
  (shedChoice d.age rank none).map fun r => { d.dropRow r with dropped := d.dropped + 1 }

/-- A write refused. -/
def refuse (d : Delta σ) : Delta σ := { d with refused := d.refused + 1 }

/-- The loops of `hold`: rows are shed until there is `enough`, and the write is refused
where none can be.  A shed takes a row, so no more rounds are needed than there are rows. -/
def shedUntil (enough : Delta σ → Bool × Delta σ) (rank : ℕ) : ℕ → Delta σ → Bool × Delta σ
  | 0, d =>
    match enough d with
    | (true, d) => (true, d)
    | (false, d) => (false, d.refuse)
  | n + 1, d =>
    match enough d with
    | (true, d) => (true, d)
    | (false, d) =>
      match d.shedOne rank with
      | none => (false, d.refuse)
      | some d => shedUntil enough rank n d

/-- Whether `len` bytes under `k` are within the budget, in the place of what is held. -/
def withinBudget (k : RowKey) (len : ℕ) (d : Delta σ) : Bool × Delta σ :=
  (decide (d.bytes - (d.find k).elim 0 (fun r => r.bytes.length) + len ≤ d.budget), d)

/-- The row made the newest, in the place of what is held under its key. -/
def put (d : Delta σ) (r : DeltaRow) : Delta σ :=
  let d := d.dropHeld r.key
  { d with buckets := d.buckets.push r
           age := d.age ++ [r]
           rows := d.rows + 1
           bytes := d.bytes + r.bytes.length }

/-- `hold`: a row of its key, or a refusal. -/
def hold (d : Delta σ) (r : DeltaRow) : Bool × Delta σ :=
  let d := { d with writes := d.writes + 1 }
  match (if r.rank < Rank.control.val then
      d.shedUntil (withinBudget r.key r.bytes.length) r.rank d.age.length else (true, d)) with
  | (false, d) => (false, d)
  | (true, d) =>
    match d.shedUntil take (Rank.identity.val + 1) d.age.length with
    | (false, d) => (false, d)
    | (true, d) => (true, d.put r)

/-- The subjects of a slot the delta has for a walk, oldest first. -/
def live (d : Delta σ) (slot : PersistSlot) : List Bytes32 :=
  d.age.filterMap fun r => if r.slot = slot ∧ r.gone = false then r.subject else none

end Delta

/-- The end of `delta_list`: subjects not listed yet behind those that are, within `max`. -/
def addListed (max : ℕ) : List Bytes32 → List Bytes32 → Option (List Bytes32)
  | kept, [] => some kept
  | kept, k :: ks =>
    if k ∈ kept then addListed max kept ks
    else if kept.length = max then none
    else addListed max (kept ++ [k]) ks

section Ops

variable {σ : Type} (o : PersistOps σ)

/-- `delta_load`. -/
def deltaLoad (d : Delta σ) (slot : PersistSlot) (k : Option Bytes32) (cap : ℕ) :
    Option Bytes × Delta σ :=
  match d.find (slot, k) with
  | none => ((o.load d.base slot k cap).1, { d with base := (o.load d.base slot k cap).2 })
  | some r => (if r.gone || cap < r.bytes.length then none else some r.bytes, d)

/-- `delta_save`. -/
def deltaSave (d : Delta σ) (slot : PersistSlot) (k : Option Bytes32) (bytes : Bytes) :
    Bool × Delta σ :=
  if d.stuck then d.hold ⟨slot, k, false, bytes⟩
  else
    match o.save d.base slot k bytes with
    | (true, s) => (true, { d with base := s }.dropHeld (slot, k))
    | (false, s) => { d with base := s, stuck := true }.hold ⟨slot, k, false, bytes⟩

/-- `delta_remove`. -/
def deltaRemove (d : Delta σ) (slot : PersistSlot) (k : Option Bytes32) : Bool × Delta σ :=
  match (if d.stuck then none else o.remove) with
  | none => d.hold ⟨slot, k, true, []⟩
  | some f =>
    match f d.base slot k with
    | (true, s) => (true, { d with base := s }.dropHeld (slot, k))
    | (false, s) => { d with base := s, stuck := true }.hold ⟨slot, k, true, []⟩

/-- `delta_list`. -/
def deltaList (d : Delta σ) (slot : PersistSlot) (max : ℕ) :
    Option (List Bytes32) × Delta σ :=
  match o.listing d.base slot max with
  | (none, s) => (none, { d with base := s })
  | (some ks, s) =>
    (addListed max
      (ks.filter fun k => (d.find (slot, some k)).all fun r => !r.gone) (d.live slot),
      { d with base := s })

/-- `delta_each`: the walk its `fn` is told of, the store's subjects the delta does not hold
and then its own. -/
def deltaEach (d : Delta σ) (slot : PersistSlot) : (List Bytes32 × Bool) × Delta σ :=
  match o.walk d.base slot with
  | ((ks, ended), s) =>
    ((ks.filter (fun k => (d.find (slot, some k)).isNone) ++
      if ended then d.live slot else [], ended), { d with base := s })

/-- The write of one row by a flush. -/
def flushOne (s : σ) (r : DeltaRow) : Bool × σ :=
  if r.gone then
    match o.remove with
    | none => (true, s)
    | some f => f s r.slot r.subject
  else o.save s r.slot r.subject r.bytes

/-- The loop of a flush over the rows, each dropped once written, so that the next is the
oldest; and how many went. -/
def flushRows : List DeltaRow → Delta σ → ℕ × Delta σ
  | [], d => (0, { d with stuck := false })
  | r :: rs, d =>
    match flushOne o d.base r with
    | (false, s) => (0, { d with base := s, stuck := true })
    | (true, s) =>
      let d := { { d with base := s }.dropRow r with flushed := d.flushed + 1 }
      ((flushRows rs d).1 + 1, (flushRows rs d).2)

/-- `fzn_persist_delta_flush`. -/
def deltaFlush (d : Delta σ) : ℕ × Delta σ := flushRows o d.age d

/-- `fzn_persist_delta_hold`. -/
def deltaHold (d : Delta σ) : Delta σ := { d with stuck := true }

/-- The operations of a delta. -/
def deltaOps : PersistOps (Delta σ) where
  load := deltaLoad o
  save := deltaSave o
  list := some (deltaList o)
  remove := some (deltaRemove o)
  each := some (deltaEach o)

end Ops

/-! ## What the bookkeeping does -/

/-- `shed_one` chooses of the rows held the lowest rank, and the oldest of it, if that is
below the two bounds. -/
theorem shedChoice_eq (age : List DeltaRow) (least : ℕ) (chosen : Option DeltaRow) :
    shedChoice age least chosen =
      match age.argmin DeltaRow.rank with
      | none => chosen
      | some r => if r.rank < least ∧ r.rank < Rank.control.val then some r else chosen := by
  induction age generalizing least chosen with
  | nil => rfl
  | cons r rs ih =>
    unfold shedChoice
    rw [List.argmin_cons, ih, ih]
    cases rs.argmin DeltaRow.rank with
    | none => rfl
    | some c =>
      dsimp only
      split_ifs <;> grind

/-- Rows given up one after another, each of the lowest rank held and the oldest of it, and
below CONTROL; and the rows that stay. -/
inductive GivenUp : List DeltaRow → List DeltaRow → List DeltaRow → Prop
  | none (age : List DeltaRow) : GivenUp age [] age
  | one {age gave age' : List DeltaRow} {r : DeltaRow} :
      r ∈ age.argmin DeltaRow.rank → r.rank < Rank.control.val →
        GivenUp (age.erase r) gave age' → GivenUp age (r :: gave) age'

theorem GivenUp.append {age gave age' gave' age'' : List DeltaRow} (h : GivenUp age gave age')
    (h' : GivenUp age' gave' age'') : GivenUp age (gave ++ gave') age'' := by
  induction h with
  | none => exact h'
  | one hr hrank _ ih => exact .one hr hrank (ih h')

namespace Delta

variable {σ : Type} {d d' : Delta σ} {k : RowKey} {r : DeltaRow}

/-- The counts, the buckets and the order describe the same rows, one a key. -/
structure Tidy (d : Delta σ) : Prop where
  distinct : (d.age.map DeltaRow.key).Nodup
  perm : d.age.Perm d.buckets.rows
  rows_eq : d.rows = d.age.length
  bytes_eq : d.bytes = (d.age.map fun r => r.bytes.length).sum

theorem Tidy.chains (h : d.Tidy) : d.buckets.Distinct :=
  (h.perm.map DeltaRow.key).nodup_iff.1 h.distinct

/-- What is found under a key is the row of that key in the order they came. -/
theorem Tidy.find_eq_some_iff (h : d.Tidy) : d.find k = some r ↔ r ∈ d.age ∧ r.key = k := by
  rw [h.perm.mem_iff]
  exact Chains.find_eq_some_iff h.chains

theorem Tidy.find_eq_none_iff (h : d.Tidy) : d.find k = none ↔ ∀ r ∈ d.age, r.key ≠ k := by
  refine Chains.find_eq_none_iff.trans (forall_congr' fun r => ?_)
  rw [h.perm.mem_iff]
  exact Iff.rfl

/-- Rows that came in one order are found alike. -/
theorem Tidy.find_congr (h : d.Tidy) (h' : d'.Tidy) (hage : d'.age = d.age) (k : RowKey) :
    d'.find k = d.find k := by
  refine Option.ext fun r => ?_
  rw [h'.find_eq_some_iff, h.find_eq_some_iff, hage]

theorem Tidy.dropRow (h : d.Tidy) (hr : r ∈ d.age) : (d.dropRow r).Tidy := by
  have hage := List.perm_cons_erase hr
  have hrows := Chains.rows_forget_perm (h.find_eq_some_iff.2 ⟨hr, rfl⟩)
  have hrows' := h.rows_eq
  have hbytes' := h.bytes_eq
  rw [hage.length_eq, List.length_cons] at hrows'
  rw [(hage.map fun r => r.bytes.length).sum_eq, List.map_cons, List.sum_cons] at hbytes'
  constructor
  · have hnodup := (hage.map DeltaRow.key).nodup_iff.1 h.distinct
    rw [List.map_cons] at hnodup
    exact hnodup.of_cons
  · exact (hage.symm.trans (h.perm.trans hrows)).cons_inv
  · change d.rows - 1 = _
    rw [hrows', Nat.add_sub_cancel]
    rfl
  · change d.bytes - r.bytes.length = _
    rw [hbytes', Nat.add_sub_cancel_left]
    rfl

theorem find_dropRow_self (h : d.Tidy) : (d.dropRow r).find r.key = none :=
  Chains.find_forget_self h.chains r.key

theorem find_dropRow_ne (h : d.Tidy) (hk : k ≠ r.key) : (d.dropRow r).find k = d.find k :=
  Chains.find_forget_ne h.chains hk

theorem Tidy.dropHeld (h : d.Tidy) (k : RowKey) : (d.dropHeld k).Tidy := by
  unfold Delta.dropHeld
  split
  next => exact h
  next r hf => exact h.dropRow (h.find_eq_some_iff.1 hf).1

theorem find_dropHeld_self (h : d.Tidy) (k : RowKey) : (d.dropHeld k).find k = none := by
  unfold Delta.dropHeld
  split
  next hf => exact hf
  next r hf =>
    obtain ⟨-, rfl⟩ := h.find_eq_some_iff.1 hf
    exact find_dropRow_self h

theorem find_dropHeld_ne (h : d.Tidy) {k k' : RowKey} (hk : k' ≠ k) :
    (d.dropHeld k).find k' = d.find k' := by
  unfold Delta.dropHeld
  split
  next => rfl
  next r hf =>
    obtain ⟨-, rfl⟩ := h.find_eq_some_iff.1 hf
    exact find_dropRow_ne h hk

/-- A drop touches the rows and their counts alone. -/
theorem dropHeld_frame (d : Delta σ) (k : RowKey) : (d.dropHeld k).base = d.base ∧
    (d.dropHeld k).stuck = d.stuck ∧ (d.dropHeld k).dropped = d.dropped := by
  unfold Delta.dropHeld
  split <;> exact ⟨rfl, rfl, rfl⟩

theorem dropHeld_age_subset (d : Delta σ) (k : RowKey) : (d.dropHeld k).age ⊆ d.age := by
  unfold Delta.dropHeld
  split
  · exact List.Subset.refl _
  · exact List.erase_subset

theorem Tidy.put (h : d.Tidy) (r : DeltaRow) : (d.put r).Tidy := by
  have hd := h.dropHeld r.key
  have hnone := find_dropHeld_self h r.key
  have hrows := hd.rows_eq
  have hbytes := hd.bytes_eq
  constructor
  · change (((d.dropHeld r.key).age ++ [r]).map DeltaRow.key).Nodup
    rw [List.map_append]
    refine hd.distinct.append (List.nodup_singleton _) (List.disjoint_singleton.2 fun hmem => ?_)
    obtain ⟨r', hr', hkey⟩ := List.mem_map.1 hmem
    exact hd.find_eq_none_iff.1 hnone r' hr' hkey
  · exact (List.perm_append_singleton r _).trans
      ((hd.perm.cons r).trans ((d.dropHeld r.key).buckets.rows_push_perm r).symm)
  · change (d.dropHeld r.key).rows + 1 = ((d.dropHeld r.key).age ++ [r]).length
    rw [List.length_append, List.length_singleton, hrows]
  · change (d.dropHeld r.key).bytes + r.bytes.length =
      (((d.dropHeld r.key).age ++ [r]).map fun r => r.bytes.length).sum
    rw [List.map_append, List.sum_append, List.map_singleton, List.sum_singleton, hbytes]

theorem find_put_self (h : d.Tidy) (r : DeltaRow) : (d.put r).find r.key = some r :=
  Chains.find_push_self (h.dropHeld r.key).chains (find_dropHeld_self h r.key)

theorem find_put_ne (h : d.Tidy) {r : DeltaRow} (hk : k ≠ r.key) :
    (d.put r).find k = d.find k := by
  have hpush := Chains.find_push_ne (h.dropHeld r.key).chains (find_dropHeld_self h r.key) hk
  exact hpush.trans (find_dropHeld_ne h hk)

/-! ## What is given up -/

/-- `d'` is `d` with rows given up, and nothing else that is read or written. -/
structure Shed (d d' : Delta σ) (gave : List DeltaRow) : Prop where
  tidy : d'.Tidy
  given : GivenUp d.age gave d'.age
  dropped : d'.dropped = d.dropped + gave.length
  base : d'.base = d.base
  stuck : d'.stuck = d.stuck

theorem Shed.trans {d'' : Delta σ} {gave gave' : List DeltaRow} (h : Shed d d' gave)
    (h' : Shed d' d'' gave') : Shed d d'' (gave ++ gave') where
  tidy := h'.tidy
  given := h.given.append h'.given
  dropped := by rw [h'.dropped, h.dropped, List.length_append, Nat.add_assoc]
  base := h'.base.trans h.base
  stuck := h'.stuck.trans h.stuck

/-- **One row shed is the lowest rank held, and the oldest of it.** -/
theorem shedOne_eq {rank : ℕ} (hd : d.shedOne rank = some d') :
    ∃ r ∈ d.age.argmin DeltaRow.rank, r.rank < rank ∧ r.rank < Rank.control.val ∧
      d' = { d.dropRow r with dropped := d.dropped + 1 } := by
  obtain ⟨r, hr, rfl⟩ := Option.map_eq_some_iff.1 hd
  rw [shedChoice_eq] at hr
  split at hr
  next => cases hr
  next c hc =>
    split at hr
    next hlow =>
      obtain rfl := Option.some.inj hr
      exact ⟨c, hc, hlow.1, hlow.2, rfl⟩
    next => cases hr

theorem Shed.one (h : d.Tidy) {rank : ℕ} (hd : d.shedOne rank = some d') :
    ∃ r, Shed d d' [r] := by
  obtain ⟨r, hr, -, hlow, rfl⟩ := shedOne_eq hd
  have htidy := h.dropRow (List.argmin_mem hr)
  exact ⟨r, ⟨htidy.distinct, htidy.perm, htidy.rows_eq, htidy.bytes_eq⟩,
    .one hr hlow (.none _), rfl, rfl, rfl⟩

theorem Shed.refuse (h : d.Tidy) : Shed d d.refuse [] :=
  ⟨⟨h.distinct, h.perm, h.rows_eq, h.bytes_eq⟩, .none _, rfl, rfl, rfl⟩

theorem shedUntil_spec {enough : Delta σ → Bool × Delta σ}
    (henough : ∀ d : Delta σ, d.Tidy → Shed d (enough d).2 []) (rank n : ℕ) (h : d.Tidy) :
    ∃ gave, Shed d (d.shedUntil enough rank n).2 gave := by
  induction n generalizing d with
  | zero =>
    have hasked := henough d h
    unfold shedUntil
    split
    next d₁ heq =>
      rw [heq] at hasked
      exact ⟨[], hasked⟩
    next d₁ heq =>
      rw [heq] at hasked
      exact ⟨[], hasked.trans (Shed.refuse hasked.tidy)⟩
  | succ n ih =>
    have hasked := henough d h
    unfold shedUntil
    split
    next d₁ heq =>
      rw [heq] at hasked
      exact ⟨[], hasked⟩
    next d₁ heq =>
      rw [heq] at hasked
      split
      next => exact ⟨[], hasked.trans (Shed.refuse hasked.tidy)⟩
      next d₂ hshed =>
        obtain ⟨r, hone⟩ := Shed.one hasked.tidy hshed
        obtain ⟨gave, hrest⟩ := ih hone.tidy
        exact ⟨_, (hasked.trans hone).trans hrest⟩

theorem take_shed (h : d.Tidy) : Shed d d.take.2 [] :=
  ⟨⟨h.distinct, h.perm, h.rows_eq, h.bytes_eq⟩, .none _, rfl, rfl, rfl⟩

theorem withinBudget_shed (k : RowKey) (len : ℕ) (h : d.Tidy) :
    Shed d (withinBudget k len d).2 [] :=
  ⟨h, .none _, rfl, rfl, rfl⟩

/-- **A row is held or refused, behind what was given up for it.** -/
theorem hold_spec (h : d.Tidy) (r : DeltaRow) : ∃ gave d', Shed d d' gave ∧
    ((d.hold r).1 = false ∧ (d.hold r).2 = d' ∨
      (d.hold r).1 = true ∧ (d.hold r).2 = d'.put r) := by
  have hwrite : Shed d { d with writes := d.writes + 1 } [] :=
    ⟨⟨h.distinct, h.perm, h.rows_eq, h.bytes_eq⟩, .none _, rfl, rfl, rfl⟩
  unfold hold
  dsimp only
  generalize { d with writes := d.writes + 1 } = d₀ at hwrite
  have hroom : ∀ n, ∃ gave, Shed d₀ (if r.rank < Rank.control.val then
      d₀.shedUntil (withinBudget r.key r.bytes.length) r.rank n else (true, d₀)).2 gave := by
    intro n
    split
    · exact shedUntil_spec (fun d => withinBudget_shed r.key r.bytes.length) _ _ hwrite.tidy
    · exact ⟨[], hwrite.tidy, .none _, rfl, rfl, rfl⟩
  obtain ⟨gave₁, hroom⟩ := hroom d.age.length
  split
  next d₁ heq =>
    rw [heq] at hroom
    exact ⟨_, d₁, hwrite.trans hroom, Or.inl ⟨rfl, rfl⟩⟩
  next d₁ heq =>
    rw [heq] at hroom
    obtain ⟨gave₂, htake⟩ := shedUntil_spec (fun d => take_shed)
      (Rank.identity.val + 1) d₁.age.length hroom.tidy
    split
    next d₂ heq₂ =>
      rw [heq₂] at htake
      exact ⟨_, d₂, (hwrite.trans hroom).trans htake, Or.inl ⟨rfl, rfl⟩⟩
    next d₂ heq₂ =>
      rw [heq₂] at htake
      exact ⟨_, d₂, (hwrite.trans hroom).trans htake, Or.inr ⟨rfl, rfl⟩⟩

end Delta

end Persist
end Fuzznet
