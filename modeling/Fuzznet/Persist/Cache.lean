/-
# One slot's rows held in memory

`persist/cache.c`.  A cache stands over a store and holds rows of one slot of it, in
chained buckets.  The first walk of the slot reads every row in; a save or a removal goes to
the store beneath first, and the row here follows what the store took.  Where every row of
the slot is here the cache is whole, and a miss is an absence.

What the cache says is what the store would say, whatever fails (`Right`): a row here is the
store's own, and a whole cache lacks none.  A failed save or removal takes the row out, and a
row that will not be kept leaves the cache not whole.  So the cache is a store itself, of the
same rows (`cacheStore`).
-/

import Fuzznet.Lib.Chains
import Fuzznet.Persist.Ops
import Mathlib.Algebra.BigOperators.Group.List.Basic
import Mathlib.Algebra.GroupWithZero.Nat

namespace Fuzznet
namespace Persist

open Wire (Bytes Bytes32)
open Lib (Filing Chains)

/-- A row of the cache. -/
structure CacheRow where
  subject : Bytes32
  bytes : Bytes
  deriving DecidableEq, Repr

/-- `FZN_PERSIST_CACHE_BUCKETS` and `bucket_of`. -/
def cacheFiling : Filing Bytes32 CacheRow where
  key := CacheRow.subject
  size := 16384
  chainOf k := ⟨(byteAt k 0 ||| byteAt k 1 <<< 8) % 16384, Nat.mod_lt _ (by decide)⟩

/-- `FZN_PERSIST_CACHE_ROW_MAX`. -/
def cacheRowMax : ℕ := 4096

/-- `FZN_PERSIST_CACHE_BUDGET_DEFAULT`. -/
def cacheBudgetDefault : ℕ := 64 * 1024 * 1024

/-- `REST_AFTER_A_FAILED_FILL`. -/
def restAfterAFailedFill : ℕ := 1024

/-- `fzn_persist_cache_t` over a store in state `base`, with what the allocator answers from
here on; it gives what it is asked for behind the last of them. -/
structure Cache (σ : Type) where
  base : σ
  slot : PersistSlot
  buckets : Option (Chains cacheFiling)
  rows : ℕ
  bytes : ℕ
  budget : ℕ
  whole : Bool
  rest : ℕ
  walks : ℕ
  misses : ℕ
  changes : ℕ
  allocs : List Bool

/-- `fzn_persist_cache_init`. -/
def cacheInit {σ : Type} (base : σ) (slot : PersistSlot) (allocs : List Bool) : Cache σ :=
  ⟨base, slot, none, 0, 0, cacheBudgetDefault, false, 0, 0, 0, 0, allocs⟩

namespace Cache

variable {σ : Type}

/-- The rows held. -/
def table (c : Cache σ) : List CacheRow := c.buckets.elim [] Chains.rows

def take (c : Cache σ) : Bool × Cache σ :=
  (c.allocs.headD true, { c with allocs := c.allocs.tail })

def find (c : Cache σ) (k : Bytes32) : Option CacheRow := c.buckets.bind (·.find k)

def forget (c : Cache σ) (k : Bytes32) : Cache σ :=
  match c.buckets with
  | none => c
  | some b =>
    match b.find k with
    | none => c
    | some r =>
      { c with buckets := some (b.forget k)
               bytes := c.bytes - r.bytes.length
               rows := c.rows - 1 }

/-- `keep` behind its `forget`: the row put in, or the cache no longer whole. -/
def place (c : Cache σ) (b : Chains cacheFiling) (k : Bytes32) (bytes : Bytes) :
    Bool × Cache σ :=
  if cacheRowMax < bytes.length ∨ c.budget < c.bytes + bytes.length then
    (false, { c with whole := false })
  else if c.take.1 then
    (true, { c.take.2 with buckets := some (b.push ⟨k, bytes⟩)
                           rows := c.rows + 1
                           bytes := c.bytes + bytes.length })
  else (false, { c.take.2 with whole := false })

def keep (c : Cache σ) (k : Bytes32) (bytes : Bytes) : Bool × Cache σ :=
  match (c.forget k).buckets with
  | none => (false, c)
  | some b => (c.forget k).place b k bytes

/-- What a failed save or removal leaves: what the store holds now is its own to say. -/
def doubt (c : Cache σ) (slot : PersistSlot) : Option Bytes32 → Cache σ
  | none => c
  | some k => if slot = c.slot then { c.forget k with whole := false } else c

/-- What a save the store took leaves. -/
def saved (c : Cache σ) (slot : PersistSlot) (k : Option Bytes32) (bytes : Bytes) : Cache σ :=
  if slot = c.slot then
    match k with
    | none => { c with changes := c.changes + 1 }
    | some k => ({ c with changes := c.changes + 1 }.keep k bytes).2
  else c

/-- What a removal the store took leaves. -/
def removed (c : Cache σ) (slot : PersistSlot) (k : Option Bytes32) : Cache σ :=
  if slot = c.slot then
    match k with
    | none => { c with changes := c.changes + 1 }
    | some k => { c with changes := c.changes + 1 }.forget k
  else c

/-- `fzn_persist_cache_drop`. -/
def drop (c : Cache σ) : Cache σ :=
  match c.buckets with
  | none => c
  | some _ => { c with buckets := none, rows := 0, bytes := 0, whole := false, rest := 0 }

variable (o : PersistOps σ)

/-- The load asked of the store. -/
def baseLoad (c : Cache σ) (slot : PersistSlot) (k : Option Bytes32) (cap : ℕ) :
    Option Bytes × Cache σ :=
  ((o.load c.base slot k cap).1, { c with base := (o.load c.base slot k cap).2 })

/-- The listing asked of the store. -/
def baseList (c : Cache σ) (slot : PersistSlot) (max : ℕ) : Option (List Bytes32) × Cache σ :=
  ((o.listing c.base slot max).1, { c with base := (o.listing c.base slot max).2 })

/-- The walk asked of the store. -/
def baseWalk (c : Cache σ) (slot : PersistSlot) : (List Bytes32 × Bool) × Cache σ :=
  ((o.walk c.base slot).1, { c with base := (o.walk c.base slot).2 })

/-- `filled`: a row of the store's read in; whether it is here. -/
def filled (c : Cache σ) (k : Bytes32) : Bool × Cache σ :=
  match c.baseLoad o c.slot (some k) cacheRowMax with
  | (none, c) => (false, c)
  | (some bytes, c) => c.keep k bytes

/-- `filled` at every subject of a walk; whether all of them are here. -/
def filledAll : List Bytes32 → Cache σ → Bool × Cache σ
  | [], c => (true, c)
  | k :: ks, c =>
    ((c.filled o k).1 && (filledAll ks (c.filled o k).2).1, (filledAll ks (c.filled o k).2).2)

/-- `fill` behind the making of its buckets: a walk of the store, and each row read in. -/
def fillFrom (c : Cache σ) : Bool × Cache σ :=
  match c.baseWalk o c.slot with
  | ((ks, ended), c) =>
    if (c.filledAll o ks).1 && ended then
      (true, { (c.filledAll o ks).2 with whole := true })
    else
      (false, { (c.filledAll o ks).2 with whole := false, rest := restAfterAFailedFill })

def fill (c : Cache σ) : Bool × Cache σ :=
  match c.buckets with
  | some _ => c.fillFrom o
  | none =>
    if c.take.1 then { c.take.2 with buckets := some Chains.empty }.fillFrom o
    else (false, c.take.2)

def heldWhole (c : Cache σ) : Bool × Cache σ :=
  if c.whole then (true, c)
  else if c.rest ≠ 0 then (false, { c with rest := c.rest - 1 })
  else c.fill o

end Cache

section Ops

variable {σ : Type} (o : PersistOps σ)

/-- `cache_load`. -/
def cacheLoad (c : Cache σ) (slot : PersistSlot) (k : Option Bytes32) (cap : ℕ) :
    Option Bytes × Cache σ :=
  match k with
  | none => c.baseLoad o slot none cap
  | some k =>
    if slot ≠ c.slot then c.baseLoad o slot (some k) cap
    else
      match c.find k with
      | some r => (if cap < r.bytes.length then none else some r.bytes, c)
      | none =>
        if c.whole then (none, c)
        else { c with misses := c.misses + 1 }.baseLoad o slot (some k) cap

/-- `cache_save`. -/
def cacheSave (c : Cache σ) (slot : PersistSlot) (k : Option Bytes32) (bytes : Bytes) :
    Bool × Cache σ :=
  match o.save c.base slot k bytes with
  | (false, s) => (false, { c with base := s }.doubt slot k)
  | (true, s) => (true, { c with base := s }.saved slot k bytes)

/-- `cache_remove`. -/
def cacheRemove (c : Cache σ) (slot : PersistSlot) (k : Option Bytes32) : Bool × Cache σ :=
  match o.remove with
  | none => (false, c.doubt slot k)
  | some f =>
    match f c.base slot k with
    | (false, s) => (false, { c with base := s }.doubt slot k)
    | (true, s) => (true, { c with base := s }.removed slot k)

/-- `cache_list`. -/
def cacheList (c : Cache σ) (slot : PersistSlot) (max : ℕ) :
    Option (List Bytes32) × Cache σ :=
  if slot ≠ c.slot then c.baseList o slot max
  else
    match c.heldWhole o with
    | (false, c) => c.baseList o slot max
    | (true, c) => (if max < c.rows then none else some (c.table.map CacheRow.subject), c)

/-- `cache_each`: the walk its `fn` is told of. -/
def cacheEach (c : Cache σ) (slot : PersistSlot) : (List Bytes32 × Bool) × Cache σ :=
  if slot ≠ c.slot then c.baseWalk o slot
  else
    match c.heldWhole o with
    | (false, c) => c.baseWalk o slot
    | (true, c) => ((c.table.map CacheRow.subject, true), { c with walks := c.walks + 1 })

/-- The operations of a cache. -/
def cacheOps : PersistOps (Cache σ) where
  load := cacheLoad o
  save := cacheSave o
  list := some (cacheList o)
  remove := some (cacheRemove o)
  each := some (cacheEach o)

end Ops

/-! ## What the bookkeeping does -/

namespace Cache

variable {σ : Type} {c c' : Cache σ}

/-- The same store in the same state, the same slot and budget. -/
structure Frame (c c' : Cache σ) : Prop where
  base : c'.base = c.base
  slot : c'.slot = c.slot
  budget : c'.budget = c.budget

/-- One row a subject, and the totals of what is held, within the budget. -/
structure Counted (c : Cache σ) : Prop where
  distinct : (c.table.map CacheRow.subject).Nodup
  rows_eq : c.rows = c.table.length
  bytes_eq : c.bytes = (c.table.map fun r => r.bytes.length).sum
  fits : c.bytes ≤ c.budget

theorem Frame.refl (c : Cache σ) : Frame c c := ⟨rfl, rfl, rfl⟩

theorem Frame.trans {c'' : Cache σ} (h : Frame c c') (h' : Frame c' c'') : Frame c c'' :=
  ⟨h'.base.trans h.base, h'.slot.trans h.slot, h'.budget.trans h.budget⟩

variable {b : Chains cacheFiling} {r : CacheRow}

theorem table_of_some (hb : c.buckets = some b) : c.table = b.rows := by
  rw [table, hb, Option.elim_some]

theorem Counted.chains (h : c.Counted) (hb : c.buckets = some b) : b.Distinct := by
  have hd := h.distinct
  rwa [table_of_some hb] at hd

theorem mem_of_find {k : Bytes32} (h : c.find k = some r) : r ∈ c.table ∧ r.subject = k := by
  obtain ⟨b, hb, hf⟩ := Option.bind_eq_some_iff.1 h
  rw [table_of_some hb]
  exact Chains.mem_of_find hf

theorem not_mem_of_find {k : Bytes32} (h : c.find k = none) (hr : r ∈ c.table) : r.subject ≠ k := by
  cases hb : c.buckets with
  | none => rw [table, hb] at hr; exact absurd hr List.not_mem_nil
  | some b =>
    rw [table_of_some hb] at hr
    rw [find, hb] at h
    exact Chains.find_eq_none_iff.1 h r hr

theorem forget_frame (c : Cache σ) (k : Bytes32) : Frame c (c.forget k) := by
  unfold forget
  split
  · exact Frame.refl c
  · split
    · exact Frame.refl c
    · exact ⟨rfl, rfl, rfl⟩

@[simp] theorem forget_whole (c : Cache σ) (k : Bytes32) : (c.forget k).whole = c.whole := by
  unfold forget
  split
  · rfl
  · split <;> rfl

theorem forget_of_none (hb : c.buckets = none) (k : Bytes32) : c.forget k = c := by
  unfold forget
  rw [hb]

theorem forget_buckets (hb : c.buckets = some b) (k : Bytes32) :
    (c.forget k).buckets = some (b.forget k) := by
  unfold forget
  rw [hb]
  cases hf : b.find k with
  | none => simp only [hf, hb, Chains.forget_of_none hf]
  | some r => simp only [hf]

@[simp] theorem forget_isSome (c : Cache σ) (k : Bytes32) :
    (c.forget k).buckets.isSome = c.buckets.isSome := by
  cases hb : c.buckets with
  | none => rw [forget_of_none hb, hb]
  | some b => rw [forget_buckets hb, Option.isSome_some, Option.isSome_some]

/-- A row taken out is every row of its subject. -/
theorem mem_forget (h : c.Counted) {k : Bytes32} :
    r ∈ (c.forget k).table ↔ r ∈ c.table ∧ r.subject ≠ k := by
  cases hb : c.buckets with
  | none =>
    have hno : r ∉ c.table := by rw [table, hb]; exact List.not_mem_nil
    rw [forget_of_none hb]
    exact ⟨fun hr => absurd hr hno, fun hr => absurd hr.1 hno⟩
  | some b =>
    rw [table_of_some (forget_buckets hb k), table_of_some hb]
    exact Chains.mem_forget (h.chains hb)

theorem Counted.forget (h : c.Counted) (k : Bytes32) : (c.forget k).Counted := by
  cases hb : c.buckets with
  | none => rwa [forget_of_none hb]
  | some b =>
    have htable := table_of_some (forget_buckets hb k)
    have hd := (h.chains hb).forget k
    have hrows := h.rows_eq
    have hbytes := h.bytes_eq
    rw [table_of_some hb] at hrows hbytes
    cases hf : b.find k with
    | none =>
      have hsame : c.forget k = c := by
        unfold Cache.forget
        simp only [hb, hf]
      rwa [hsame]
    | some r =>
      have hperm := Chains.rows_forget_perm hf
      have hlen := hperm.length_eq
      have hsum := (hperm.map fun r => r.bytes.length).sum_eq
      rw [List.length_cons] at hlen
      rw [List.map_cons, List.sum_cons] at hsum
      have heq : c.forget k = { c with
          buckets := some (b.forget k)
          bytes := c.bytes - r.bytes.length
          rows := c.rows - 1 } := by
        unfold Cache.forget
        simp only [hb, hf]
      constructor
      · rwa [htable]
      · rw [htable, heq]
        change c.rows - 1 = _
        omega
      · rw [htable, heq]
        change c.bytes - r.bytes.length = _
        omega
      · rw [heq]
        exact (Nat.sub_le _ _).trans h.fits

theorem place_frame (c : Cache σ) (b : Chains cacheFiling) (k : Bytes32) (bytes : Bytes) :
    Frame c (c.place b k bytes).2 := by
  unfold place
  split
  · exact ⟨rfl, rfl, rfl⟩
  · split <;> exact ⟨rfl, rfl, rfl⟩

/-- A row is put in, or nothing is and the cache is not whole. -/
theorem place_cases (hb : c.buckets = some b) (k : Bytes32) (bytes : Bytes) :
    ((c.place b k bytes).1 = true ∧ (c.place b k bytes).2.whole = c.whole ∧
      (c.place b k bytes).2.buckets = some (b.push ⟨k, bytes⟩) ∧
      (c.place b k bytes).2.rows = c.rows + 1 ∧
      (c.place b k bytes).2.bytes = c.bytes + bytes.length ∧
      c.bytes + bytes.length ≤ c.budget) ∨
    ((c.place b k bytes).1 = false ∧ (c.place b k bytes).2.whole = false ∧
      (c.place b k bytes).2.buckets = some b ∧ (c.place b k bytes).2.rows = c.rows ∧
      (c.place b k bytes).2.bytes = c.bytes) := by
  unfold place
  split
  next => exact Or.inr ⟨rfl, rfl, hb, rfl, rfl⟩
  next hfits =>
    split
    · exact Or.inl ⟨rfl, rfl, rfl, rfl, rfl, by omega⟩
    · exact Or.inr ⟨rfl, rfl, hb, rfl, rfl⟩

theorem Counted.place (h : c.Counted) (hb : c.buckets = some b) {k : Bytes32} (hk : b.find k = none)
    (bytes : Bytes) : (c.place b k bytes).2.Counted := by
  have hbudget := (c.place_frame b k bytes).budget
  have hrows := h.rows_eq
  have hbytes := h.bytes_eq
  have hfits := h.fits
  rw [table_of_some hb] at hrows hbytes
  rcases place_cases hb k bytes with ⟨-, -, hb', hr, hn, hle⟩ | ⟨-, -, hb', hr, hn⟩
  · have hperm := b.rows_push_perm ⟨k, bytes⟩
    have hlen := hperm.length_eq
    have hsum := (hperm.map fun r => r.bytes.length).sum_eq
    rw [List.length_cons] at hlen
    rw [List.map_cons, List.sum_cons] at hsum
    constructor
    · rw [table_of_some hb']
      exact (h.chains hb).push hk
    · rw [table_of_some hb', hr, hlen, hrows]
    · rw [table_of_some hb', hn, hsum, hbytes, Nat.add_comm]
    · rw [hn, hbudget]
      exact hle
  · constructor
    · rw [table_of_some hb']
      exact h.chains hb
    · rw [table_of_some hb', hr, hrows]
    · rw [table_of_some hb', hn, hbytes]
    · rw [hn, hbudget]
      exact hfits

theorem keep_of_none (hb : c.buckets = none) (k : Bytes32) (bytes : Bytes) :
    c.keep k bytes = (false, c) := by
  unfold keep
  simp only [forget_of_none hb, hb]

theorem keep_of_some (hb : c.buckets = some b) (k : Bytes32) (bytes : Bytes) :
    c.keep k bytes = (c.forget k).place (b.forget k) k bytes := by
  unfold keep
  simp only [forget_buckets hb]

theorem keep_frame (c : Cache σ) (k : Bytes32) (bytes : Bytes) : Frame c (c.keep k bytes).2 := by
  cases hb : c.buckets with
  | none =>
    rw [keep_of_none hb]
    exact Frame.refl c
  | some b =>
    rw [keep_of_some hb]
    exact (c.forget_frame k).trans ((c.forget k).place_frame _ k bytes)

theorem Counted.keep (h : c.Counted) (k : Bytes32) (bytes : Bytes) :
    (c.keep k bytes).2.Counted := by
  cases hb : c.buckets with
  | none => rwa [keep_of_none hb]
  | some b =>
    rw [keep_of_some hb]
    exact (h.forget k).place (forget_buckets hb k)
      (Chains.find_forget_self (h.chains hb) k) bytes

/-- **What a row kept leaves**: the row is its subject's, or its subject has none and the
cache is not whole.  The rows of other subjects stay. -/
theorem keep_cases (h : c.Counted) (hb : c.buckets.isSome = true) (k : Bytes32)
    (bytes : Bytes) :
    (c.keep k bytes).2.buckets.isSome = true ∧
    (((c.keep k bytes).1 = true ∧ (c.keep k bytes).2.whole = c.whole ∧
      ∀ r, r ∈ (c.keep k bytes).2.table ↔ r = ⟨k, bytes⟩ ∨ r ∈ c.table ∧ r.subject ≠ k) ∨
    ((c.keep k bytes).1 = false ∧ (c.keep k bytes).2.whole = false ∧
      ∀ r, r ∈ (c.keep k bytes).2.table ↔ r ∈ c.table ∧ r.subject ≠ k)) := by
  obtain ⟨b, hb⟩ := Option.isSome_iff_exists.1 hb
  have hforget : ∀ r, r ∈ (b.forget k).rows ↔ r ∈ c.table ∧ r.subject ≠ k := by
    intro r
    rw [← table_of_some (forget_buckets hb k)]
    exact mem_forget h
  rw [keep_of_some hb]
  rcases place_cases (forget_buckets hb k) k bytes with ⟨ht, hw, hb', -⟩ | ⟨hf, hw, hb', -⟩
  · refine ⟨by rw [hb', Option.isSome_some], Or.inl ⟨ht, by rw [hw, forget_whole], fun r => ?_⟩⟩
    rw [table_of_some hb', ((b.forget k).rows_push_perm ⟨k, bytes⟩).mem_iff, List.mem_cons,
      hforget]
  · refine ⟨by rw [hb', Option.isSome_some], Or.inr ⟨hf, hw, fun r => ?_⟩⟩
    rw [table_of_some hb', hforget]

end Cache

end Persist
end Fuzznet
