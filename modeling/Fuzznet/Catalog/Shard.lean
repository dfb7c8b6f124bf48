/-
# Shards and their index

`catalog/shard.c` and the body of `catalog/index.c`: a sorted list of keys is cut into shards of
`min_entries` keys, the last taking the remainder, and the index has the first key of each shard
and the root of the blob that holds it.  `fzn_catalog_shard_of` looks a key up in the plan,
`fzn_catalog_index_lookup` in the bytes of the index.

The plan takes keys in order that repeat, the index only first keys that ascend.  So the index
routes every key to its shard just when no cut falls between two equal keys
(`routes_iff_cutsApart`).
-/

import Fuzznet.Wire.Codec
import Mathlib.Data.List.Chain
import Mathlib.Data.List.GetD
import Mathlib.Data.List.TakeWhile

namespace Fuzznet
namespace Catalog

open Wire

/-- `fzn_catalog_err_t`, the errors of this much of it. -/
inductive ShardErr
  | malformed
  | range
  | absent
  deriving DecidableEq, Repr

/-- `fzn_catalog_shard_t`. -/
structure Shard where
  first : Key
  entries : ℕ
  deriving DecidableEq, Repr

/-- `FZN_CATALOG_SHARD_KEY_LEN`. -/
def shardKeyLen : ℕ := 32

/-- `FZN_CATALOG_INDEX_ENTRY_LEN`: a key and a root. -/
def indexEntryLen : ℕ := shardKeyLen + 32

/-! ## The plan -/

/-- No key is above the one behind it. -/
def inOrder : List Key → Bool
  | a :: b :: ks => !decide (b < a) && inOrder (b :: ks)
  | _ => true

/-- The last loop of `fzn_catalog_shard_plan`: the shards still to come, from a position on. -/
@[grind =] def shardsFrom (keys : List Key) (minEntries : ℕ) : ℕ → ℕ → List Shard
  | 0, _ => []
  | n + 1, pos =>
    let entries := if n = 0 then keys.length - pos else minEntries
    ⟨keys.getD pos 0, entries⟩ :: shardsFrom keys minEntries n (pos + entries)

/-- How many shards there are: a register smaller than one is one. -/
def shardCount (keys : List Key) (minEntries : ℕ) : ℕ :=
  if keys.length / minEntries = 0 then 1 else keys.length / minEntries

/-- `fzn_catalog_shard_plan`. -/
def shardPlan (keys : List Key) (minEntries outCap : ℕ) : Except ShardErr (List Shard) :=
  if minEntries = 0 then .error .malformed
  else if inOrder keys = false then .error .malformed
  else if keys.length = 0 then .ok []
  else if outCap < shardCount keys minEntries then .error .range
  else .ok (shardsFrom keys minEntries (shardCount keys minEntries) 0)

/-- The loop of `fzn_catalog_shard_of`: the shard a position is at, and the one found. -/
def shardOfFrom (key : Key) : List Shard → ℕ → ℕ → ℕ
  | [], _, found => found
  | s :: plan, i, found => shardOfFrom key plan (i + 1) (if s.first ≤ key then i else found)

/-- `fzn_catalog_shard_of`. -/
def shardOf (plan : List Shard) (key : Key) : Except ShardErr ℕ :=
  if plan.length = 0 then .error .absent else .ok (shardOfFrom key plan 0 0)

/-! ## The index -/

/-- `fzn_catalog_index_body_len`, `size_t` going up to `sizeMax`. -/
def indexBodyLen (sizeMax shards : ℕ) : Except ShardErr ℕ :=
  if shards = 0 then .error .malformed
  else if sizeMax / indexEntryLen < shards then .error .range
  else .ok (shards * indexEntryLen)

/-- The first keys ascend. -/
def firstsAscend : List Shard → Bool
  | a :: b :: plan => decide (a.first < b.first) && firstsAscend (b :: plan)
  | _ => true

/-- An entry of the index. -/
@[grind =] def indexEntry (s : Shard) (root : Bytes32) : Bytes :=
  putBe shardKeyLen s.first.toNat ++ putBe 32 root.toNat

/-- `fzn_catalog_index_body_encode`. -/
def indexBodyEncode (sizeMax : ℕ) (plan : List Shard) (roots : List Bytes32) (cap : ℕ) :
    Except ShardErr Bytes := do
  let need ← indexBodyLen sizeMax plan.length
  if cap < need then .error .range
  else if firstsAscend plan = false then .error .malformed
  else .ok (List.zipWith indexEntry plan roots).flatten

/-- The search of `fzn_catalog_index_lookup`. -/
@[grind =] def lookupIn (body : Bytes) (key : Key) (lo hi : ℕ) : ℕ :=
  if lo < hi then
    if key.toNat < getBe body ((lo + (hi - lo) / 2) * indexEntryLen) shardKeyLen then
      lookupIn body key lo (lo + (hi - lo) / 2)
    else lookupIn body key (lo + (hi - lo) / 2 + 1) hi
  else lo
termination_by hi - lo

/-- `fzn_catalog_index_lookup`. -/
def indexLookup (body : Bytes) (key : Key) : Except ShardErr ℕ :=
  if body.length = 0 then .error .absent
  else if body.length % indexEntryLen ≠ 0 then .error .range
  else
    let lo := lookupIn body key 0 (body.length / indexEntryLen)
    .ok (if lo = 0 then 0 else lo - 1)

/-! ## What a plan holds -/

variable {keys : List Key} {minEntries : ℕ} {plan : List Shard}

/-- The keys of the shards before one. -/
def keysBefore (plan : List Shard) (j : ℕ) : ℕ := ((plan.take j).map Shard.entries).sum

@[simp] theorem length_shardsFrom (n pos : ℕ) :
    (shardsFrom keys minEntries n pos).length = n := by
  induction n generalizing pos with
  | zero => rfl
  | succ n ih => rw [shardsFrom, List.length_cons, ih]

/-- **A shard of a plan**: where it starts, and how many keys it has. -/
theorem getElem?_shardsFrom {n pos j : ℕ} (hj : j < n) :
    (shardsFrom keys minEntries n pos)[j]? =
      some ⟨keys.getD (pos + j * minEntries) 0,
        if j + 1 = n then keys.length - (pos + j * minEntries) else minEntries⟩ := by
  induction n generalizing pos j with
  | zero => exact absurd hj (Nat.not_lt_zero j)
  | succ n ih =>
    rw [shardsFrom]
    cases j with
    | zero =>
      rw [List.getElem?_cons_zero, Nat.zero_mul, Nat.add_zero]
      simp only [Nat.zero_add, Nat.right_eq_add]
    | succ j =>
      have hn : n ≠ 0 := by omega
      rw [List.getElem?_cons_succ, if_neg hn, ih (by omega), Nat.succ_mul,
        Nat.add_comm (j * minEntries), ← Nat.add_assoc]
      simp only [Nat.add_right_cancel_iff]

theorem keysBefore_shardsFrom {n pos j : ℕ} (hj : j < n) :
    keysBefore (shardsFrom keys minEntries n pos) j = j * minEntries := by
  induction n generalizing pos j with
  | zero => exact absurd hj (Nat.not_lt_zero j)
  | succ n ih =>
    cases j with
    | zero => rw [Nat.zero_mul]; rfl
    | succ j =>
      have hn : n ≠ 0 := by omega
      have hrest := @ih (pos + minEntries) j (by omega)
      rw [keysBefore] at hrest
      rw [keysBefore, shardsFrom, if_neg hn, List.take_succ_cons, List.map_cons, List.sum_cons,
        hrest, Nat.succ_mul, Nat.add_comm]

/-- The shards have all the keys there are from a position on. -/
theorem sum_shardsFrom {n pos : ℕ} (hpos : pos + n * minEntries ≤ keys.length) :
    ((shardsFrom keys minEntries (n + 1) pos).map Shard.entries).sum = keys.length - pos := by
  induction n generalizing pos with
  | zero => simp [shardsFrom]
  | succ n ih =>
    rw [Nat.succ_mul] at hpos
    rw [shardsFrom, if_neg (Nat.succ_ne_zero n), List.map_cons, List.sum_cons, ih (by omega)]
    dsimp only
    omega

theorem pairwise_of_inOrder (h : inOrder keys = true) : keys.Pairwise (· ≤ ·) := by
  refine List.isChain_iff_pairwise.1 ?_
  induction keys with
  | nil => exact .nil
  | cons a ks ih =>
    cases ks with
    | nil => exact .singleton a
    | cons b ks =>
      rw [inOrder, Bool.and_eq_true, Bool.not_eq_true', decide_eq_false_iff_not,
        BitVec.not_lt] at h
      exact .cons_cons h.1 (ih h.2)

theorem firstsAscend_iff : firstsAscend plan = true ↔ plan.Pairwise fun s t => s.first < t.first := by
  rw [← List.isChain_iff_pairwise (R := fun s t : Shard => s.first < t.first)]
  induction plan with
  | nil => exact ⟨fun _ => .nil, fun _ => rfl⟩
  | cons a plan ih =>
    cases plan with
    | nil => exact ⟨fun _ => .singleton a, fun _ => rfl⟩
    | cons b plan =>
      rw [firstsAscend, Bool.and_eq_true, decide_eq_true_eq, ih, List.isChain_cons_cons]

/-! ## Where a key is looked up -/

/-- How many first keys are at or below a key, from the first shard on. -/
@[grind =] def reach (plan : List Shard) (key : Key) : ℕ :=
  (plan.takeWhile fun s => decide (s.first ≤ key)).length

theorem reach_le (plan : List Shard) (key : Key) : reach plan key ≤ plan.length :=
  (List.takeWhile_prefix _).length_le

variable {key : Key} {roots : List Bytes32}

theorem lt_reach_iff {i : ℕ} {s : Shard} (h : plan.Pairwise fun s t => s.first < t.first)
    (hs : plan[i]? = some s) : i < reach plan key ↔ s.first ≤ key := by
  induction plan generalizing i with
  | nil => simp at hs
  | cons a plan ih =>
    obtain ⟨ha, hplan⟩ := List.pairwise_cons.1 h
    rw [reach]
    by_cases hle : a.first ≤ key
    · rw [List.takeWhile_cons_of_pos (by simpa using hle), List.length_cons]
      cases i with
      | zero =>
        obtain rfl := Option.some.inj hs
        exact iff_of_true (Nat.succ_pos _) hle
      | succ i => rw [Nat.add_lt_add_iff_right, ← ih hplan hs]; rfl
    · rw [List.takeWhile_cons_of_neg (by simpa using hle), List.length_nil]
      refine iff_of_false (Nat.not_lt_zero i) fun hno => hle ?_
      rcases List.mem_cons.1 (List.mem_of_getElem? hs) with rfl | hmem
      · exact hno
      · exact BitVec.le_trans (BitVec.le_of_lt (ha s hmem)) hno

/-- **The plan's answer**: the last shard that starts at or below the key. -/
theorem shardOfFrom_eq {i found : ℕ} (h : plan.Pairwise fun s t => s.first < t.first) :
    shardOfFrom key plan i found = if reach plan key = 0 then found else i + reach plan key - 1 := by
  induction plan generalizing i found with
  | nil => rfl
  | cons a plan ih =>
    obtain ⟨ha, hplan⟩ := List.pairwise_cons.1 h
    rw [shardOfFrom, ih hplan, reach, reach]
    by_cases hle : a.first ≤ key
    · rw [if_pos hle, List.takeWhile_cons_of_pos (by simpa using hle), List.length_cons,
        if_neg (Nat.succ_ne_zero _)]
      split <;> omega
    · have hnone : (plan.takeWhile fun s => decide (s.first ≤ key)) = [] := by
        rw [List.takeWhile_eq_nil_iff]
        intro hpos hno
        refine hle (BitVec.le_trans (BitVec.le_of_lt (ha _ (List.getElem_mem hpos))) ?_)
        exact of_decide_eq_true hno
      rw [if_neg hle, List.takeWhile_cons_of_neg (by simpa using hle), hnone]
      rfl

/-- The entry of the index at a place spells its shard's first key. -/
theorem getBe_index {i : ℕ} {s : Shard} (hroots : roots.length = plan.length)
    (hs : plan[i]? = some s) :
    getBe (List.zipWith indexEntry plan roots).flatten (i * indexEntryLen) shardKeyLen =
      s.first.toNat := by
  induction plan generalizing i roots with
  | nil => simp at hs
  | cons a plan ih =>
    cases roots with
    | nil => simp at hroots
    | cons root roots =>
      rw [List.zipWith_cons_cons, List.flatten_cons]
      have hlen : (indexEntry a root).length = indexEntryLen := by
        simp [indexEntry, indexEntryLen, shardKeyLen]
      cases i with
      | zero =>
        obtain rfl := Option.some.inj hs
        rw [Nat.zero_mul, indexEntry, List.append_assoc]
        exact getBe_putBe_of_lt _ (toNat_lt_bytes _)
      | succ i =>
        rw [getBe_append_right (by rw [hlen, Nat.succ_mul]; exact Nat.le_add_left _ _), hlen,
          Nat.succ_mul, Nat.add_sub_cancel]
        exact ih (by simpa using hroots) hs

theorem length_index (hroots : roots.length = plan.length) :
    (List.zipWith indexEntry plan roots).flatten.length = plan.length * indexEntryLen := by
  induction plan generalizing roots with
  | nil => simp
  | cons a plan ih =>
    cases roots with
    | nil => simp at hroots
    | cons root roots =>
      rw [List.zipWith_cons_cons, List.flatten_cons, List.length_append,
        ih (by simpa using hroots), List.length_cons, Nat.succ_mul, Nat.add_comm]
      simp [indexEntry, indexEntryLen, shardKeyLen]

/-- **The search ends behind the first keys at or below the key.** -/
theorem lookupIn_eq {lo hi : ℕ} (h : plan.Pairwise fun s t => s.first < t.first)
    (hroots : roots.length = plan.length) (hlo : lo ≤ reach plan key) (hreach : reach plan key ≤ hi)
    (hhi : hi ≤ plan.length) :
    lookupIn (List.zipWith indexEntry plan roots).flatten key lo hi = reach plan key := by
  have hmid : ∀ {lo hi : ℕ}, lo < hi → hi ≤ plan.length → ∃ s,
      plan[lo + (hi - lo) / 2]? = some s ∧
        (key.toNat < getBe (List.zipWith indexEntry plan roots).flatten
          ((lo + (hi - lo) / 2) * indexEntryLen) shardKeyLen ↔ ¬s.first ≤ key) := by
    intro lo hi hlt hhi
    have hs := List.getElem?_eq_getElem (show lo + (hi - lo) / 2 < plan.length by omega)
    refine ⟨_, hs, ?_⟩
    rw [getBe_index hroots hs, BitVec.not_le, BitVec.lt_def]
  induction lo, hi using lookupIn.induct (List.zipWith indexEntry plan roots).flatten key with
  | case1 lo hi hlt hbefore ih =>
    obtain ⟨s, hs, hiff⟩ := hmid hlt hhi
    have hle := (lt_reach_iff h hs).not.2 (hiff.1 hbefore)
    rw [lookupIn, if_pos hlt, if_pos hbefore]
    exact ih hlo (by omega) (by omega)
  | case2 lo hi hlt hbefore ih =>
    obtain ⟨s, hs, hiff⟩ := hmid hlt hhi
    have hle := (lt_reach_iff h hs).2 (not_not.1 (hiff.not.1 hbefore))
    rw [lookupIn, if_pos hlt, if_neg hbefore]
    exact ih hle hreach hhi
  | case3 lo hi hlt =>
    rw [lookupIn, if_neg hlt]
    omega

/-- **The index answers as the plan does**, for every key. -/
theorem indexLookup_eq_shardOf (key : Key) (h : plan.Pairwise fun s t => s.first < t.first)
    (hroots : roots.length = plan.length) (hsome : plan ≠ []) :
    indexLookup (List.zipWith indexEntry plan roots).flatten key = .ok (reach plan key - 1) ∧
      shardOf plan key = .ok (reach plan key - 1) := by
  have hpos := List.length_pos_iff.2 hsome
  have hentry : 0 < indexEntryLen := by decide
  constructor
  · rw [indexLookup, length_index hroots, if_neg (Nat.mul_pos hpos hentry).ne',
      Nat.mul_mod_left, if_neg (not_not.2 rfl), Nat.mul_div_cancel _ hentry,
      lookupIn_eq h hroots (Nat.zero_le _) (reach_le plan key) (Nat.le_refl _)]
    dsimp only
    split <;> simp_all
  · rw [shardOf, if_neg hpos.ne', shardOfFrom_eq h]
    split <;> simp_all

/-- A key that starts at or above a shard and below the next reaches just that shard. -/
theorem reach_eq {j : ℕ} {s : Shard} (h : plan.Pairwise fun s t => s.first < t.first)
    (hs : plan[j]? = some s) (hle : s.first ≤ key)
    (hnext : ∀ t, plan[j + 1]? = some t → ¬t.first ≤ key) : reach plan key = j + 1 := by
  have hlt := (lt_reach_iff h hs).2 hle
  by_contra hne
  have hmore : j + 1 < plan.length := by
    have := reach_le plan key
    omega
  have ht := List.getElem?_eq_getElem hmore
  exact hnext _ ht ((lt_reach_iff h ht).1 (by omega))

/-! ## Routing -/

/-- The plan's sizes: all the keys are in it, and no shard is too small or too large. -/
structure Sized (keys : List Key) (minEntries : ℕ) (plan : List Shard) : Prop where
  all : (plan.map Shard.entries).sum = keys.length
  each : plan.length = 1 ∨ ∀ s ∈ plan, minEntries ≤ s.entries ∧ s.entries < 2 * minEntries

/-- The shard at a place has the key at a position. -/
def Shard.Has (plan : List Shard) (j i : ℕ) : Prop :=
  ∃ s, plan[j]? = some s ∧ keysBefore plan j ≤ i ∧ i < keysBefore plan j + s.entries

/-- The index of a plan is written, and routes every key to its shard, as the plan does. -/
def Routes (sizeMax cap : ℕ) (keys : List Key) (plan : List Shard) (roots : List Bytes32) : Prop :=
  ∃ body, indexBodyEncode sizeMax plan roots cap = .ok body ∧
    (∀ i key, keys[i]? = some key → ∃ j, indexLookup body key = .ok j ∧ Shard.Has plan j i) ∧
    ∀ key, indexLookup body key = shardOf plan key

/-- No cut falls between two equal keys. -/
def CutsApart (keys : List Key) (minEntries : ℕ) : Prop :=
  ∀ j, 0 < j → j < keys.length / minEntries →
    keys[j * minEntries - 1]? ≠ keys[j * minEntries]?

/-- A plan that is made is the shards of keys in order. -/
theorem shardPlan_ok {outCap : ℕ} (h : shardPlan keys minEntries outCap = .ok plan)
    (hsome : plan ≠ []) :
    0 < minEntries ∧ 0 < keys.length ∧ keys.Pairwise (· ≤ ·) ∧
      plan = shardsFrom keys minEntries (shardCount keys minEntries) 0 := by
  rw [shardPlan] at h
  split_ifs at h with hmin horder hnone hcap
  · exact absurd (Except.ok.inj h).symm hsome
  · exact ⟨Nat.pos_of_ne_zero hmin, Nat.pos_of_ne_zero hnone,
      pairwise_of_inOrder (by simpa using horder), (Except.ok.inj h).symm⟩

variable (keys) in
/-- The shards there are take the keys they are to, and leave fewer than one takes. -/
theorem shardCount_spec (hmin : 0 < minEntries) : shardCount keys minEntries = 1 ∨
    shardCount keys minEntries = keys.length / minEntries ∧
      shardCount keys minEntries * minEntries ≤ keys.length ∧
      keys.length < shardCount keys minEntries * minEntries + minEntries := by
  rw [shardCount]
  split
  next => exact .inl rfl
  next => exact .inr ⟨rfl, Nat.div_mul_le_self _ _, Nat.lt_div_mul_add hmin⟩

theorem shardCount_pos (keys : List Key) (minEntries : ℕ) : 0 < shardCount keys minEntries := by
  rw [shardCount]
  split
  next => exact Nat.one_pos
  next hmany => exact Nat.pos_of_ne_zero hmany

/-- Where a shard starts there is a key. -/
theorem start_lt (hmin : 0 < minEntries) (hkeys : 0 < keys.length) {j : ℕ}
    (hj : j < shardCount keys minEntries) : j * minEntries < keys.length := by
  rcases shardCount_spec keys hmin with hone | ⟨-, hle, -⟩
  · obtain rfl : j = 0 := by omega
    rwa [Nat.zero_mul]
  · exact (Nat.mul_lt_mul_of_pos_right hj hmin).trans_le hle

theorem sized_shards (hmin : 0 < minEntries) (hkeys : 0 < keys.length) :
    Sized keys minEntries (shardsFrom keys minEntries (shardCount keys minEntries) 0) := by
  obtain ⟨n, hn⟩ := Nat.exists_eq_succ_of_ne_zero (shardCount_pos keys minEntries).ne'
  have hlast : n * minEntries < keys.length := start_lt hmin hkeys (by omega)
  refine ⟨?_, ?_⟩
  · rw [hn]
    exact sum_shardsFrom (by omega)
  · rw [length_shardsFrom]
    rcases shardCount_spec keys hmin with hone | ⟨-, hle, hlt⟩
    · exact .inl hone
    · refine .inr fun s hs => ?_
      obtain ⟨j, hj, rfl⟩ := List.mem_iff_getElem.1 hs
      have hj' : j < shardCount keys minEntries := by rwa [length_shardsFrom] at hj
      obtain ⟨_, hat⟩ := List.getElem?_eq_some_iff.1 (@getElem?_shardsFrom keys minEntries _ 0 _ hj')
      rw [hat]
      dsimp only
      split
      next hlast =>
        rw [← hlast, Nat.succ_mul] at hle hlt
        omega
      next => omega

/-- Keys in order, by their places. -/
theorem getD_le (h : keys.Pairwise (· ≤ ·)) {i j : ℕ} (hij : i ≤ j) (hj : j < keys.length) :
    keys.getD i 0 ≤ keys.getD j 0 := by
  rw [List.getD_eq_getElem _ _ (by omega), List.getD_eq_getElem _ _ hj]
  rcases Nat.lt_or_eq_of_le hij with hlt | rfl
  · exact List.pairwise_iff_getElem.1 h i j _ hj hlt
  · exact BitVec.le_refl _

section Apart

variable (hmin : 0 < minEntries) (hkeys : 0 < keys.length) (hsorted : keys.Pairwise (· ≤ ·))
  (hapart : CutsApart keys minEntries)

include hmin hkeys hsorted hapart

/-- **Where the cuts are apart**, what is in front of a shard is below its first key. -/
theorem lt_first {i j : ℕ} (hj : j < shardCount keys minEntries) (hi : i < j * minEntries) :
    keys.getD i 0 < keys.getD (j * minEntries) 0 := by
  have hlt := start_lt hmin hkeys hj
  have hpos : 0 < j := by
    rcases Nat.eq_zero_or_pos j with rfl | hpos
    · rw [Nat.zero_mul] at hi
      exact absurd hi (Nat.not_lt_zero i)
    · exact hpos
  have hcut : j < keys.length / minEntries := by
    rcases shardCount_spec keys hmin with hone | ⟨heq, -⟩ <;> omega
  have hne := hapart j hpos hcut
  rw [List.getElem?_eq_getElem hlt, List.getElem?_eq_getElem (by omega), ne_eq, Option.some.injEq]
    at hne
  have hbelow := getD_le hsorted (show i ≤ j * minEntries - 1 by omega) (by omega)
  have hcross := getD_le hsorted (Nat.sub_le (j * minEntries) 1) hlt
  have hcross := BitVec.lt_of_le_ne hcross (by
    rwa [List.getD_eq_getElem _ _ (by omega), List.getD_eq_getElem _ _ hlt])
  rw [BitVec.le_def] at hbelow
  rw [BitVec.lt_def] at hcross ⊢
  exact Nat.lt_of_le_of_lt hbelow hcross

theorem pairwise_shards : (shardsFrom keys minEntries (shardCount keys minEntries) 0).Pairwise
    fun s t => s.first < t.first := by
  rw [List.pairwise_iff_getElem]
  intro i j hi hj hij
  rw [length_shardsFrom] at hi hj
  obtain ⟨_, hs⟩ := List.getElem?_eq_some_iff.1 (@getElem?_shardsFrom keys minEntries _ 0 _ hi)
  obtain ⟨_, ht⟩ := List.getElem?_eq_some_iff.1 (@getElem?_shardsFrom keys minEntries _ 0 _ hj)
  rw [hs, ht]
  dsimp only
  rw [Nat.zero_add, Nat.zero_add]
  exact lt_first hmin hkeys hsorted hapart hj (Nat.mul_lt_mul_of_pos_right hij hmin)

/-- **Where the cuts are apart**, a key at a position reaches the shard that has it. -/
theorem reach_shards {i : ℕ} (hi : keys[i]? = some key) :
    ∃ j, reach (shardsFrom keys minEntries (shardCount keys minEntries) 0) key = j + 1 ∧
      Shard.Has (shardsFrom keys minEntries (shardCount keys minEntries) 0) j i := by
  obtain ⟨hlen, hget⟩ := List.getElem?_eq_some_iff.1 hi
  have hkey : keys.getD i 0 = key := (List.getD_eq_getElem _ _ hlen).trans hget
  have hcount := shardCount_spec keys hmin
  have hpos := shardCount_pos keys minEntries
  generalize hn : shardCount keys minEntries = n at *
  -- the shard is that of the position, and the last takes what is left
  obtain ⟨j, hj, hle, hend⟩ : ∃ j < n, j * minEntries ≤ i ∧
      (j + 1 < n → i < (j + 1) * minEntries) := by
    by_cases hlast : i / minEntries < n
    · exact ⟨i / minEntries, hlast, Nat.div_mul_le_self _ _, fun _ => by
        rw [Nat.succ_mul]
        exact Nat.lt_div_mul_add hmin⟩
    · refine ⟨n - 1, by omega, ?_, fun h => by omega⟩
      exact (Nat.mul_le_mul_right _ (by omega)).trans (Nat.div_mul_le_self i minEntries)
  have hs := @getElem?_shardsFrom keys minEntries n 0 j hj
  have hpair := pairwise_shards hmin hkeys hsorted hapart
  rw [hn] at hpair
  refine ⟨j, reach_eq hpair hs ?_ fun t ht => ?_, _, hs, ?_, ?_⟩
  · rw [← hkey, Nat.zero_add]
    exact getD_le hsorted hle hlen
  · have hnext : j + 1 < n := by
      obtain ⟨hlt, -⟩ := List.getElem?_eq_some_iff.1 ht
      rwa [length_shardsFrom] at hlt
    rw [@getElem?_shardsFrom keys minEntries n 0 _ hnext] at ht
    obtain rfl := Option.some.inj ht
    rw [BitVec.not_le, ← hkey, Nat.zero_add]
    exact lt_first hmin hkeys hsorted hapart (hn ▸ hnext) (hend hnext)
  · rwa [keysBefore_shardsFrom hj]
  · rw [keysBefore_shardsFrom hj]
    dsimp only
    split
    next => omega
    next hmore =>
      have hlt := hend (by omega)
      rwa [Nat.succ_mul] at hlt

end Apart

/-- **The index of a plan routes every key to its shard just when no cut falls between two
equal keys.** -/
theorem routes_iff_cutsApart {outCap sizeMax cap : ℕ} {roots : List Bytes32}
    (hplan : shardPlan keys minEntries outCap = .ok plan) (hsome : plan ≠ [])
    (hroots : roots.length = plan.length) (hroom : plan.length * indexEntryLen ≤ cap)
    (hcap : cap ≤ sizeMax) :
    Sized keys minEntries plan ∧
      (Routes sizeMax cap keys plan roots ↔ CutsApart keys minEntries) := by
  obtain ⟨hmin, hkeys, hsorted, hshards⟩ := shardPlan_ok hplan hsome
  refine ⟨hshards ▸ sized_shards hmin hkeys, ?_, fun hapart => ?_⟩
  · -- two equal keys, in two shards
    subst hshards
    rintro ⟨body, -, hheld, -⟩ j hpos hj heq
    have hcount : shardCount keys minEntries = keys.length / minEntries :=
      if_neg (by omega)
    have hlt := start_lt hmin hkeys (hcount ▸ hj)
    have hmul : minEntries ≤ j * minEntries := Nat.le_mul_of_pos_left _ hpos
    obtain ⟨a, hat, s, hs, hlo, hhi⟩ := hheld (j * minEntries - 1) _
      (heq.trans (List.getElem?_eq_getElem hlt))
    obtain ⟨b, hbt, t, ht, hlo', hhi'⟩ := hheld (j * minEntries) _ (List.getElem?_eq_getElem hlt)
    obtain rfl : a = b := Except.ok.inj (hat.symm.trans hbt)
    obtain ⟨ha, -⟩ := List.getElem?_eq_some_iff.1 ht
    rw [length_shardsFrom] at ha
    rw [getElem?_shardsFrom ha] at ht
    obtain rfl := Option.some.inj ht
    rw [keysBefore_shardsFrom ha] at hlo hhi'
    have hlt' : a < j := Nat.lt_of_mul_lt_mul_right (show a * minEntries < j * minEntries by omega)
    rw [if_neg (by omega), ← Nat.succ_mul] at hhi'
    exact absurd (Nat.lt_of_mul_lt_mul_right hhi') (by omega)
  · have hpair := pairwise_shards hmin hkeys hsorted hapart
    have hreaches : ∀ {i key}, keys[i]? = some key →
        ∃ j, reach plan key = j + 1 ∧ Shard.Has plan j i := fun hi =>
      hshards ▸ reach_shards hmin hkeys hsorted hapart hi
    rw [← hshards] at hpair
    have hentry : 0 < indexEntryLen := by decide
    have hlen := List.length_pos_iff.2 hsome
    refine ⟨(List.zipWith indexEntry plan roots).flatten, ?_, fun i key hi => ?_, fun key => ?_⟩
    · rw [indexBodyEncode, indexBodyLen, if_neg hlen.ne', if_neg (not_lt.2
        ((Nat.le_div_iff_mul_le hentry).2 (hroom.trans hcap)))]
      show (if cap < _ then _ else _) = _
      rw [if_neg (not_lt.2 hroom), firstsAscend_iff.2 hpair]
      rfl
    · obtain ⟨j, hreach, hhas⟩ := hreaches hi
      refine ⟨j, ?_, hhas⟩
      rw [(indexLookup_eq_shardOf key hpair hroots hsome).1, hreach, Nat.add_sub_cancel]
    · obtain ⟨hindex, hshard⟩ := indexLookup_eq_shardOf key hpair hroots hsome
      rw [hindex, hshard]

theorem routes_two : Sized [1, 2] 1 [⟨1, 1⟩, ⟨2, 1⟩] ∧
    (Routes 128 128 [1, 2] [⟨1, 1⟩, ⟨2, 1⟩] [0, 0] ↔ CutsApart [1, 2] 1) :=
  @routes_iff_cutsApart [1, 2] 1 [⟨1, 1⟩, ⟨2, 1⟩] 2 128 128 [0, 0] rfl (by decide) rfl (by decide)
    (by decide)

/-- A key that stands twice in a register is planned, and its index is refused. -/
theorem repeated_key_refused : shardPlan [7, 7] 1 2 = .ok [⟨7, 1⟩, ⟨7, 1⟩] ∧
    indexBodyEncode 128 [⟨7, 1⟩, ⟨7, 1⟩] [0, 0] 128 = .error .malformed ∧
    ¬Routes 128 128 [7, 7] [⟨7, 1⟩, ⟨7, 1⟩] [0, 0] := by
  refine ⟨by decide, by decide, ?_⟩
  rintro ⟨body, hbody, -⟩
  have hrefused : indexBodyEncode 128 [⟨7, 1⟩, ⟨7, 1⟩] [0, 0] 128 = .error .malformed := by decide
  rw [hrefused] at hbody
  cases hbody

end Catalog
end Fuzznet
