/-
# Purges that wait for consent

`catalog/purge.c`: `fzn_catalog_purge_queue`, `fzn_catalog_purge_agree`,
`fzn_catalog_purge_closed`, `fzn_catalog_purge_eliminate`, and the wire form,
`fzn_catalog_purge_encode` and `fzn_catalog_purge_decode`.  A row pins the hosts that hold an
entity when its purge is queued.  It is closed once each of them has agreed, and only then is
it eliminated.

A host that agrees is looked up by key and its consent is kept by place: the first place of
that key is marked (`agreeIn`).  Where the hosts are distinct the two come to the same
(`agreeIn_getD`), so behind any calls a row says of each of its hosts whether it has agreed
since (`mem_step`).  The hosts of a row queued are distinct, the holders being counted once
each.  Those of a row decoded are as they came, and one named twice has a second place that no
agreement marks (`run_agrees_unanswered`).

The counts of `fzn_catalog_purge_progress` are left out.
-/

import Fuzznet.Catalog.Holders
import Fuzznet.Lib.Pieces
import Fuzznet.Lib.Table

namespace Fuzznet
namespace Catalog

open Wire

/-- `FZN_CATALOG_PURGE_HOST_LEN`. -/
def purgeHostLen : ℕ := 32

/-- `FZN_CATALOG_PURGE_HOSTS_MAX`. -/
def purgeHostsMax : ℕ := 8

/-- `FZN_CATALOG_PURGE_HEAD_LEN`. -/
def purgeHeadLen : ℕ := 2

/-- `FZN_CATALOG_OBJECT_PURGE`. -/
def objectPurge : UInt8 := 2

/-- `FZN_RECORD_BODY_MAX`. -/
def recordBodyMax : ℕ := 512

/-- `fzn_catalog_err_t`, the answers a purge gives. -/
inductive PurgeErr
  | ok
  | malformed
  | kind
  | range
  | absent
  | busy
  deriving DecidableEq, Repr

/-- `fzn_catalog_host_t`. -/
structure Host where
  b : Bytes
  size : b.length = purgeHostLen
  deriving DecidableEq

/-- A key as a host, where it is as long as one. -/
def Host.ofBytes (b : Bytes) : Option Host :=
  if size : b.length = purgeHostLen then some ⟨b, size⟩ else none

/-- `fzn_catalog_purge_t`: each host pinned, with whether it agreed. -/
structure Purge where
  entity : Bytes
  pinned : List (Host × Bool)
  size : entity.length = entityLen
  deriving DecidableEq

/-- The hosts pinned, as their keys. -/
def Purge.hosts (r : Purge) : List Bytes :=
  r.pinned.map fun x => x.1.b

/-- A row whose hosts are yet to agree. -/
def Purge.fresh (entity : Bytes) (size : entity.length = entityLen) (hosts : List Host) : Purge :=
  ⟨entity, hosts.map fun h => (h, false), size⟩

/-- `fzn_catalog_purges_t`. -/
structure Purges where
  rows : List Purge
  capacity : ℕ
  deriving DecidableEq

/-- `fzn_catalog_purges_init`. -/
def purgesInit (capacity : ℕ) : Purges :=
  ⟨[], capacity⟩

/-- `find`. -/
def Purges.find (t : Purges) (entity : Bytes) : Option Purge :=
  Lib.row Purge.entity entity t.rows

/-- `fzn_catalog_purge_queue`. -/
def purgeQueue (t : Purges) (set : List Assertion) (entity : Bytes) : PurgeErr × Purges :=
  if size : entity.length = entityLen then
    if (t.find entity).isSome then (.kind, t)
    else
      let who := holders set entity purgeHostsMax
      if 0 < who.2 then (.range, t)
      else if who.1.length = 0 then (.absent, t)
      else if t.capacity ≤ t.rows.length then (.range, t)
      else match who.1.mapM fun w => Host.ofBytes w.issuer with
        | none => (.range, t)
        | some hosts => (.ok, { t with rows := t.rows ++ [Purge.fresh entity size hosts] })
  else (.malformed, t)

/-- The first place of the host, marked. -/
def agreeIn (host : Bytes) : List (Host × Bool) → Option (List (Host × Bool))
  | [] => none
  | x :: xs => if x.1.b = host then some ((x.1, true) :: xs) else (agreeIn host xs).map (x :: ·)

/-- `fzn_catalog_purge_agree`. -/
def purgeAgree (t : Purges) (entity host : Bytes) : PurgeErr × Purges :=
  if entity.length ≠ entityLen then (.malformed, t)
  else match t.find entity with
    | none => (.absent, t)
    | some row => match agreeIn host row.pinned with
      | none => (.absent, t)
      | some pinned =>
        (.ok, { t with rows := Lib.writeRow Purge.entity { row with pinned := pinned } t.rows })

/-- `fzn_catalog_purge_closed`. -/
def purgeClosed (t : Purges) (entity : Bytes) : Bool :=
  if entity.length ≠ entityLen then false
  else match t.find entity with
    | none => false
    | some row => row.pinned.all Prod.snd

/-- `fzn_catalog_purge_eliminate`. -/
def purgeEliminate (t : Purges) (entity : Bytes) : PurgeErr × Purges :=
  if entity.length ≠ entityLen then (.malformed, t)
  else match t.find entity with
    | none => (.absent, t)
    | some _ =>
      if purgeClosed t entity = false then (.busy, t)
      else (.ok, { t with rows := Lib.takeOut Purge.entity entity t.rows })

/-- A call on the table. -/
inductive PurgeCall
  | queue (set : List Assertion) (entity : Bytes)
  | agree (entity host : Bytes)
  | eliminate (entity : Bytes)
  deriving DecidableEq

/-- The table behind a call. -/
def purgeStep (t : Purges) : PurgeCall → Purges
  | .queue set entity => (purgeQueue t set entity).2
  | .agree entity host => (purgeAgree t entity host).2
  | .eliminate entity => (purgeEliminate t entity).2

/-- The table behind some calls. -/
def runPurges (t : Purges) (calls : List PurgeCall) : Purges :=
  calls.foldl purgeStep t

/-! ## The wire form -/

/-- `fzn_catalog_purge_encode`. -/
def purgeEncode (hosts : List Host) (cap : ℕ) : Except PurgeErr Bytes :=
  if hosts.length = 0 then .error .absent
  else if purgeHostsMax < hosts.length then .error .range
  else
    let total := purgeHeadLen + hosts.length * purgeHostLen
    if cap < total ∨ recordBodyMax < total then .error .range
    else .ok (objectPurge :: UInt8.ofNat hosts.length :: hosts.flatMap Host.b)

/-- The host a body names at place `i`. -/
def hostField (body : Bytes) (i : ℕ) : Bytes :=
  (body.drop (purgeHeadLen + i * purgeHostLen)).take purgeHostLen

theorem length_hostField {body : Bytes} {n i : ℕ}
    (h : body.length = purgeHeadLen + n * purgeHostLen) (hi : i < n) :
    (hostField body i).length = purgeHostLen := by
  rw [hostField, List.length_take, List.length_drop, h]
  simp only [purgeHeadLen, purgeHostLen]
  omega

/-- `fzn_catalog_purge_decode`. -/
def purgeDecode (entity body : Bytes) : Except PurgeErr Purge :=
  if size : entity.length = entityLen then
    if recordBodyMax < body.length then .error .range
    else if body.length < purgeHeadLen then .error .malformed
    else if body.getD 0 0 ≠ objectPurge then .error .malformed
    else
      let hosts := (body.getD 1 0).toNat
      if hosts = 0 ∨ purgeHostsMax < hosts then .error .malformed
      else if h : body.length = purgeHeadLen + hosts * purgeHostLen then
        .ok (Purge.fresh entity size
          ((List.finRange hosts).map fun i : Fin hosts =>
            ⟨hostField body i, length_hostField h i.2⟩))
      else .error .malformed
  else .error .malformed

/-! ## What a call does to a row -/

variable {t : Purges} {r : Purge} {c : PurgeCall} {set : List Assertion} {entity host : Bytes}

@[simp] theorem Purge.fresh_hosts (size : entity.length = entityLen) (hosts : List Host) :
    (Purge.fresh entity size hosts).hosts = hosts.map Host.b := by
  simp [Purge.hosts, Purge.fresh, Function.comp_def]

/-- The row once more hosts have agreed. -/
def Purge.answered (r : Purge) (calls : List PurgeCall) : Purge :=
  { r with pinned := r.pinned.map fun x => (x.1, x.2 || decide (.agree r.entity x.1.b ∈ calls)) }

@[simp] theorem Purge.answered_entity (r : Purge) (calls : List PurgeCall) :
    (r.answered calls).entity = r.entity := rfl

@[simp] theorem Purge.answered_hosts (r : Purge) (calls : List PurgeCall) :
    (r.answered calls).hosts = r.hosts := by
  simp [Purge.hosts, Purge.answered]

@[simp] theorem Purge.answered_nil (r : Purge) : r.answered [] = r := by
  simp [Purge.answered]

theorem Purge.answered_append (r : Purge) (calls more : List PurgeCall) :
    (r.answered calls).answered more = r.answered (calls ++ more) := by
  simp only [Purge.answered, List.map_map]
  congr 1
  refine List.map_congr_left fun x _ => Prod.ext rfl ?_
  rw [Bool.eq_iff_iff]
  simp only [Function.comp_apply, Bool.or_eq_true, List.mem_append, or_assoc, decide_eq_true_iff]
  exact or_congr_right (or_congr_right decide_eq_true_iff)

variable {body : Bytes} {calls : List PurgeCall}

theorem Purge.answered_of_ne (h : ∀ host, .agree r.entity host ∉ calls) : r.answered calls = r := by
  simp [Purge.answered, h]

theorem Purge.answered_all (r : Purge) (calls : List PurgeCall) :
    (r.answered calls).pinned.all Prod.snd = true ↔
      ∀ x ∈ r.pinned, x.2 = true ∨ .agree r.entity x.1.b ∈ calls := by
  simp [Purge.answered]

/-- The row once one host has agreed, as `fzn_catalog_purge_agree` marks it. -/
def Purge.told (r : Purge) (entity host : Bytes) : Purge :=
  if r.entity = entity then { r with pinned := (agreeIn host r.pinned).getD r.pinned } else r

theorem Purge.told_entity (r : Purge) (entity host : Bytes) :
    (r.told entity host).entity = r.entity := by
  rw [Purge.told]
  split_ifs <;> rfl

theorem getD_map_cons {α : Type*} (x : α) (xs : List α) (o : Option (List α)) :
    (o.map (x :: ·)).getD (x :: xs) = x :: o.getD xs := by
  cases o <;> rfl

/-- **Marked by place is marked by key**, the hosts being distinct. -/
theorem agreeIn_getD {xs : List (Host × Bool)} (hn : (xs.map fun x => x.1.b).Nodup) :
    (agreeIn host xs).getD xs = xs.map fun x => (x.1, x.2 || decide (x.1.b = host)) := by
  induction xs with
  | nil => rfl
  | cons x xs ih =>
    obtain ⟨hx, hxs⟩ := List.nodup_cons.1 hn
    rw [agreeIn, List.map_cons]
    split_ifs with hhost
    · have hrest : xs.map (fun y => (y.1, y.2 || decide (y.1.b = host))) = xs := by
        refine (List.map_congr_left fun y hy => ?_).trans (List.map_id xs)
        have hne : y.1.b ≠ host := by
          intro hyhost
          exact hx (List.mem_map.2 ⟨y, hy, hyhost.trans hhost.symm⟩)
        simp [hne]
      simp [hhost, hrest]
    · rw [getD_map_cons, ih hxs]
      simp [hhost]

theorem Purge.told_eq (hn : r.hosts.Nodup) (entity host : Bytes) :
    r.told entity host = r.answered [.agree entity host] := by
  rw [Purge.told]
  split_ifs with hentity
  · subst hentity
    rw [agreeIn_getD hn]
    simp [Purge.answered]
  · rw [Purge.answered_of_ne]
    simp [hentity]

theorem find_eq_some_iff (hn : (t.rows.map Purge.entity).Nodup) :
    t.find entity = some r ↔ r ∈ t.rows ∧ r.entity = entity :=
  Lib.row_eq_some_iff hn

theorem host_of_mapM {who : List Issuer} {hosts : List Host}
    (h : (who.mapM fun w => Host.ofBytes w.issuer) = some hosts) :
    hosts.map Host.b = who.map Issuer.issuer := by
  induction who generalizing hosts with
  | nil =>
    obtain rfl : [] = hosts := by simpa using h
    rfl
  | cons w who ih =>
    rw [List.mapM_cons] at h
    obtain ⟨host, hhost, h⟩ := Option.bind_eq_some_iff.1 h
    obtain ⟨rest, hrest, h⟩ := Option.bind_eq_some_iff.1 h
    obtain rfl : host :: rest = hosts := Option.some.inj h
    rw [Host.ofBytes] at hhost
    split at hhost
    · obtain rfl := Option.some.inj hhost
      rw [List.map_cons, List.map_cons, ih hrest]
    · exact absurd hhost (by simp)

/-- What `fzn_catalog_purge_queue` does: nothing, or one row more. -/
theorem purgeQueue_cases (t : Purges) (set : List Assertion) (entity : Bytes) :
    ((purgeQueue t set entity).1 ≠ .ok ∧ (purgeQueue t set entity).2 = t) ∨
    ((purgeQueue t set entity).1 = .ok ∧ t.find entity = none ∧
      ∃ (size : entity.length = entityLen) (hosts : List Host),
        hosts.map Host.b = holdersOf set entity ∧
        (purgeQueue t set entity).2 =
          { t with rows := t.rows ++ [Purge.fresh entity size hosts] }) := by
  obtain ⟨hlisted, hdropped⟩ := holders_eq set entity purgeHostsMax
  by_cases hlen : entity.length = entityLen
  · rw [purgeQueue, dif_pos hlen]
    by_cases hfind : (t.find entity).isSome
    · exact Or.inl ⟨by simp [hfind], by simp [hfind]⟩
    rw [if_neg hfind]
    by_cases hdrop : 0 < (holders set entity purgeHostsMax).2
    · exact Or.inl ⟨by simp [hdrop], by simp [hdrop]⟩
    by_cases hnone : (holders set entity purgeHostsMax).1.length = 0
    · exact Or.inl ⟨by simp [hdrop, hnone], by simp [hdrop, hnone]⟩
    by_cases hroom : t.capacity ≤ t.rows.length
    · exact Or.inl ⟨by simp [hdrop, hnone, hroom], by simp [hdrop, hnone, hroom]⟩
    simp only [if_neg hdrop, if_neg hnone, if_neg hroom]
    cases hmap : (holders set entity purgeHostsMax).1.mapM fun w => Host.ofBytes w.issuer with
    | none => exact Or.inl ⟨by simp, rfl⟩
    | some hosts =>
      refine Or.inr ⟨rfl, by simpa using hfind, hlen, hosts, ?_, rfl⟩
      rw [host_of_mapM hmap, hlisted, List.take_of_length_le (by omega)]
  · rw [purgeQueue, dif_neg hlen]
    exact Or.inl ⟨by simp, rfl⟩

section

variable (hn : (t.rows.map Purge.entity).Nodup)
include hn

/-- **An agreement marks the rows of its entity** and no other. -/
theorem purgeAgree_rows (entity host : Bytes) :
    (purgeAgree t entity host).2.rows = t.rows.map fun r => r.told entity host := by
  have hsame : (∀ r ∈ t.rows, r.told entity host = r) →
      t.rows = t.rows.map fun r => r.told entity host :=
    fun h => ((List.map_congr_left h).trans (List.map_id _)).symm
  rw [purgeAgree]
  split_ifs with hlen
  · refine hsame fun r _ => if_neg ?_
    rintro rfl
    exact hlen r.size
  · split
    next hfind =>
      exact hsame fun r hr => if_neg (Lib.row_eq_none_iff.1 hfind r hr)
    next row hfind =>
      obtain ⟨hrow, rfl⟩ := (find_eq_some_iff hn).1 hfind
      have honly : ∀ r ∈ t.rows, r.entity = row.entity → r = row := fun r hr heq =>
        List.inj_on_of_nodup_map hn hr hrow heq
      split
      next hnone =>
        refine hsame fun r hr => ?_
        rw [Purge.told]
        split_ifs with heq
        · obtain rfl := honly r hr heq
          rw [hnone]
          rfl
        · rfl
      next pinned hsome =>
        have hwrite : Lib.writeRow Purge.entity { row with pinned := pinned } t.rows = _ :=
          Lib.writeRow_eq_map hn hfind
        refine hwrite.trans (List.map_congr_left fun r hr => ?_)
        rw [Purge.told]
        split_ifs with heq
        · obtain rfl := honly r hr heq
          rw [hsome]
          rfl
        · rfl

/-- What `fzn_catalog_purge_eliminate` does: nothing, or one closed row less. -/
theorem purgeEliminate_cases (entity : Bytes) :
    ((purgeEliminate t entity).1 ≠ .ok ∧ purgeClosed t entity = false ∧
      (purgeEliminate t entity).2 = t) ∨
    ((purgeEliminate t entity).1 = .ok ∧ purgeClosed t entity = true ∧
      (purgeEliminate t entity).2.rows.Perm (t.rows.filter fun r => r.entity ≠ entity)) := by
  by_cases hlen : entity.length ≠ entityLen
  · rw [purgeEliminate, if_pos hlen]
    exact Or.inl ⟨by simp, by rw [purgeClosed, if_pos hlen], rfl⟩
  rw [purgeEliminate, if_neg hlen]
  cases hfind : t.find entity with
  | none => exact Or.inl ⟨by simp, by rw [purgeClosed, if_neg hlen, hfind], rfl⟩
  | some row =>
    by_cases hclosed : purgeClosed t entity = false
    · exact Or.inl ⟨by simp [hclosed], hclosed, by simp [hclosed]⟩
    · simp only [if_neg hclosed, true_and]
      exact Or.inr ⟨Bool.eq_true_of_not_eq_false hclosed, Lib.takeOut_perm hn hfind⟩

/-- Whether a purge is closed, read off its row. -/
theorem purgeClosed_eq (hr : r ∈ t.rows) : purgeClosed t r.entity = r.pinned.all Prod.snd := by
  rw [purgeClosed, if_neg (not_not.2 r.size), (find_eq_some_iff hn).2 ⟨hr, rfl⟩]

/-- **A call keeps one row for each entity.** -/
theorem nodup_purgeStep (c : PurgeCall) : ((purgeStep t c).rows.map Purge.entity).Nodup := by
  cases c with
  | queue set entity =>
    rcases purgeQueue_cases t set entity with ⟨-, hsame⟩ | ⟨-, hfind, size, hosts, -, hrows⟩
    · rw [purgeStep, hsame]
      exact hn
    · rw [purgeStep, hrows, List.map_append]
      refine hn.append (List.nodup_singleton _) (List.disjoint_singleton.2 fun hmem => ?_)
      obtain ⟨r, hr, heq⟩ := List.mem_map.1 hmem
      exact Lib.row_eq_none_iff.1 hfind r hr heq
  | agree entity host =>
    rw [purgeStep, purgeAgree_rows hn, List.map_map]
    simpa [Function.comp_def, Purge.told_entity] using hn
  | eliminate entity =>
    rcases purgeEliminate_cases hn entity with ⟨-, -, hsame⟩ | ⟨-, -, hperm⟩
    · rw [purgeStep, hsame]
      exact hn
    · rw [purgeStep, (hperm.map Purge.entity).nodup_iff]
      exact hn.sublist (List.filter_sublist.map _)

/-- **A row stays, with the answers it got**, as long as it is not eliminated. -/
theorem answered_mem_purgeStep (hr : r ∈ t.rows) (hosts : r.hosts.Nodup)
    (hc : c ≠ .eliminate r.entity) : r.answered [c] ∈ (purgeStep t c).rows := by
  cases c with
  | queue set entity =>
    rw [Purge.answered_of_ne (by simp)]
    rcases purgeQueue_cases t set entity with ⟨-, hsame⟩ | ⟨-, -, size, hosts, -, hrows⟩
    · rwa [purgeStep, hsame]
    · rw [purgeStep, hrows]
      exact List.mem_append_left _ hr
  | agree entity host =>
    rw [purgeStep, purgeAgree_rows hn, ← Purge.told_eq hosts]
    exact List.mem_map_of_mem hr
  | eliminate entity =>
    rw [Purge.answered_of_ne (by simp)]
    rcases purgeEliminate_cases hn entity with ⟨-, -, hsame⟩ | ⟨-, -, hperm⟩
    · rwa [purgeStep, hsame]
    · rw [purgeStep, hperm.mem_iff, List.mem_filter]
      exact ⟨hr, by simpa using fun hsame => hc (congrArg PurgeCall.eliminate hsame.symm)⟩

/-- **Where a row comes from**: it was queued by the call, or was there and got its answer. -/
theorem mem_purgeStep (hosts : ∀ r ∈ t.rows, r.hosts.Nodup) {r' : Purge}
    (h : r' ∈ (purgeStep t c).rows) :
    (∃ set, c = .queue set r'.entity ∧ (purgeQueue t set r'.entity).1 = .ok ∧
      r'.hosts = holdersOf set r'.entity ∧ ∀ x ∈ r'.pinned, x.2 = false) ∨
    ∃ r ∈ t.rows, r' = r.answered [c] := by
  cases c with
  | queue set entity =>
    have hold : r' ∈ t.rows → ∃ r ∈ t.rows, r' = r.answered [.queue set entity] :=
      fun hr => ⟨r', hr, (Purge.answered_of_ne (by simp)).symm⟩
    rw [purgeStep] at h
    rcases purgeQueue_cases t set entity with ⟨-, hsame⟩ | ⟨hok, -, size, new, hnew, hrows⟩
    · rw [hsame] at h
      exact Or.inr (hold h)
    · rw [hrows, List.mem_append, List.mem_singleton] at h
      rcases h with h | rfl
      · exact Or.inr (hold h)
      · refine Or.inl ⟨set, rfl, hok, ?_, by simp [Purge.fresh]⟩
        exact (Purge.fresh_hosts size new).trans hnew
  | agree entity host =>
    rw [purgeStep, purgeAgree_rows hn] at h
    obtain ⟨r, hr, rfl⟩ := List.mem_map.1 h
    exact Or.inr ⟨r, hr, Purge.told_eq (hosts r hr) entity host⟩
  | eliminate entity =>
    refine Or.inr ⟨r', ?_, (Purge.answered_of_ne (by simp)).symm⟩
    rw [purgeStep] at h
    rcases purgeEliminate_cases hn entity with ⟨-, -, hsame⟩ | ⟨-, -, hperm⟩
    · rwa [hsame] at h
    · exact List.mem_of_mem_filter (hperm.mem_iff.1 h)

end

/-! ## What some calls do -/

/-- A table the calls lead to: one row for each entity, and each row's hosts told apart. -/
structure Purges.Sound (t : Purges) : Prop where
  entities : (t.rows.map Purge.entity).Nodup
  hosts : ∀ r ∈ t.rows, r.hosts.Nodup

theorem Purges.Sound.step (hs : t.Sound) (c : PurgeCall) : (purgeStep t c).Sound := by
  refine ⟨nodup_purgeStep hs.entities c, fun r hr => ?_⟩
  rcases mem_purgeStep hs.entities hs.hosts hr with ⟨set, -, -, hhosts, -⟩ | ⟨r, hold, rfl⟩
  · rw [hhosts]
    exact nodup_holdersOf set r.entity
  · rw [Purge.answered_hosts]
    exact hs.hosts r hold

theorem purgesInit_sound (capacity : ℕ) : (purgesInit capacity).Sound :=
  ⟨List.nodup_nil, by simp [purgesInit]⟩

theorem Purges.Sound.run (hs : t.Sound) (calls : List PurgeCall) : (runPurges t calls).Sound := by
  induction calls generalizing t with
  | nil => exact hs
  | cons c calls ih => exact ih (hs.step c)

theorem runPurges_append (t : Purges) (calls more : List PurgeCall) :
    runPurges t (calls ++ more) = runPurges (runPurges t calls) more :=
  List.foldl_append

theorem runPurges_concat (t : Purges) (calls : List PurgeCall) (c : PurgeCall) :
    runPurges t (calls ++ [c]) = purgeStep (runPurges t calls) c := by
  rw [runPurges_append]
  rfl

/-- **A row stays, with the answers it got**, over calls that do not eliminate it. -/
theorem answered_mem_runPurges (hn : (t.rows.map Purge.entity).Nodup) (hr : r ∈ t.rows)
    (hosts : r.hosts.Nodup) (hc : .eliminate r.entity ∉ calls) :
    r.answered calls ∈ (runPurges t calls).rows := by
  induction calls generalizing t r with
  | nil => rwa [Purge.answered_nil]
  | cons c calls ih =>
    obtain ⟨hne, hrest⟩ := not_or.1 (mt List.mem_cons.2 hc)
    have hstep := answered_mem_purgeStep hn hr hosts (Ne.symm hne)
    have hrun := ih (nodup_purgeStep hn c) hstep (by rwa [Purge.answered_hosts]) hrest
    rwa [Purge.answered_append, List.singleton_append] at hrun

/-- **Closed once all have agreed**, in any order, however often and whatever else is called. -/
theorem purgeClosed_runPurges (hn : (t.rows.map Purge.entity).Nodup) (hr : r ∈ t.rows)
    (hosts : r.hosts.Nodup) (hc : .eliminate r.entity ∉ calls)
    (hall : ∀ h ∈ r.hosts, .agree r.entity h ∈ calls) :
    purgeClosed (runPurges t calls) r.entity = true := by
  have hn' : ((runPurges t calls).rows.map Purge.entity).Nodup := by
    clear hr hc hall
    induction calls generalizing t with
    | nil => exact hn
    | cons c calls ih => exact ih (nodup_purgeStep hn c)
  have hclosed := purgeClosed_eq hn' (answered_mem_runPurges hn hr hosts hc)
  rw [Purge.answered_entity] at hclosed
  rw [hclosed, Purge.answered_all]
  exact fun x hx => Or.inr (hall _ (List.mem_map_of_mem hx))

/-- A row queued, and what became of it since. -/
structure Pinned (capacity : ℕ) (r : Purge) (pre : List PurgeCall) (set : List Assertion)
    (post : List PurgeCall) : Prop where
  queued : (purgeQueue (runPurges (purgesInit capacity) pre) set r.entity).1 = .ok
  hosts : r.hosts = holdersOf set r.entity
  kept : ∀ mid, mid <+: post → ∃ row ∈
    (runPurges (purgesInit capacity) (pre ++ .queue set r.entity :: mid)).rows,
      row.entity = r.entity ∧ row.hosts = r.hosts
  agreed : ∀ x ∈ r.pinned, x.2 = true ↔ .agree r.entity x.1.b ∈ post

/-- **Every row was queued, kept its hosts, and knows who agreed since.** -/
theorem exists_pinned {capacity : ℕ} (hr : r ∈ (runPurges (purgesInit capacity) calls).rows) :
    ∃ pre set post, calls = pre ++ .queue set r.entity :: post ∧
      Pinned capacity r pre set post := by
  induction calls using List.reverseRecOn generalizing r with
  | nil => exact absurd hr (by simp [runPurges, purgesInit])
  | append_singleton calls c ih =>
    have hsound := (purgesInit_sound capacity).run calls
    have hrow := hr
    rw [runPurges_concat] at hr
    rcases mem_purgeStep hsound.entities hsound.hosts hr with
      ⟨set, rfl, hok, hhosts, hnone⟩ | ⟨old, hold, rfl⟩
    · refine ⟨calls, set, [], rfl, hok, hhosts, ?_, fun x hx => by simp [hnone x hx]⟩
      rintro mid hmid
      obtain rfl := List.prefix_nil.1 hmid
      exact ⟨r, hrow, rfl, rfl⟩
    · obtain ⟨pre, set, post, rfl, hp⟩ := ih hold
      refine ⟨pre, set, post ++ [c], by simp, hp.queued, by simpa using hp.hosts, ?_, ?_⟩
      · intro mid hmid
        rcases List.prefix_concat_iff.1 hmid with rfl | hmid
        · refine ⟨_, ?_, rfl, rfl⟩
          simpa using hrow
        · simpa using hp.kept mid hmid
      · intro x hx
        obtain ⟨y, hy, rfl⟩ := List.mem_map.1 hx
        have hy' := hp.agreed y hy
        simp [hy']

/-! ## What a body names -/

/-- Rows nobody has answered are told apart by their entity and their hosts. -/
theorem Purge.eq_of_unanswered {r r' : Purge} (hentity : r.entity = r'.entity)
    (hhosts : r.hosts = r'.hosts) (h : ∀ x ∈ r.pinned, x.2 = false)
    (h' : ∀ x ∈ r'.pinned, x.2 = false) : r = r' := by
  obtain ⟨e, xs, size⟩ := r
  obtain ⟨e', ys, size'⟩ := r'
  obtain rfl : e = e' := hentity
  have hpinned : xs = ys := by
    simp only [Purge.hosts] at hhosts h h'
    clear size size'
    induction xs generalizing ys with
    | nil => exact (List.map_eq_nil_iff.1 hhosts.symm).symm
    | cons x xs ih =>
      obtain ⟨y, ys, rfl, hy, hys⟩ := List.map_eq_cons_iff.1 hhosts.symm
      have hxy : x = y := by
        obtain ⟨⟨b, hb⟩, flag⟩ := x
        obtain ⟨⟨b', hb'⟩, flag'⟩ := y
        obtain rfl : b' = b := hy
        obtain rfl : flag = false := h _ List.mem_cons_self
        obtain rfl : flag' = false := h' _ List.mem_cons_self
        rfl
      rw [hxy, ih (fun z hz => h z (List.mem_cons_of_mem _ hz)) ys
        (fun z hz => h' z (List.mem_cons_of_mem _ hz)) hys.symm]
  rw [hpinned]

/-- What `fzn_catalog_purge_decode` accepts, and the row it gives. -/
structure Accepted (entity body : Bytes) (r : Purge) : Prop where
  entity : r.entity = entity
  unanswered : ∀ x ∈ r.pinned, x.2 = false
  hosts : r.hosts = (List.range (body.getD 1 0).toNat).map (hostField body)
  object : body.getD 0 0 = objectPurge
  some_host : 0 < (body.getD 1 0).toNat
  few : (body.getD 1 0).toNat ≤ purgeHostsMax
  length : body.length = purgeHeadLen + (body.getD 1 0).toNat * purgeHostLen

theorem accepted_of_purgeDecode (h : purgeDecode entity body = .ok r) : Accepted entity body r := by
  rw [purgeDecode] at h
  split_ifs at h with hsize hlong hshort hobject
  simp only at h
  split_ifs at h with hcount hlen
  obtain rfl := Except.ok.inj h
  obtain ⟨hsome, hfew⟩ := not_or.1 hcount
  refine ⟨rfl, by simp [Purge.fresh], ?_, not_not.1 hobject, Nat.pos_of_ne_zero hsome,
    Nat.not_lt.1 hfew, hlen⟩
  rw [Purge.fresh_hosts, List.map_map, ← List.map_coe_finRange_eq_range, List.map_map]
  rfl

theorem purgeDecode_of_accepted (h : Accepted entity body r) : purgeDecode entity body = .ok r := by
  have hsize : entity.length = entityLen := h.entity ▸ r.size
  have hlen := h.length
  have hfew := h.few
  have hsome := h.some_host
  have hlong : ¬ recordBodyMax < body.length := by
    simp only [recordBodyMax, purgeHeadLen, purgeHostLen, purgeHostsMax] at *
    omega
  have hshort : ¬ body.length < purgeHeadLen := by omega
  rw [purgeDecode, dif_pos hsize, if_neg hlong, if_neg hshort, if_neg (not_not.2 h.object)]
  simp only
  rw [if_neg (by omega), dif_pos hlen]
  refine congrArg Except.ok (Purge.eq_of_unanswered h.entity.symm ?_ (by simp [Purge.fresh])
    h.unanswered)
  rw [Purge.fresh_hosts, h.hosts, List.map_map, ← List.map_coe_finRange_eq_range, List.map_map]
  rfl

theorem purgeEncode_ok {hosts : List Host} {cap : ℕ} (h : purgeEncode hosts cap = .ok body) :
    0 < hosts.length ∧ hosts.length ≤ purgeHostsMax ∧
      body = objectPurge :: UInt8.ofNat hosts.length :: hosts.flatMap Host.b := by
  rw [purgeEncode] at h
  split_ifs at h with hnone hmany
  simp only at h
  split_ifs at h
  exact ⟨Nat.pos_of_ne_zero hnone, Nat.not_lt.1 hmany, (Except.ok.inj h).symm⟩

/-- **What is encoded decodes** to a row that pins the hosts given. -/
theorem purgeDecode_encode {hosts : List Host} {cap : ℕ} (h : purgeEncode hosts cap = .ok body)
    (size : entity.length = entityLen) :
    purgeDecode entity body = .ok (Purge.fresh entity size hosts) := by
  obtain ⟨hsome, hfew, rfl⟩ := purgeEncode_ok h
  have hcount : (UInt8.ofNat hosts.length).toNat = hosts.length := by
    rw [UInt8.toNat_ofNat']
    simp only [purgeHostsMax] at hfew
    omega
  have hblocks : (hosts.flatMap Host.b).length = hosts.length * purgeHostLen :=
    Lib.length_flatMap_blocks fun x _ => x.size
  refine purgeDecode_of_accepted ⟨rfl, by simp [Purge.fresh], ?_, rfl, ?_, ?_, ?_⟩
  · rw [Purge.fresh_hosts, List.getD_cons_succ, List.getD_cons_zero, hcount]
    refine List.ext_getElem (by simp) fun i hi _ => ?_
    rw [List.length_map] at hi
    rw [List.getElem_map, List.getElem_map, List.getElem_range, hostField, ← List.drop_drop]
    exact (Lib.block_flatMap (fun x _ => x.size) hi).symm
  · simpa [hcount] using hsome
  · simpa [hcount] using hfew
  · simp [hcount, hblocks, purgeHeadLen]
    omega

/-- **What is decoded encodes to the same bytes.** -/
theorem purgeEncode_decode (h : purgeDecode entity body = .ok r) {cap : ℕ}
    (hcap : body.length ≤ cap) : purgeEncode (r.pinned.map Prod.fst) cap = .ok body := by
  have ha := accepted_of_purgeDecode h
  have hlen := ha.length
  have hfew := ha.few
  have hsome := ha.some_host
  have hcount : (r.pinned.map Prod.fst).length = (body.getD 1 0).toNat := by
    rw [List.length_map, ← List.length_map (f := fun x : Host × Bool => x.1.b)]
    exact (congrArg List.length ha.hosts).trans (by simp)
  have hroom : ¬ (cap < purgeHeadLen + (body.getD 1 0).toNat * purgeHostLen ∨
      recordBodyMax < purgeHeadLen + (body.getD 1 0).toNat * purgeHostLen) := by
    simp only [recordBodyMax, purgeHeadLen, purgeHostLen, purgeHostsMax] at *
    omega
  rw [purgeEncode, hcount, if_neg (by omega), if_neg (by omega)]
  simp only
  rw [if_neg hroom]
  refine congrArg Except.ok ?_
  match body, ha, hlen with
  | b :: n :: rest, ha, hlen =>
    have hnames : (r.pinned.map Prod.fst).flatMap Host.b = rest := by
      have hpieces : r.hosts = Lib.pieces purgeHostLen rest := by
        have hrest : rest.length = n.toNat * purgeHostLen + 0 := by
          simp only [List.length_cons, purgeHeadLen, List.getD_cons_succ, List.getD_cons_zero]
            at hlen
          omega
        rw [ha.hosts, Lib.pieces, hrest, Lib.pieceCount_add (by decide)]
        refine List.map_congr_left fun i _ => ?_
        rw [hostField, ← List.drop_drop]
        rfl
      rw [List.flatMap_map]
      exact (congrArg List.flatten hpieces).trans (Lib.flatten_pieces (by decide) rest)
    rw [hnames, List.getD_cons_succ, List.getD_cons_zero, UInt8.ofNat_toNat]
    exact congrArg (· :: n :: rest) ha.object.symm

/-- The hosts decoded are distinct where the body names none twice. -/
theorem nodup_hosts_iff (h : purgeDecode entity body = .ok r) :
    r.hosts.Nodup ↔ ∀ i j, i < j → j < (body.getD 1 0).toNat →
      hostField body i ≠ hostField body j := by
  rw [(accepted_of_purgeDecode h).hosts, List.Nodup, List.pairwise_iff_getElem]
  simp only [List.length_map, List.length_range, List.getElem_map, List.getElem_range]
  exact ⟨fun hne i j hij hj => hne i j (hij.trans hj) hj hij,
    fun hne i j _ hj hij => hne i j hij hj⟩

/-! ## A host named twice -/

/-- No place behind another of the same host is unmarked. -/
def AnsweredBehind (xs : List (Host × Bool)) : Prop :=
  xs.Pairwise fun x y => x.1.b = y.1.b → y.2 = true

/-- The places of other hosts stay as they are. -/
theorem mem_agreeIn {xs : List (Host × Bool)} {y : Host × Bool} (hne : y.1.b ≠ host)
    (hy : y ∈ xs) : y ∈ (agreeIn host xs).getD xs := by
  induction xs with
  | nil => exact hy
  | cons x xs ih =>
    rw [agreeIn]
    split_ifs with hhost
    · rcases List.mem_cons.1 hy with rfl | hy
      · exact absurd hhost hne
      · exact List.mem_cons_of_mem _ hy
    · rw [getD_map_cons, List.mem_cons]
      exact (List.mem_cons.1 hy).imp_right ih

/-- An agreement marks the first place of its host, so it leaves the others as they are. -/
theorem answeredBehind_of_agreeIn {xs : List (Host × Bool)}
    (h : AnsweredBehind ((agreeIn host xs).getD xs)) : AnsweredBehind xs := by
  induction xs with
  | nil => exact List.Pairwise.nil
  | cons x xs ih =>
    rw [agreeIn] at h
    split_ifs at h with hhost
    · obtain ⟨hx, hxs⟩ := List.pairwise_cons.1 h
      exact List.pairwise_cons.2 ⟨hx, hxs⟩
    · rw [getD_map_cons] at h
      obtain ⟨hx, hxs⟩ := List.pairwise_cons.1 h
      refine List.pairwise_cons.2 ⟨fun y hy hxy => hx y ?_ hxy, ih hxs⟩
      exact mem_agreeIn (fun heq => hhost (hxy.trans heq)) hy

/-- Alone in a table, a row is what the agreements make of it. -/
theorem runPurges_singleton (capacity : ℕ) (hosts : List Bytes) (r : Purge) :
    ∃ row : Purge, runPurges ⟨[r], capacity⟩ (hosts.map (.agree r.entity)) = ⟨[row], capacity⟩ ∧
      row.entity = r.entity ∧ (AnsweredBehind row.pinned → AnsweredBehind r.pinned) := by
  induction hosts generalizing r with
  | nil => exact ⟨r, rfl, rfl, id⟩
  | cons host hosts ih =>
    have hone : purgeStep ⟨[r], capacity⟩ (.agree r.entity host) =
        ⟨[r.told r.entity host], capacity⟩ := by
      have hrows := purgeAgree_rows (t := ⟨[r], capacity⟩) (List.nodup_singleton _) r.entity host
      have hcap : ∀ t : Purges, (purgeAgree t r.entity host).2.capacity = t.capacity := by
        intro t
        rw [purgeAgree]
        split_ifs
        · rfl
        · split
          · rfl
          · split <;> rfl
      exact congrArg₂ Purges.mk hrows (hcap _)
    have htold := r.told_entity r.entity host
    obtain ⟨row, hrun, hentity, hback⟩ := ih (r.told r.entity host)
    rw [htold] at hrun hentity
    refine ⟨row, ?_, hentity, fun h => ?_⟩
    · rw [List.map_cons, runPurges, List.foldl_cons, hone]
      exact hrun
    · have htold := hback h
      rw [Purge.told, if_pos rfl] at htold
      exact answeredBehind_of_agreeIn htold

/-- **A row that closes on the consent of its hosts** has none of them twice. -/
theorem nodup_hosts_of_closed (h : ∀ x ∈ r.pinned, x.2 = false)
    (hclosed : ∀ (t : Purges) (calls : List PurgeCall), (t.rows.map Purge.entity).Nodup →
      r ∈ t.rows → .eliminate r.entity ∉ calls → (∀ h ∈ r.hosts, .agree r.entity h ∈ calls) →
      purgeClosed (runPurges t calls) r.entity = true) : r.hosts.Nodup := by
  obtain ⟨row, hrun, hentity, hback⟩ := runPurges_singleton 1 r.hosts r
  have hend := hclosed ⟨[r], 1⟩ (r.hosts.map (.agree r.entity)) (List.nodup_singleton _)
    List.mem_cons_self (by simp) fun h hh => List.mem_map_of_mem hh
  rw [hrun, ← hentity, purgeClosed_eq (t := ⟨[row], 1⟩) (List.nodup_singleton _)
    List.mem_cons_self, List.all_eq_true] at hend
  have hbehind : AnsweredBehind row.pinned :=
    List.pairwise_of_forall_mem_list fun _ _ y hy _ => hend y hy
  rw [Purge.hosts, List.Nodup, List.pairwise_map]
  refine List.Pairwise.imp_of_mem (fun _ hy hxy heq => ?_) (hback hbehind)
  exact absurd (hxy heq) (by simp [h _ hy])

/-- **A purge closes on the consent of the hosts it pinned.**  In every run of the calls there
is one row for each entity; its hosts are the distinct live holders of when it was queued, and
it is closed as soon as each has agreed since; a closed row alone is eliminated, and the others
stay.  A body decodes to a row that encodes to the same bytes, and that closes in every run in
which its hosts agree, exactly where the body names no host twice. -/
theorem purge_closes_on_consent (capacity : ℕ) (calls : List PurgeCall) (entity body : Bytes)
    (r : Purge) :
    (let t := runPurges (purgesInit capacity) calls
     (t.rows.map Purge.entity).Nodup ∧
      (∀ r ∈ t.rows, ∃ pre set post, calls = pre ++ .queue set r.entity :: post ∧
        Pinned capacity r pre set post ∧
        (purgeClosed t r.entity = true ↔
          ∀ host ∈ holdersOf set r.entity, .agree r.entity host ∈ post)) ∧
      (∀ set entity, (purgeQueue t set entity).1 = .ok → ∃ r, r.entity = entity ∧
        r.hosts = holdersOf set entity ∧ (∀ x ∈ r.pinned, x.2 = false) ∧
        (purgeQueue t set entity).2.rows = t.rows ++ [r]) ∧
      (∀ entity, purgeClosed t entity = true → ∃ r ∈ t.rows, r.entity = entity) ∧
      ∀ entity, ((purgeEliminate t entity).1 = .ok ↔ purgeClosed t entity = true) ∧
        ((purgeEliminate t entity).1 = .ok →
          (purgeEliminate t entity).2.rows.Perm (t.rows.filter fun r => r.entity ≠ entity)) ∧
        ((purgeEliminate t entity).1 ≠ .ok → (purgeEliminate t entity).2 = t)) ∧
    (∀ hosts cap body, purgeEncode hosts cap = .ok body →
      ∀ entity (size : entity.length = entityLen),
        purgeDecode entity body = .ok (Purge.fresh entity size hosts)) ∧
    (purgeDecode entity body = .ok r →
      (((∀ cap, body.length ≤ cap → purgeEncode (r.pinned.map Prod.fst) cap = .ok body) ∧
        ∀ (t : Purges) (calls : List PurgeCall), (t.rows.map Purge.entity).Nodup →
          r ∈ t.rows → .eliminate r.entity ∉ calls →
          (∀ host ∈ r.hosts, .agree r.entity host ∈ calls) →
          purgeClosed (runPurges t calls) r.entity = true) ↔
      ∀ i j, i < j → j < (body.getD 1 0).toNat → hostField body i ≠ hostField body j)) := by
  refine ⟨?_, fun hosts cap body h entity size => purgeDecode_encode h size, fun h => ?_⟩
  · have hsound := (purgesInit_sound capacity).run calls
    refine ⟨hsound.entities, fun r hr => ?_, fun set entity hok => ?_, fun entity hclosed => ?_,
      fun entity => ?_⟩
    · obtain ⟨pre, set, post, hcalls, hp⟩ := exists_pinned hr
      refine ⟨pre, set, post, hcalls, hp, ?_⟩
      rw [purgeClosed_eq hsound.entities hr, List.all_eq_true, ← hp.hosts, Purge.hosts,
        List.forall_mem_map]
      exact forall₂_congr hp.agreed
    · rcases purgeQueue_cases _ set entity with ⟨hno, -⟩ | ⟨-, -, size, hosts, hhosts, hrows⟩
      · exact absurd hok hno
      · refine ⟨Purge.fresh entity size hosts, rfl, ?_, by simp [Purge.fresh], by rw [hrows]⟩
        rw [Purge.fresh_hosts, hhosts]
    · rw [purgeClosed] at hclosed
      split_ifs at hclosed
      split at hclosed
      · exact absurd hclosed (by simp)
      next row hfind => exact ⟨row, (find_eq_some_iff hsound.entities).1 hfind⟩
    · rcases purgeEliminate_cases hsound.entities entity with
        ⟨hno, hopen, hsame⟩ | ⟨hok, hclosed, hperm⟩
      · exact ⟨by simp [hno, hopen], fun hok => absurd hok hno, fun _ => hsame⟩
      · exact ⟨by simp [hok, hclosed], fun _ => hperm, fun hno => absurd hok hno⟩
  · rw [← nodup_hosts_iff h]
    exact ⟨fun ⟨_, hclosed⟩ => nodup_hosts_of_closed (accepted_of_purgeDecode h).unanswered hclosed,
      fun hn => ⟨fun _ hcap => purgeEncode_decode h hcap,
        fun _ _ hd hr hc hall => purgeClosed_runPurges hd hr hn hc hall⟩⟩

/-- A body that names `hosts`. -/
def purgeBody (hosts : List Bytes) : Bytes :=
  objectPurge :: UInt8.ofNat hosts.length :: hosts.flatten

/-- Two hosts named once each agree, the second first, and the purge is closed. -/
theorem purge_closes_on_consent_twoHosts : ∃ r,
    purgeDecode (List.replicate 32 7) (purgeBody [List.replicate 32 1, List.replicate 32 2]) =
      .ok r ∧
    purgeClosed (runPurges ⟨[r], 1⟩ [.agree (List.replicate 32 7) (List.replicate 32 2),
      .agree (List.replicate 32 7) (List.replicate 32 1)]) (List.replicate 32 7) = true := by
  refine ⟨_, rfl, (((purge_closes_on_consent 1 [] (List.replicate 32 7)
    (purgeBody [List.replicate 32 1, List.replicate 32 2]) _).2.2 rfl).2 ?_).2 ⟨[_], 1⟩ _
    (List.nodup_singleton _) List.mem_cons_self (by simp) (by decide)⟩
  intro i j hij hj
  obtain ⟨rfl, rfl⟩ : i = 0 ∧ j = 1 := by
    change j < 2 at hj
    omega
  decide

/-- One host named twice: it agrees twice, and the purge is not closed. -/
theorem purge_named_twice : ∃ r,
    purgeDecode (List.replicate 32 7) (purgeBody [List.replicate 32 1, List.replicate 32 1]) =
      .ok r ∧
    r.hosts = [List.replicate 32 1, List.replicate 32 1] ∧
    purgeClosed (runPurges ⟨[r], 1⟩ [.agree (List.replicate 32 7) (List.replicate 32 1),
      .agree (List.replicate 32 7) (List.replicate 32 1)]) (List.replicate 32 7) = false :=
  ⟨_, rfl, rfl, by decide⟩

end Catalog
end Fuzznet
