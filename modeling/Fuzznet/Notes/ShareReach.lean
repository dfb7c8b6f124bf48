/-
# What a share reaches

`notes/share.c` and `notes/sync.c`.  `fzn_notes_share_reach` walks out from the seeds of a share: a
note joins when any claim on it names a parent that is in, and each joins once, since a mark on
the first claim of a note in the order of the ids stands for the note.  So, wherever the
claims' parents lead, it lists the least set with the seeds and what claims put under it
(`Shared`), as far as there is room (`share_reaches`).

`fzn_notes_sync_scope_admits` admits a record whose note is listed and which was not issued
before the floor listed beside it, read in turn or, where the list is in order, looked up.

The order `qsort` leaves rows with one key in is not said, so the rows are sorted by any
`sort` that does sort (`Sorts`).
-/

import Fuzznet.Lib.Reach
import Fuzznet.Lib.Search
import Fuzznet.Notes.View
import Mathlib.Data.Set.Card

namespace Fuzznet
namespace Notes

open Wire Record Lib
open Fuzznet.Tree

/-- What a `qsort` of claims by an id owes: the same rows, in the order of the ids. -/
structure Sorts (sort : (TreeNode → Bytes32) → List TreeNode → List TreeNode) : Prop where
  perm : ∀ key l, (sort key l).Perm l
  sorted : ∀ key l, (sort key l).Pairwise fun a b => (key a).toNat ≤ (key b).toNat

/-- `first_at`, by a row's id or its parent; ids compare as the numbers they are. -/
def rowAt (key : TreeNode → Bytes32) (rows : List TreeNode) (id : Bytes32) : ℕ :=
  firstAt (fun node => (key node).toNat) rows id.toNat

/-- `out` and `seen` of `fzn_notes_share_reach`. -/
structure ShareWalk (cap : ℕ) where
  out : List Bytes32
  fits : out.length ≤ cap
  seen : List Bool

section Walk

variable (named under : List TreeNode) {cap : ℕ}

/-- The loop of the seeds. -/
def seedTurns (cap : ℕ) : List Bytes32 → List Bytes32 → List Bytes32
  | [], out => out
  | seed :: seeds, out =>
    if out.length < cap then
      if out.any (fun id => decide (id = seed)) then seedTurns cap seeds out
      else seedTurns cap seeds (out ++ [seed])
    else out

/-- A seed's mark, where a claim is on it. -/
def markSeed (seen : List Bool) (id : Bytes32) : List Bool :=
  if (named[rowAt TreeNode.id named id]?).any (fun node => decide (node.id = id)) then
    seen.set (rowAt TreeNode.id named id) true
  else seen

/-- The inner loop of the walk, from where the claims under `parent` begin. -/
def shareTurns (parent : Bytes32) : List TreeNode → ShareWalk cap → ShareWalk cap
  | [], s => s
  | node :: rows, s =>
    if h : node.parent = parent ∧ s.out.length < cap then
      if s.seen.getD (rowAt TreeNode.id named node.id) false then shareTurns parent rows s
      else shareTurns parent rows ⟨s.out ++ [node.id],
        by rw [List.length_append, List.length_singleton]; exact h.2,
        s.seen.set (rowAt TreeNode.id named node.id) true⟩
    else s

/-- The walk. -/
def shareLoop (i : ℕ) (s : ShareWalk cap) : List Bytes32 :=
  match h : s.out[i]? with
  | none => s.out
  | some id => shareLoop (i + 1)
      (shareTurns named id (under.drop (rowAt TreeNode.parent under id)) s)
termination_by cap - i
decreasing_by
  have hlt := (List.getElem?_eq_some_iff.1 h).1
  have hfits := s.fits
  omega

end Walk

theorem length_seedTurns_le {cap : ℕ} {seeds out : List Bytes32} (h : out.length ≤ cap) :
    (seedTurns cap seeds out).length ≤ cap := by
  induction seeds generalizing out with
  | nil => exact h
  | cons seed seeds ih =>
    rw [seedTurns]
    split_ifs with hroom
    · exact ih h
    · exact ih (by rw [List.length_append, List.length_singleton]; omega)
    · exact h

/-- `fzn_notes_share_reach`. -/
def shareReach (sort : (TreeNode → Bytes32) → List TreeNode → List TreeNode)
    (nodes : List TreeNode) (seeds : List Bytes32) (cap : ℕ) : List Bytes32 :=
  let under := if nodes.length > 1 then sort TreeNode.parent nodes else nodes
  let named := if nodes.length > 1 then sort TreeNode.id nodes else nodes
  shareLoop named under 0 ⟨seedTurns cap seeds [], length_seedTurns_le (Nat.zero_le cap),
    (seedTurns cap seeds []).foldl (markSeed named) (List.replicate nodes.length false)⟩

/-! ## The marks -/

/-- The claims stand in the order of an id. -/
abbrev InOrder (key : TreeNode → Bytes32) (rows : List TreeNode) : Prop :=
  rows.Pairwise fun a b => (key a).toNat ≤ (key b).toNat

/-- A note some claim is on. -/
def Claimed (named : List TreeNode) (id : Bytes32) : Prop := ∃ node ∈ named, node.id = id

section Seen

variable {named under : List TreeNode} {out seeds : List Bytes32} {seen : List Bool}
  {id id' : Bytes32} {cap : ℕ}

/-- The search for a note with a claim ends at a claim on it. -/
theorem getElem?_rowAt (hnamed : InOrder TreeNode.id named) (h : Claimed named id) :
    ∃ node, named[rowAt TreeNode.id named id]? = some node ∧ node.id = id := by
  obtain ⟨claim, hclaim, rfl⟩ := h
  obtain ⟨node, -, hat, heq⟩ := getElem?_firstAt hnamed ⟨claim, hclaim, rfl⟩
  exact ⟨node, hat, BitVec.eq_of_toNat_eq heq⟩

/-- Notes with claims have marks of their own. -/
theorem rowAt_inj (hnamed : InOrder TreeNode.id named) (h : Claimed named id)
    (h' : Claimed named id') (heq : rowAt TreeNode.id named id = rowAt TreeNode.id named id') :
    id = id' := by
  obtain ⟨node, hat, rfl⟩ := getElem?_rowAt hnamed h
  obtain ⟨node', hat', rfl⟩ := getElem?_rowAt hnamed h'
  rw [heq, hat'] at hat
  rw [Option.some.inj hat]

/-- The marks of the notes listed: of those that have claims. -/
structure SeenOk (named : List TreeNode) (out : List Bytes32) (seen : List Bool) : Prop where
  length : seen.length = named.length
  iff : ∀ id, Claimed named id →
    (seen.getD (rowAt TreeNode.id named id) false = true ↔ id ∈ out)

theorem seenOk_nil (named : List TreeNode) :
    SeenOk named [] (List.replicate named.length false) := by
  refine ⟨List.length_replicate, fun id _ => ⟨fun h => ?_, fun h => absurd h List.not_mem_nil⟩⟩
  rw [List.getD_eq_getElem?_getD, List.getElem?_replicate] at h
  split_ifs at h
  · cases h
  · cases h

/-- A note with a claim is listed and marked. -/
theorem SeenOk.add (h : SeenOk named out seen) (hnamed : InOrder TreeNode.id named)
    (hid : Claimed named id) :
    SeenOk named (out ++ [id]) (seen.set (rowAt TreeNode.id named id) true) := by
  refine ⟨by rw [List.length_set, h.length], fun id' hid' => ?_⟩
  obtain ⟨node, hat, -⟩ := getElem?_rowAt hnamed hid
  have hlt := (List.getElem?_eq_some_iff.1 hat).1
  rw [List.getD_eq_getElem?_getD, List.mem_append, List.mem_singleton]
  by_cases heq : id' = id
  · obtain rfl := heq
    rw [List.getElem?_set_self (by rw [h.length]; exact hlt)]
    exact ⟨fun _ => Or.inr rfl, fun _ => rfl⟩
  · rw [List.getElem?_set_ne fun hrow => heq (rowAt_inj hnamed hid hid' hrow).symm,
      ← List.getD_eq_getElem?_getD, h.iff id' hid']
    exact ⟨Or.inl, fun hor => hor.resolve_right heq⟩

theorem SeenOk.markSeed (h : SeenOk named out seen) (hnamed : InOrder TreeNode.id named)
    (id : Bytes32) : SeenOk named (out ++ [id]) (markSeed named seen id) := by
  unfold Notes.markSeed
  split_ifs with hon
  · obtain ⟨node, hat, heq⟩ := (Option.any_eq_true ..).1 hon
    exact h.add hnamed ⟨node, List.mem_of_getElem? hat, of_decide_eq_true heq⟩
  · refine ⟨h.length, fun id' hid' => ?_⟩
    rw [h.iff id' hid', List.mem_append, List.mem_singleton]
    refine ⟨Or.inl, fun hor => hor.resolve_right ?_⟩
    rintro rfl
    obtain ⟨node, hat, heq⟩ := getElem?_rowAt hnamed hid'
    exact hon (by rw [hat]; exact decide_eq_true heq)

/-- **The seeds listed are marked**, those that have claims. -/
theorem seenOk_seeds (hnamed : InOrder TreeNode.id named) (out : List Bytes32) :
    SeenOk named out (out.foldl (markSeed named) (List.replicate named.length false)) := by
  induction out using List.reverseRecOn with
  | nil => exact seenOk_nil named
  | append_singleton out id ih =>
    rw [List.foldl_append]
    exact ih.markSeed hnamed id

/-! ## The walk -/

theorem seedTurns_eq (cap : ℕ) (seeds out : List Bytes32) :
    seedTurns cap seeds out = listed cap out seeds := by
  induction seeds generalizing out with
  | nil => rfl
  | cons seed seeds ih =>
    have hany : out.any (fun id => decide (id = seed)) = true ↔ seed ∈ out := by
      simp only [List.any_eq_true, decide_eq_true_eq, exists_eq_right]
    rw [seedTurns]
    split_ifs with hroom hin
    · rw [listed, if_pos (Or.inr (hany.1 hin))]
      exact ih out
    · rw [listed, if_neg (not_or.2 ⟨Nat.not_le.2 hroom, fun hmem => hin (hany.2 hmem)⟩)]
      exact ih _
    · exact (listed_full (Nat.not_lt.1 hroom) _).symm

/-- **The inner loop lists the notes of the claims under a parent**, and marks them. -/
theorem shareTurns_spec (hnamed : InOrder TreeNode.id named) (parent : Bytes32)
    {rows : List TreeNode} (hrows : ∀ node ∈ rows, node ∈ named) {s : ShareWalk cap}
    (hseen : SeenOk named s.out s.seen) :
    (shareTurns named parent rows s).out =
        listed cap s.out ((rows.takeWhile fun node => decide (node.parent = parent)).map
          TreeNode.id) ∧
      SeenOk named (shareTurns named parent rows s).out (shareTurns named parent rows s).seen := by
  induction rows generalizing s with
  | nil => exact ⟨rfl, hseen⟩
  | cons node rows ih =>
    have hclaimed : Claimed named node.id := ⟨node, hrows node List.mem_cons_self, rfl⟩
    have hrest : ∀ node ∈ rows, node ∈ named := fun n hn => hrows n (List.mem_cons_of_mem _ hn)
    rw [shareTurns]
    by_cases hparent : node.parent = parent
    · rw [List.takeWhile_cons_of_pos (by simpa using hparent), List.map_cons]
      by_cases hroom : s.out.length < cap
      · rw [dif_pos ⟨hparent, hroom⟩]
        by_cases hmark : s.seen.getD (rowAt TreeNode.id named node.id) false = true
        · rw [if_pos hmark, listed, if_pos (Or.inr ((hseen.iff _ hclaimed).1 hmark))]
          exact ih hrest hseen
        · rw [if_neg hmark, listed, if_neg (not_or.2 ⟨Nat.not_le.2 hroom,
            fun hin => hmark ((hseen.iff _ hclaimed).2 hin)⟩)]
          exact ih hrest (hseen.add hnamed hclaimed)
      · rw [dif_neg fun h => hroom h.2, listed_full (Nat.not_lt.1 hroom)]
        exact ⟨rfl, hseen⟩
    · rw [List.takeWhile_cons_of_neg (by simpa using hparent), dif_neg fun h => hparent h.1]
      exact ⟨rfl, hseen⟩

/-- The notes put under a note, in the order the walk meets them. -/
def putUnder (under : List TreeNode) (id : Bytes32) : List Bytes32 :=
  ((under.drop (rowAt TreeNode.parent under id)).takeWhile fun node =>
    decide (node.parent = id)).map TreeNode.id

theorem mem_putUnder (hunder : InOrder TreeNode.parent under) :
    id' ∈ putUnder under id ↔ ∃ node ∈ under, node.parent = id ∧ node.id = id' := by
  have hkey : (fun node : TreeNode => decide (node.parent = id)) =
      fun node => decide (node.parent.toNat = id.toNat) :=
    funext fun node => decide_eq_decide.2 BitVec.toNat_inj.symm
  rw [putUnder, List.mem_map, hkey]
  refine exists_congr fun node => ?_
  rw [rowAt, mem_run hunder, BitVec.toNat_inj, and_assoc]

/-- **The walk keeps its invariant to its end.** -/
theorem shareLoop_spec {start : Bytes32 → Prop} (hnamed : InOrder TreeNode.id named)
    (hrows : ∀ node ∈ under, node ∈ named) {i : ℕ} {s : ShareWalk cap}
    (hwalk : Walking (putUnder under) cap start i s.out) (hseen : SeenOk named s.out s.seen) :
    ∃ n, (shareLoop named under i s).length ≤ n ∧
      Walking (putUnder under) cap start n (shareLoop named under i s) := by
  induction i, s using shareLoop.induct named under with
  | case1 i s hend =>
    rw [shareLoop]
    split
    · exact ⟨i, List.getElem?_eq_none_iff.1 hend, hwalk⟩
    · next hat => rw [hend] at hat; cases hat
  | case2 i s id hat ih =>
    have hdrop : ∀ node ∈ under.drop (rowAt TreeNode.parent under id), node ∈ named :=
      fun node hnode => hrows node (List.mem_of_mem_drop hnode)
    obtain ⟨hout, hnext⟩ := shareTurns_spec hnamed id hdrop hseen
    rw [shareLoop]
    split
    · next hend => rw [hat] at hend; cases hend
    · next id' hat' =>
        obtain rfl := Option.some.inj (hat.symm.trans hat')
        refine ih ?_ hnext
        rw [hout]
        exact hwalk.next hat

end Seen

/-- **What a share covers**: the least set with the seeds and every note some claim of which
names a parent in the set. -/
def Shared (nodes : List TreeNode) (seeds : List Bytes32) : Bytes32 → Prop :=
  Reach (· ∈ seeds) fun parent id => ∃ node ∈ nodes, node.parent = parent ∧ node.id = id

section Reached

variable {sort : (TreeNode → Bytes32) → List TreeNode → List TreeNode} {nodes : List TreeNode}
  {seeds : List Bytes32} {cap : ℕ}

theorem Sorts.rows (hsort : Sorts sort) (key : TreeNode → Bytes32) (nodes : List TreeNode) :
    (if nodes.length > 1 then sort key nodes else nodes).Perm nodes ∧
      InOrder key (if nodes.length > 1 then sort key nodes else nodes) := by
  split_ifs with hmany
  · exact ⟨hsort.perm key nodes, hsort.sorted key nodes⟩
  · refine ⟨List.Perm.refl _, ?_⟩
    match nodes, hmany with
    | [], _ => exact .nil
    | [node], _ => exact List.pairwise_singleton _ node
    | _ :: _ :: _, hmany => exact absurd (by simp) hmany

/-- The walk from the seeds. -/
theorem shareReach_spec (hsort : Sorts sort) (nodes : List TreeNode) (seeds : List Bytes32)
    (cap : ℕ) :
    (shareReach sort nodes seeds cap).Nodup ∧ (shareReach sort nodes seeds cap).length ≤ cap ∧
      (∀ id ∈ shareReach sort nodes seeds cap, Shared nodes seeds id) ∧
      ((shareReach sort nodes seeds cap).length < cap → ∀ id, Shared nodes seeds id →
        id ∈ shareReach sort nodes seeds cap) := by
  obtain ⟨hnamed, hnamedOrder⟩ := hsort.rows TreeNode.id nodes
  obtain ⟨hunder, hunderOrder⟩ := hsort.rows TreeNode.parent nodes
  unfold shareReach
  set named := if nodes.length > 1 then sort TreeNode.id nodes else nodes with hnamedDef
  set under := if nodes.length > 1 then sort TreeNode.parent nodes else nodes with hunderDef
  have hshared : ∀ id, Reach (· ∈ seeds) (fun a b => b ∈ putUnder under a) id ↔
      Shared nodes seeds id := by
    refine fun id => reach_equiv (Equiv.refl Bytes32) (fun _ => Iff.rfl) fun parent id => ?_
    rw [mem_putUnder hunderOrder]
    exact exists_congr fun node => and_congr_left fun _ => hunder.mem_iff
  have hstart : Walking (putUnder under) cap (· ∈ seeds) 0 (seedTurns cap seeds []) := by
    rw [seedTurns_eq]
    refine ⟨nodup_listed List.nodup_nil, length_listed_le (Nat.zero_le cap), fun id hid => ?_,
      fun hroom id hid => mem_listed hroom hid, fun _ j hj => absurd hj (Nat.not_lt_zero j)⟩
    exact .start ((of_mem_listed hid).resolve_left List.not_mem_nil)
  have hseen := seenOk_seeds hnamedOrder (seedTurns cap seeds [])
  rw [hnamed.length_eq] at hseen
  obtain ⟨n, hlen, hwalk⟩ := shareLoop_spec hnamedOrder
    (fun node hnode => hnamed.mem_iff.2 (hunder.mem_iff.1 hnode))
    (s := ⟨seedTurns cap seeds [], length_seedTurns_le (Nat.zero_le cap), _⟩) hstart hseen
  obtain ⟨hnodup, hfits, hreached, hall⟩ := hwalk.done hlen
  exact ⟨hnodup, hfits, fun id hid => (hshared id).1 (hreached id hid),
    fun hroom id hid => hall hroom id ((hshared id).2 hid)⟩

/-- A share covers its seeds and notes with claims. -/
theorem Shared.mem {id : Bytes32} (h : Shared nodes seeds id) :
    id ∈ seeds ++ nodes.map TreeNode.id := by
  refine Reach.mem (S := (· ∈ seeds ++ nodes.map TreeNode.id)) (fun id hid => ?_) ?_ h
  · exact List.mem_append_left _ hid
  · rintro parent id - ⟨node, hnode, -, rfl⟩
    exact List.mem_append_right _ (List.mem_map_of_mem hnode)

/-- **With room for the seeds and the claims, all the share covers is listed.** -/
theorem mem_shareReach (hsort : Sorts sort) (hroom : nodes.length + seeds.length ≤ cap)
    (id : Bytes32) : id ∈ shareReach sort nodes seeds cap ↔ Shared nodes seeds id := by
  obtain ⟨hnodup, -, hreached, hall⟩ := shareReach_spec hsort nodes seeds cap
  refine ⟨hreached id, fun hid => ?_⟩
  by_contra hno
  have hsub : id :: shareReach sort nodes seeds cap ⊆ seeds ++ nodes.map TreeNode.id := by
    intro x hx
    rcases List.mem_cons.1 hx with rfl | hx
    · exact hid.mem
    · exact (hreached x hx).mem
  have hle := ((List.nodup_cons.2 ⟨hno, hnodup⟩).subperm hsub).length_le
  rw [List.length_cons, List.length_append, List.length_map] at hle
  exact hno (hall (by omega) id hid)

/-- **As many are listed as there is room for**, or as the share covers. -/
theorem length_shareReach (hsort : Sorts sort) (nodes : List TreeNode) (seeds : List Bytes32)
    (cap : ℕ) :
    (shareReach sort nodes seeds cap).length = min cap {id | Shared nodes seeds id}.ncard := by
  obtain ⟨hnodup, hfits, hreached, hall⟩ := shareReach_spec hsort nodes seeds cap
  have hfin : {id | Shared nodes seeds id}.Finite :=
    (List.finite_toSet (seeds ++ nodes.map TreeNode.id)).subset fun id hid => Shared.mem hid
  have hcard : {id | id ∈ shareReach sort nodes seeds cap}.ncard =
      (shareReach sort nodes seeds cap).length := by
    rw [← List.toFinset_card_of_nodup hnodup, ← Set.ncard_coe_finset]
    congr 1
    ext id
    simp
  have hle : (shareReach sort nodes seeds cap).length ≤ {id | Shared nodes seeds id}.ncard := by
    rw [← hcard]
    exact Set.ncard_le_ncard (fun id hid => hreached id hid) hfin
  rcases Nat.lt_or_ge (shareReach sort nodes seeds cap).length cap with hroom | hfull
  · have hge : {id | Shared nodes seeds id}.ncard ≤ (shareReach sort nodes seeds cap).length := by
      rw [← hcard]
      exact Set.ncard_le_ncard (fun id hid => hall hroom id hid) (List.finite_toSet _)
    omega
  · omega

end Reached

/-! ## The scope of a share -/

/-- `fzn_notes_sync_scope_t`. -/
structure SyncScope where
  ids : List Bytes32
  floorMs : Option (List UInt64)
  sorted : Bool

/-- `scope_at`: where the note stands, or the count. -/
def scopeAt (scope : SyncScope) (id : Bytes32) : ℕ :=
  if scope.sorted = false then scope.ids.idxOf id
  else if firstAt BitVec.toNat scope.ids id.toNat < scope.ids.length ∧
      scope.ids[firstAt BitVec.toNat scope.ids id.toNat]? = some id then
    firstAt BitVec.toNat scope.ids id.toNat
  else scope.ids.length

/-- `fzn_notes_sync_scope_admits`; no scope is every record. -/
def scopeAdmits (scope : Option SyncScope) (r : RecordView) : Bool :=
  match scope with
  | none => true
  | some scope =>
    if scopeAt scope (recordSubject r) = scope.ids.length then false
    else match scope.floorMs with
      | none => true
      | some floors =>
        decide (floors.getD (scopeAt scope (recordSubject r)) 0 ≤ recordIssuedMs r)

/-- A scope over some notes: each once, and in order where it says so. -/
structure ScopeOver (ids : List Bytes32) (scope : SyncScope) : Prop where
  perm : scope.ids.Perm ids
  order : scope.sorted = true → scope.ids.Pairwise fun a b => a.toNat ≤ b.toNat

/-- Not below its floor: wherever the note stands in the scope, what stands beside it. -/
def NotBelow (scope : SyncScope) (r : RecordView) : Prop :=
  ∀ floors ∈ scope.floorMs, ∀ i, scope.ids[i]? = some (recordSubject r) →
    floors.getD i 0 ≤ recordIssuedMs r

section Scope

variable {ids : List Bytes32} {scope : SyncScope} {id : Bytes32} {r : RecordView}

/-- A note in the scope is found there, and another is not. -/
theorem scopeAt_spec (h : ScopeOver ids scope) (id : Bytes32) :
    (id ∈ scope.ids ∧ scope.ids[scopeAt scope id]? = some id) ∨
      (id ∉ scope.ids ∧ scopeAt scope id = scope.ids.length) := by
  unfold scopeAt
  by_cases hin : id ∈ scope.ids
  · refine Or.inl ⟨hin, ?_⟩
    split_ifs with hturn hfound
    · rw [List.getElem?_eq_getElem (List.idxOf_lt_length_of_mem hin), List.getElem_idxOf]
    · exact hfound.2
    · obtain ⟨id', -, hat, heq⟩ := getElem?_firstAt (h.order (Bool.eq_true_of_not_eq_false hturn))
        ⟨id, hin, rfl⟩
      obtain rfl := BitVec.eq_of_toNat_eq heq
      exact absurd ⟨(List.getElem?_eq_some_iff.1 hat).1, hat⟩ hfound
  · refine Or.inr ⟨hin, ?_⟩
    split_ifs with hturn hfound
    · exact List.idxOf_eq_length hin
    · exact absurd (List.mem_of_getElem? hfound.2) hin
    · rfl

/-- **A scope admits the records of its notes** that are not below their floors. -/
theorem scopeAdmits_iff (h : ScopeOver ids scope) (hnodup : ids.Nodup) (r : RecordView) :
    scopeAdmits (some scope) r = true ↔ recordSubject r ∈ ids ∧ NotBelow scope r := by
  have hmem : recordSubject r ∈ scope.ids ↔ recordSubject r ∈ ids := h.perm.mem_iff
  unfold scopeAdmits
  rcases scopeAt_spec h (recordSubject r) with ⟨hin, hat⟩ | ⟨hout, hend⟩
  · have hlt := (List.getElem?_eq_some_iff.1 hat).1
    -- each note stands once, so what is beside it is one floor
    have hone : ∀ i, scope.ids[i]? = some (recordSubject r) →
        i = scopeAt scope (recordSubject r) := fun i hi =>
      (List.getElem?_inj (List.getElem?_eq_some_iff.1 hi).1 (h.perm.nodup_iff.2 hnodup)).1
        (hi.trans hat.symm)
    simp only [if_neg hlt.ne]
    rcases hfloor : scope.floorMs with _ | floors
    · refine ⟨fun _ => ⟨hmem.1 hin, fun floors hf => ?_⟩, fun _ => rfl⟩
      rw [hfloor] at hf
      cases hf
    · refine decide_eq_true_iff.trans ⟨fun hle => ⟨hmem.1 hin, fun floors' hf i hi => ?_⟩,
        fun hadm => hadm.2 floors hfloor _ hat⟩
      rw [hfloor] at hf
      rw [hone i hi, ← Option.some.inj hf]
      exact hle
  · simp only [if_pos hend]
    exact ⟨fun hno => (by cases hno), fun hadm => absurd (hmem.2 hadm.1) hout⟩

end Scope

/-- **A share reaches exactly its subtree**, wherever the claims' parents lead: each note once,
as many as there is room for or as the share covers; and the scope over what is listed, in any
order or in that of the ids, admits a record when its note is listed and it is not below its
floor. -/
theorem share_reaches (sort : (TreeNode → Bytes32) → List TreeNode → List TreeNode)
    (hsort : Sorts sort) (v : NotesView) (seeds : List Bytes32) (cap : ℕ) :
    (shareReach sort v.nodes seeds cap).Nodup ∧
      (∀ id ∈ shareReach sort v.nodes seeds cap, Shared v.nodes seeds id) ∧
      (shareReach sort v.nodes seeds cap).length =
        min cap {id | Shared v.nodes seeds id}.ncard ∧
      (v.nodes.length + seeds.length ≤ cap →
        ∀ id, id ∈ shareReach sort v.nodes seeds cap ↔ Shared v.nodes seeds id) ∧
      ∀ scope, ScopeOver (shareReach sort v.nodes seeds cap) scope → ∀ r,
        (scopeAdmits (some scope) r = true ↔
          recordSubject r ∈ shareReach sort v.nodes seeds cap ∧ NotBelow scope r) := by
  obtain ⟨hnodup, -, hreached, -⟩ := shareReach_spec hsort v.nodes seeds cap
  exact ⟨hnodup, hreached, length_shareReach hsort v.nodes seeds cap,
    fun hroom id => mem_shareReach hsort hroom id, fun scope h r => scopeAdmits_iff h hnodup r⟩

/-! ## Two notes outside a share -/

/-- Claims sorted by an id, of one id in some order. -/
def idSort (key : TreeNode → Bytes32) (l : List TreeNode) : List TreeNode :=
  sortBy (fun node => (key node).toNat) l

theorem sorts_idSort : Sorts idSort :=
  ⟨fun _ l => sortBy_perm l, fun key l => by
    have htotal : Std.Total fun a b : TreeNode => (key a).toNat ≤ (key b).toNat :=
      ⟨fun a b => Nat.le_total _ _⟩
    have htrans : IsTrans TreeNode fun a b => (key a).toNat ≤ (key b).toNat :=
      ⟨fun a b c => Nat.le_trans⟩
    exact List.pairwise_insertionSort _ l⟩

/-- Two notes at the top. -/
def topView : NotesView :=
  ⟨0, [⟨5, 0, 0, 0, []⟩, ⟨6, 0, 0, 0, []⟩], [1, 1], Vector.replicate 2 true, 0, none, 0, 0⟩

/-- A note with one under it, which has one under itself; a second writer puts the one in the
middle under the last.  And a note beside them. -/
def nestedView : NotesView :=
  ⟨0, [⟨5, 0, 0, 0, []⟩, ⟨6, 5, 0, 0, []⟩, ⟨7, 6, 0, 0, []⟩, ⟨6, 7, 0, 0, []⟩, ⟨8, 0, 0, 0, []⟩],
    [1, 1, 1, 2, 1], Vector.replicate 5 true, 0, none, 0, 0⟩

/-- A share of the note in the middle, and of a note nobody has a claim for, with room for all: it
reaches the note below and no other, and what is older than the floor of that one is not
admitted. -/
theorem share_reaches_nested :
    shareReach idSort nestedView.nodes [6, 9] 7 = [6, 9, 7] ∧
      (∀ id, Shared nestedView.nodes [6, 9] id ↔ id ∈ [6, 9, 7]) ∧
      ∀ r, (scopeAdmits (some ⟨[6, 7, 9], some [0, 3, 0], true⟩) r = true ↔
        recordSubject r ∈ [6, 9, 7] ∧ NotBelow ⟨[6, 7, 9], some [0, 3, 0], true⟩ r) := by
  have hlist : shareReach idSort nestedView.nodes [6, 9] 7 = [6, 9, 7] := by decide +kernel
  obtain ⟨-, -, -, hall, hadmits⟩ := share_reaches idSort sorts_idSort nestedView [6, 9] 7
  rw [hlist] at hall hadmits
  exact ⟨hlist, fun id => (hall (by decide) id).symm,
    hadmits _ ⟨by decide, fun _ => by decide⟩⟩

/-- **Room for one note more, and none to list**: a share of nothing, with room for less than
there are claims, lists fewer notes than there is room for. -/
theorem share_reaches_fewer :
    1 < topView.nodes.length + ([] : List Bytes32).length ∧
      (shareReach idSort topView.nodes [] 1).length ≠ 1 := by
  refine ⟨by decide, ?_⟩
  have hnone : {id | Shared topView.nodes [] id} = ∅ := by
    refine Set.eq_empty_iff_forall_notMem.2 fun id hid => ?_
    exact Reach.mem (S := fun _ => False) (fun _ h => absurd h List.not_mem_nil)
      (fun _ _ h _ => h) hid
  rw [length_shareReach sorts_idSort, hnone, Set.ncard_empty]
  decide

end Notes
end Fuzznet
