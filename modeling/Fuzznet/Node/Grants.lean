/-
# Whether a key holds a capability

`node/apply.c`: the grant index, the walk up from a key to a root, and
`fzn_node_apply_holds`.

The walk tries each grant naming a key, those that may be passed on first and then in the
order of the index, until one reaches a root.  It remembers, on the grants themselves, which
keys reached no root with so many hops left; those marks belong to one walk, by its number of
32 bits, one for the whole process, that passes over 0, the mark of a fresh grant.  Where no
grant is marked with its number (`Walks.Fresh`), as in the first 2^32 - 1 walks of a process,
it is `Lib.DeadEnds.search` and finds the first chain there is in that order
(`chainWalk_eq`), and `fzn_node_apply_holds` then asks `fzn_chain_verify` of that one alone:
an expired or a revoked chain that comes first hides one behind it that verifies
(`applyHolds_hidden`).  It answers as the existence of a chain does exactly where the first
chain proves or none does (`applyHolds_iff`).
-/

import Fuzznet.Chain.Verify
import Fuzznet.Lib.DeadEnds

namespace Fuzznet
namespace Node

open Wire Lib Chain

/-- `fzn_node_grant_t`; the grantor, the grantee and the capability are the hop's. -/
structure Grant where
  hop : Hop
  deadWalk : UInt32
  deadLeft : ℕ
  deriving DecidableEq

/-- The grants of a context, and the number of the process's last walk. -/
structure Walks where
  grants : List Grant
  walks : UInt32

/-- The hops of the index. -/
def Walks.hops (w : Walks) : List Hop := w.grants.map Grant.hop

/-- The number of the next walk, never 0. -/
def nextWalk (walks : UInt32) : UInt32 := if walks + 1 = 0 then 1 else walks + 1

/-- `fzn_node_apply_t`, of what a chain is judged by. -/
structure Apply where
  root : Key
  roots : Option (Key → Bool)
  now : Option UInt64
  sign : SignOps
  revocations : Option RevocationStore

/-- `is_root`. -/
def Apply.isRoot (ap : Apply) (key : Key) : Bool :=
  key == ap.root || ap.roots.any fun member => member key

/-- `dead_at`. -/
def deadAt (grants : List Grant) (walk : UInt32) (key : Key) (left : ℕ) : Bool :=
  grants.any fun g => g.deadWalk == walk && decide (left ≤ g.deadLeft) && g.hop.grantee == key

/-- `mark_dead`. -/
def markDead (grants : List Grant) (walk : UInt32) (key : Key) (left : ℕ) : List Grant :=
  grants.map fun g =>
    if g.hop.grantee ≠ key then g
    else
      { g with
        deadWalk := walk
        deadLeft := if g.deadWalk ≠ walk ∨ g.deadLeft < left then left else g.deadLeft }

/-- The grants `walk_up` tries at a key, in its two passes. -/
def grantsNaming (hops : List Hop) (capability : CapId) (key : Key) : List Hop :=
  let naming := hops.filter fun hop => hop.grantee == key && hop.capability == capability
  naming.filter (·.delegable) ++ naming.filter (!·.delegable)

theorem deadAt_markDead {grants : List Grant} {walk : UInt32} {key key' : Key} {left left' : ℕ}
    (h : deadAt (markDead grants walk key left) walk key' left' = true) :
    deadAt grants walk key' left' = true ∨ key' = key ∧ left' ≤ left := by
  obtain ⟨g', hg', hdead⟩ := List.any_eq_true.1 h
  obtain ⟨g, hg, rfl⟩ := List.mem_map.1 hg'
  rw [Bool.and_eq_true_iff, Bool.and_eq_true_iff, beq_iff_eq, beq_iff_eq,
    decide_eq_true_eq] at hdead
  split at hdead
  next =>
    refine .inl (List.any_eq_true.2 ⟨g, hg, ?_⟩)
    rw [Bool.and_eq_true_iff, Bool.and_eq_true_iff, beq_iff_eq, beq_iff_eq, decide_eq_true_eq]
    exact hdead
  next hkey =>
    obtain ⟨⟨-, hleft⟩, hgrantee⟩ := hdead
    rw [not_not] at hkey
    dsimp only at hleft hgrantee
    split at hleft
    next => exact .inr ⟨hgrantee.symm.trans hkey, hleft⟩
    next hmarked =>
      rw [not_or, not_not] at hmarked
      refine .inl (List.any_eq_true.2 ⟨g, hg, ?_⟩)
      rw [Bool.and_eq_true_iff, Bool.and_eq_true_iff, beq_iff_eq, beq_iff_eq, decide_eq_true_eq]
      exact ⟨⟨hmarked.1, hleft⟩, hgrantee⟩

/-- `walk_up`, as a search with so many hops left; a key is marked with one more, which is
`FZN_CHAIN_MAX_HOPS` less the depth. -/
def walkUp (ap : Apply) (hops : List Hop) (capability : CapId) (walk : UInt32) :
    DeadEnds Key Hop (List Grant) where
  goal := ap.isRoot
  edges := grantsNaming hops capability
  target := Hop.grantor
  dead grants key left := deadAt grants walk key (left + 1)
  mark grants key left := markDead grants walk key (left + 1)
  dead_mark h := (deadAt_markDead h).imp_right fun h => ⟨h.1, Nat.le_of_succ_le_succ h.2⟩

theorem markDead_walked {grants : List Grant} {walk : UInt32}
    (h : ∀ g ∈ grants, g.deadWalk ≤ walk) (key : Key) (left : ℕ) :
    ∀ g ∈ markDead grants walk key left, g.deadWalk ≤ walk := by
  intro g' hg'
  obtain ⟨g, hg, rfl⟩ := List.mem_map.1 hg'
  split
  next => exact h g hg
  next => exact UInt32.le_refl walk

/-- The marks behind a walk are of this walk or of one before it. -/
theorem walkUp_walked (ap : Apply) (hops : List Hop) (capability : CapId) {walk : UInt32} (n : ℕ)
    (key : Key) {grants : List Grant} (h : ∀ g ∈ grants, g.deadWalk ≤ walk) :
    ∀ g ∈ ((walkUp ap hops capability walk).search n key grants).2, g.deadWalk ≤ walk :=
  DeadEnds.search_induction (P := fun gs : List Grant => ∀ g ∈ gs, g.deadWalk ≤ walk)
    (fun _ key left h => markDead_walked h key (left + 1)) h

/-- `fzn_node_apply_chain`: the chain, root first, and the grants behind the walk. -/
def chainWalk (ap : Apply) (w : Walks) (key : Key) (capability : CapId) :
    Option (List Hop) × Walks :=
  let walk := nextWalk w.walks
  let found := (walkUp ap w.hops capability walk).search (chainMaxHops - 1) key w.grants
  (found.1.map List.reverse, ⟨found.2, walk⟩)

/-- `chain_proves`. -/
def chainProves (ap : Apply) (key : Key) (hops : List Hop) (capability : CapId) : Bool :=
  match hops.head? with
  | none => false
  | some first =>
    decide (hops.length ≤ chainMaxHops) && ap.isRoot first.grantor &&
      match chainVerify hops first.grantor capability (ap.now.getD 0) ap.sign ap.revocations
        none with
      | .ok verdict => verdict.grantee == key
      | .error _ => false

/-- `fzn_node_apply_holds`, and the grants behind it. -/
def applyHolds (ap : Apply) (w : Walks) (key : Key) (capability : CapId) : Bool × Walks :=
  if ap.isRoot key then (true, w)
  else
    match chainWalk ap w key capability with
    | (some hops, w') => (chainProves ap key hops capability, w')
    | (none, w') => (false, w')

/-! ## Runs -/

/-- What changes the grants of a context or the number of its next walk. -/
inductive WalkStep
  /-- A walk in this context. -/
  | ask (ap : Apply) (key : Key) (capability : CapId)
  /-- A walk in another context of the process. -/
  | elsewhere
  /-- `index_add` of a grant, with room for it. -/
  | add (hop : Hop)
  /-- The last grant taken out again, when it was not kept. -/
  | unadd

/-- One step of a process. -/
def Walks.step (w : Walks) : WalkStep → Walks
  | .ask ap key capability => (chainWalk ap w key capability).2
  | .elsewhere => { w with walks := nextWalk w.walks }
  | .add hop => if hop ∈ w.hops then w else { w with grants := w.grants ++ [⟨hop, 0, 0⟩] }
  | .unadd => { w with grants := w.grants.dropLast }

/-- A run. -/
def Walks.run (w : Walks) (steps : List WalkStep) : Walks := steps.foldl Walks.step w

/-- No grant is marked with the number of the next walk. -/
def Walks.Fresh (w : Walks) : Prop := ∀ g ∈ w.grants, g.deadWalk ≠ nextWalk w.walks

/-- No grant is marked with a number past the last walk's. -/
def Walks.Marked (w : Walks) : Prop := ∀ g ∈ w.grants, g.deadWalk ≤ w.walks

section Run

variable {w : Walks}

theorem nextWalk_of_lt {walks : UInt32} (h : walks.toNat + 1 < 2 ^ 32) :
    (nextWalk walks).toNat = walks.toNat + 1 := by
  have hnat : (walks + 1).toNat = walks.toNat + 1 := by
    rw [UInt32.toNat_add]
    exact Nat.mod_eq_of_lt h
  unfold nextWalk
  rw [if_neg, hnat]
  intro hzero
  rw [hzero] at hnat
  exact Nat.succ_ne_zero _ hnat.symm

theorem Walks.Marked.fresh (h : w.Marked) (hlt : w.walks.toNat + 1 < 2 ^ 32) : w.Fresh := by
  intro g hg heq
  have hle := UInt32.le_iff_toNat_le.1 (h g hg)
  rw [heq, nextWalk_of_lt hlt] at hle
  omega

/-- **A step takes the number on by one at the most, and marks with no number past it.** -/
theorem Walks.Marked.step (h : w.Marked) (s : WalkStep) (hlt : w.walks.toNat + 1 < 2 ^ 32) :
    (w.step s).Marked ∧ (w.step s).walks.toNat ≤ w.walks.toNat + 1 := by
  have hnext := nextWalk_of_lt hlt
  have hlater : ∀ g ∈ w.grants, g.deadWalk ≤ nextWalk w.walks := fun g hg => by
    have hle := UInt32.le_iff_toNat_le.1 (h g hg)
    rw [UInt32.le_iff_toNat_le]
    omega
  cases s with
  | ask ap key capability =>
    exact ⟨walkUp_walked ap w.hops capability (chainMaxHops - 1) key hlater, hnext.le⟩
  | elsewhere => exact ⟨hlater, hnext.le⟩
  | add hop =>
    unfold Walks.step
    dsimp only
    split_ifs
    · exact ⟨h, Nat.le_succ _⟩
    · refine ⟨fun g hg => ?_, Nat.le_succ _⟩
      rcases List.mem_append.1 hg with hg | hg
      · exact h g hg
      · rw [List.mem_singleton.1 hg]
        exact Nat.zero_le _
  | unadd => exact ⟨fun g hg => h g (List.dropLast_subset _ hg), Nat.le_succ _⟩

theorem Walks.Marked.run (h : w.Marked) (steps : List WalkStep)
    (hlt : w.walks.toNat + steps.length < 2 ^ 32) :
    (w.run steps).Marked ∧ (w.run steps).walks.toNat ≤ w.walks.toNat + steps.length := by
  induction steps generalizing w with
  | nil => exact ⟨h, Nat.le_refl _⟩
  | cons s steps ih =>
    rw [List.length_cons] at hlt
    obtain ⟨hmarked, hle⟩ := h.step s (by omega)
    obtain ⟨hrun, hle'⟩ := ih hmarked (by omega)
    exact ⟨hrun, by rw [List.length_cons]; exact hle'.trans (by omega)⟩

end Run

/-! ## The first chain -/

/-- The chains of a key up to a first root, the key's own grant first, in the order they are
preferred: at each step a grant that may be passed on before one that may not, and then in
the order of the index. -/
def chainsOf (ap : Apply) (hops : List Hop) (capability : CapId) (key : Key) : List (List Hop) :=
  (walkUp ap hops capability 0).paths (chainMaxHops - 1) key

/-- The marks of an index that is fresh say nothing of the walk. -/
theorem Walks.Fresh.sound {w : Walks} (h : w.Fresh) (ap : Apply) (capability : CapId) :
    (walkUp ap w.hops capability (nextWalk w.walks)).Sound w.grants := by
  intro a n hdead
  obtain ⟨g, hg, hmarked⟩ := List.any_eq_true.1 hdead
  rw [Bool.and_eq_true_iff, Bool.and_eq_true_iff, beq_iff_eq] at hmarked
  exact absurd hmarked.1.1 (h g hg)

/-- **The walk finds the first chain**, where no grant is marked with its number. -/
theorem chainWalk_eq {w : Walks} (h : w.Fresh) (ap : Apply) (key : Key) (capability : CapId) :
    (chainWalk ap w key capability).1 =
      (chainsOf ap w.hops capability key).head?.map List.reverse := by
  have hfound := (DeadEnds.search_eq (n := chainMaxHops - 1) (a := key) (h.sound ap capability)).1
  have hpaths : (walkUp ap w.hops capability (nextWalk w.walks)).paths (chainMaxHops - 1) key =
      chainsOf ap w.hops capability key := DeadEnds.paths_congr rfl rfl rfl _ _
  rw [← hpaths, ← hfound]
  rfl

/-! ## The chains that prove -/

/-- A chain of grants of the index proves that a key holds a capability. -/
def Proven (ap : Apply) (hops : List Hop) (capability : CapId) (key : Key) : Prop :=
  ∃ chain : List Hop, chain.length ≤ chainMaxHops - 1 ∧ (∀ hop ∈ chain, hop ∈ hops) ∧
    chainProves ap key chain capability = true

/-- The first chain proves, where any does. -/
def FirstProves (ap : Apply) (hops : List Hop) (capability : CapId) (key : Key) : Prop :=
  Proven ap hops capability key → ∀ chain ∈ (chainsOf ap hops capability key).head?,
    chainProves ap key chain.reverse capability = true

section Proves

variable {ap : Apply} {hops chain : List Hop} {capability : CapId} {key : Key} {walk : UInt32}

theorem mem_grantsNaming {hop : Hop} : hop ∈ grantsNaming hops capability key ↔
    hop ∈ hops ∧ hop.grantee = key ∧ hop.capability = capability := by
  have hnaming : hop ∈ hops.filter (fun hop => hop.grantee == key && hop.capability == capability) ↔
      hop ∈ hops ∧ hop.grantee = key ∧ hop.capability = capability := by
    rw [List.mem_filter, Bool.and_eq_true_iff, beq_iff_eq, beq_iff_eq]
  unfold grantsNaming
  rw [List.mem_append, List.mem_filter, hnaming, List.mem_filter, hnaming]
  constructor
  · rintro (⟨h, -⟩ | ⟨h, -⟩) <;> exact h
  · intro h
    cases hdelegable : hop.delegable with
    | true => exact .inl ⟨h, rfl⟩
    | false => exact .inr ⟨h, rfl⟩

/-- A chain walked is of the index. -/
theorem leads_mem {path : List Hop} (h : (walkUp ap hops capability walk).Leads key path) :
    ∀ hop ∈ path, hop ∈ hops := by
  induction path generalizing key with
  | nil => exact fun hop hhop => absurd hhop List.not_mem_nil
  | cons e rest ih =>
    rintro hop (_ | ⟨_, hhop⟩)
    · exact (mem_grantsNaming.1 h.1).1
    · exact ih h.2 hop hhop

/-- What pass one lets through leads up from its last grantee. -/
theorem leads_of_passOne {now : UInt64} {revoked : ℕ → Bool} {i : ℕ} {prev : Option Hop}
    {soonest out : UInt64} {at' : Key} {above : List Hop}
    (hpass : passOne capability now revoked i prev soonest chain = .ok out)
    (hprev : ∀ p ∈ prev, p.grantee = at')
    (hfirst : prev = none → ∀ hop ∈ chain.head?, hop.grantor = at')
    (hmem : ∀ hop ∈ chain, hop ∈ hops)
    (habove : (walkUp ap hops capability walk).Leads at' above) :
    (walkUp ap hops capability walk).Leads ((chain.getLast?.map Hop.grantee).getD at')
      (chain.reverse ++ above) := by
  induction chain generalizing i prev soonest at' above with
  | nil => exact habove
  | cons hop rest ih =>
    rw [passOne] at hpass
    split_ifs at hpass with hcap hlink hissued hexpired hrevoked
    have hgrantor : hop.grantor = at' := by
      cases prev with
      | none => exact hfirst rfl hop rfl
      | some p =>
        have hnext : hop.grantor = p.grantee := by
          by_contra hne
          exact hlink (by rw [Option.any_some, bne_iff_ne.2 hne]; rfl)
        exact hnext.trans (hprev p rfl)
    have hthis : (walkUp ap hops capability walk).Leads hop.grantee (hop :: above) := by
      refine ⟨mem_grantsNaming.2 ⟨hmem hop List.mem_cons_self, rfl, not_not.1 hcap⟩, ?_⟩
      show (walkUp ap hops capability walk).Leads hop.grantor above
      rw [hgrantor]
      exact habove
    have hbehind := ih hpass (fun p hp => Option.some.inj hp ▸ rfl) (fun hnone => by cases hnone)
      (fun h hh => hmem h (List.mem_cons_of_mem _ hh)) hthis
    rw [List.reverse_cons, List.append_assoc, List.singleton_append]
    cases rest with
    | nil => exact hbehind
    | cons next rest =>
      rw [List.getLast?_cons_cons]
      have hlast : ((next :: rest).getLast?.map Hop.grantee).getD hop.grantee =
          ((next :: rest).getLast?.map Hop.grantee).getD at' := by
        rw [List.getLast?_cons]
        rfl
      exact hlast ▸ hbehind

/-- **A chain that proves leads up from its key to a root.** -/
theorem leads_of_proves (hproves : chainProves ap key chain capability = true)
    (hmem : ∀ hop ∈ chain, hop ∈ hops) :
    (walkUp ap hops capability walk).Leads key chain.reverse := by
  unfold chainProves at hproves
  cases hhead : chain.head? with
  | none => rw [hhead] at hproves; cases hproves
  | some first =>
    rw [hhead] at hproves
    dsimp only at hproves
    rw [Bool.and_eq_true_iff, Bool.and_eq_true_iff] at hproves
    obtain ⟨⟨-, hroot⟩, hverified⟩ := hproves
    cases hverify : chainVerify chain first.grantor capability (ap.now.getD 0) ap.sign
      ap.revocations none with
    | error e => rw [hverify] at hverified; cases hverified
    | ok verdict =>
      rw [hverify] at hverified
      obtain ⟨-, -, hpass, -, -, hverdict⟩ := chainVerify_ok.1 hverify
      have habove : (walkUp ap hops capability walk).Leads first.grantor [] := hroot
      have hleads := leads_of_passOne hpass (fun p hp => by cases hp)
        (fun _ hop hhop => by rw [hhead] at hhop; exact Option.some.inj hhop ▸ rfl) hmem habove
      rw [List.append_nil] at hleads
      have hkey : verdict.grantee = key := beq_iff_eq.1 hverified
      rw [← hkey, hverdict]
      show (walkUp ap hops capability walk).Leads ((chain.getLast?.map Hop.grantee).getD 0) _
      cases hlast : chain.getLast? with
      | none =>
        rw [List.getLast?_eq_none_iff] at hlast
        rw [hlast] at hhead
        cases hhead
      | some last =>
        rw [hlast] at hleads
        exact hleads

end Proves

theorem applyHolds_fresh {w : Walks} (hfresh : w.Fresh) (ap : Apply) (key : Key)
    (capability : CapId) :
    ((applyHolds ap w key capability).1 = true ↔
      ap.isRoot key = true ∨ Proven ap w.hops capability key) ↔
    ap.isRoot key = true ∨ FirstProves ap w.hops capability key := by
  unfold applyHolds
  split
  next hroot => exact iff_of_true (iff_of_true rfl (.inl hroot)) (.inl hroot)
  next hroot =>
    rw [or_iff_right hroot, or_iff_right hroot]
    have hchain := chainWalk_eq hfresh ap key capability
    have hsome : Proven ap w.hops capability key →
        (chainsOf ap w.hops capability key).head? ≠ none := by
      rintro ⟨chain, hlen, hmem, hproves⟩ hnone
      exact DeadEnds.paths_ne_nil (leads_of_proves hproves hmem)
        (by rw [List.length_reverse]; exact hlen) (List.head?_eq_none_iff.1 hnone)
    cases hfound : chainWalk ap w key capability with
    | mk found w' =>
      rw [hfound] at hchain
      cases hfirst : (chainsOf ap w.hops capability key).head? with
      | none =>
        rw [hfirst] at hchain hsome
        obtain rfl : found = none := hchain
        refine iff_of_true (iff_of_false Bool.noConfusion fun h => hsome h rfl) ?_
        intro h
        exact absurd rfl (hsome h)
      | some path =>
        rw [hfirst] at hchain
        obtain rfl : found = some path.reverse := hchain
        dsimp only
        have hmem : path ∈ chainsOf ap w.hops capability key := List.mem_of_head? hfirst
        obtain ⟨hleads, hlen⟩ := DeadEnds.leads_of_mem hmem
        have hproven : chainProves ap key path.reverse capability = true →
            Proven ap w.hops capability key := by
          intro hproves
          refine ⟨path.reverse, by rw [List.length_reverse]; exact hlen, ?_, hproves⟩
          intro hop hhop
          exact leads_mem hleads hop (List.mem_reverse.1 hhop)
        unfold FirstProves
        rw [hfirst]
        constructor
        · intro h hany chain hchain'
          obtain rfl := Option.some.inj hchain'
          exact h.2 hany
        · intro h
          exact ⟨hproven, fun hany => h hany path rfl⟩

/-- **Holding a capability, and proving it.**  `fzn_node_apply_holds` answers whether a key
is a root or some chain of the index proves it, exactly where the key is a root, or the first
of its chains proves or none does: in every state of a run in which no grant is marked with
the number of the walk to come, and that is every state of a run from marks up to the
counter that does not take the counter round. -/
theorem applyHolds_iff (w : Walks) (steps : List WalkStep) (ap : Apply) (key : Key)
    (capability : CapId) :
    ((w.run steps).Fresh →
      (((applyHolds ap (w.run steps) key capability).1 = true ↔
        ap.isRoot key = true ∨ Proven ap (w.run steps).hops capability key) ↔
      ap.isRoot key = true ∨ FirstProves ap (w.run steps).hops capability key)) ∧
    (w.Marked → w.walks.toNat + steps.length + 1 < 2 ^ 32 → (w.run steps).Fresh) := by
  refine ⟨fun hfresh => applyHolds_fresh hfresh ap key capability, fun hmarked hlt => ?_⟩
  obtain ⟨hrun, hle⟩ := hmarked.run steps (by omega)
  exact hrun.fresh (by omega)

/-- Two grants of one key by one root, that differ in their expiry. -/
def grantTo (expiresAt : UInt64) : Grant := ⟨⟨1, 2, ⟨5⟩, 1, expiresAt, true, 0⟩, 0, 0⟩

/-- The index of both, in one of two orders, at the start of a process. -/
def twoGrants (first second : UInt64) : Walks := ⟨[grantTo first, grantTo second], 0⟩

/-- A node with one root that takes every signature, at second 10. -/
def oneRoot : Apply := ⟨1, none, some 10, acceptingSign, none⟩

/-- The hypotheses are met behind a walk that has marked both grants, for a capability no
grant is of. -/
theorem applyHolds_second_walk :
    (applyHolds oneRoot ((twoGrants noExpiry 5).run [.ask oneRoot 2 ⟨6⟩]) 2 ⟨5⟩).1 = true ↔
      oneRoot.isRoot 2 = true ∨
        Proven oneRoot ((twoGrants noExpiry 5).run [.ask oneRoot 2 ⟨6⟩]).hops ⟨5⟩ 2 := by
  have h := applyHolds_iff (twoGrants noExpiry 5) [.ask oneRoot 2 ⟨6⟩] oneRoot 2 ⟨5⟩
  refine (h.1 (h.2 (by unfold Walks.Marked; decide) (by decide))).2 (.inr fun _ chain hchain => ?_)
  obtain rfl := Option.some.inj hchain
  decide +kernel

/-- **A grant that expired hides one that has not**, where it comes first. -/
theorem applyHolds_hidden :
    ¬((applyHolds oneRoot (twoGrants 5 noExpiry) 2 ⟨5⟩).1 = true ↔
      oneRoot.isRoot 2 = true ∨ Proven oneRoot (twoGrants 5 noExpiry).hops ⟨5⟩ 2) ∧
    (applyHolds oneRoot (twoGrants noExpiry 5) 2 ⟨5⟩).1 = true := by
  constructor
  · intro h
    have hproven : Proven oneRoot (twoGrants 5 noExpiry).hops ⟨5⟩ 2 :=
      ⟨[(grantTo noExpiry).hop], by decide, by decide +kernel, by decide +kernel⟩
    exact absurd (h.2 (.inr hproven)) (by decide)
  · decide

end Node
end Fuzznet
