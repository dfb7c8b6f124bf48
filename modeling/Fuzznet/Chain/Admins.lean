/-
# Which admins stand

`chain/revocation.c`: the scan of `confirm_admins` and
`fzn_revocation_confirmed`, `confirm_admins`, `standing_admins`.

The scan stops early, at a root's confirmation or at the last one needed; what
it answers is still a fact about the whole table (`scanConfirms_iff`): a root
confirmed the grant, or enough distinct admins that count did.  It is monotone
in who counts, so the rounds settle on the least set closed under the test, and
the admins that stand hold each other up from a root and from nothing else:
`standingAdmins_wellFounded`.
-/

import Fuzznet.Chain.Judge
import Mathlib.Data.Finset.Card
import Mathlib.Data.Finset.Dedup
import Mathlib.Data.Finset.Lattice.Lemmas

namespace Fuzznet
namespace Chain

open Wire

variable {s : RevocationStore}

/-- The distinct admins `stands` names that confirm a grant. -/
def confirmers (s : RevocationStore) (grant : RecId) (grantor : Key) (stands : ℕ → Bool)
    (cs : List Confirm) : Finset Key :=
  ((cs.filter fun c => confirmsGrant grant grantor c && (findAdmin s c.confirmer).any stands).map
    Confirm.confirmer).toFinset

variable {stands : ℕ → Bool} {a : ℕ} {ad : Admin} {eligible : Option (ℕ → Bool)}

theorem mem_confirmers {grant : RecId} {grantor x : Key} {cs : List Confirm} :
    x ∈ confirmers s grant grantor stands cs ↔
      x ≠ grantor ∧ (∃ c ∈ cs, c.grant = grant ∧ c.confirmer = x) ∧
        (findAdmin s x).any stands = true := by
  simp only [confirmers, confirmsGrant, List.mem_toFinset, List.mem_map, List.mem_filter,
    Bool.and_eq_true, decide_eq_true_eq]
  constructor
  · rintro ⟨c, ⟨hc, ⟨hg, hne⟩, ha⟩, rfl⟩
    exact ⟨hne, ⟨c, hc, hg, rfl⟩, ha⟩
  · rintro ⟨hne, ⟨c, hc, hg, rfl⟩, ha⟩
    exact ⟨c, ⟨hc, ⟨hg, hne⟩, ha⟩, rfl⟩

/-- A confirmation the scan does not count adds no confirmer, and one it counts
adds its own. -/
theorem confirmers_cons (grant : RecId) (grantor : Key) (stands : ℕ → Bool) (c : Confirm)
    (cs : List Confirm) :
    confirmers s grant grantor stands (c :: cs) =
      if confirmsGrant grant grantor c && (findAdmin s c.confirmer).any stands then
        insert c.confirmer (confirmers s grant grantor stands cs)
      else confirmers s grant grantor stands cs := by
  unfold confirmers
  rw [List.filter_cons]
  split_ifs <;> simp

/-- **What the scan answers, the early stops gone:** a root confirmed the grant,
or `need` distinct admins that count did. -/
theorem scanConfirms_iff {grant : RecId} {grantor first : Key} {need : ℕ} {cs : List Confirm}
    {seen : List Key} (hseen : seen.Nodup) :
    scanConfirms s grant grantor first need stands cs seen = true ↔
      (∃ c ∈ cs, confirmsGrant grant grantor c = true ∧
        rootConfirms s c.confirmer first c.act = true) ∨
      need ≤ (seen.toFinset ∪ confirmers s grant grantor stands cs).card := by
  induction cs generalizing seen with
  | nil => simp [scanConfirms, scanWith, confirmers, List.toFinset_card_of_nodup hseen]
  | cons c cs ih =>
    unfold scanConfirms at ih ⊢
    rw [scanWith]
    split_ifs with hlen hskip hroot hcount
    · have hle : need ≤ (seen.toFinset ∪ confirmers s grant grantor stands (c :: cs)).card :=
        hlen.trans ((List.toFinset_card_of_nodup hseen).ge.trans
          (Finset.card_le_card Finset.subset_union_left))
      exact iff_of_true rfl (Or.inr hle)
    · rw [ih hseen, confirmers_cons, hskip]
      simp [hskip]
    · exact iff_of_true rfl
        (Or.inl ⟨c, List.mem_cons_self, by simpa using hskip, hroot⟩)
    · have hyes : confirmsGrant grant grantor c = true := by simpa using hskip
      rw [ih (List.nodup_cons.2 ⟨hcount.2, hseen⟩), confirmers_cons, hyes, hcount.1]
      simp [hroot]
    · have hyes : confirmsGrant grant grantor c = true := by simpa using hskip
      rw [ih hseen, confirmers_cons, hyes]
      by_cases hst : (findAdmin s c.confirmer).any stands = true
      · -- The confirmer is one already seen.
        have hin : c.confirmer ∈ seen := by
          by_contra hnot
          exact hcount ⟨hst, hnot⟩
        rw [hst]
        simp [hroot, Finset.insert_eq_of_mem, hin]
      · simp [hroot, hst]

/-- The scan over the whole table, from nothing seen. -/
theorem scanConfirms_nil_iff {grant : RecId} {grantor first : Key} {need : ℕ} {cs : List Confirm} :
    scanConfirms s grant grantor first need stands cs [] = true ↔
      (∃ c ∈ cs, confirmsGrant grant grantor c = true ∧
        rootConfirms s c.confirmer first c.act = true) ∨
      need ≤ (confirmers s grant grantor stands cs).card := by
  rw [scanConfirms_iff List.nodup_nil, List.toFinset_nil, Finset.empty_union]

/-- More admins that count, more confirmers. -/
theorem confirmers_mono {stands stands' : ℕ → Bool} (h : ∀ b, stands b → stands' b) (grant : RecId)
    (grantor : Key) (cs : List Confirm) :
    confirmers s grant grantor stands cs ⊆ confirmers s grant grantor stands' cs := by
  intro x hx
  rw [mem_confirmers] at hx ⊢
  obtain ⟨hne, hc, ha⟩ := hx
  obtain ⟨b, hb, hst⟩ := (Option.any_eq_true _ _).1 ha
  exact ⟨hne, hc, (Option.any_eq_true _ _).2 ⟨b, hb, h b hst⟩⟩

/-- The root an admin's chain starts at. -/
def Admin.first (ad : Admin) : Key := (ad.hops.head?.map AdminHop.grantor).getD 0

/-- The hops behind the first that no root granted: those that want a
confirmation. -/
def nonRootHops (s : RevocationStore) (ad : Admin) : List AdminHop :=
  ad.hops.tail.filter fun hop => !rootGranted s ad.first hop

/-- The hop has a confirmation from a root that counts. -/
def RootConfirmed (s : RevocationStore) (ad : Admin) (hop : AdminHop) : Prop :=
  ∃ c ∈ s.confirms, confirmsGrant hop.hopId hop.grantor c = true ∧
    rootConfirms s c.confirmer ad.first c.act = true

/-- The hop is confirmed, counting the admins `stands` names. -/
def HopConfirmed (s : RevocationStore) (stands : ℕ → Bool) (ad : Admin) (hop : AdminHop) : Prop :=
  RootConfirmed s ad hop ∨
    confirmsNeeded s ≤ (confirmers s hop.hopId hop.grantor stands s.confirms).card

/-- **An admin passes the test exactly when each hop no root granted is
confirmed.** -/
theorem hopsConfirmed_iff :
    hopsConfirmed s stands ad = true ↔ ∀ hop ∈ nonRootHops s ad, HopConfirmed s stands ad hop := by
  unfold hopsConfirmed nonRootHops HopConfirmed RootConfirmed Admin.first
  cases ad.hops with
  | nil => simp
  | cons hop0 hops =>
    simp only [List.all_eq_true, Bool.or_eq_true, scanConfirms_nil_iff, List.tail_cons,
      List.mem_filter, Bool.not_eq_true', List.head?_cons, Option.map_some, Option.getD_some,
      and_imp]
    refine forall₂_congr fun hop _ => ?_
    cases rootGranted s hop0.grantor hop <;> simp

/-- A hop stays confirmed when more admins count. -/
theorem HopConfirmed.mono {stands stands' : ℕ → Bool} (h : ∀ b, stands b → stands' b)
    {hop : AdminHop} (hc : HopConfirmed s stands ad hop) : HopConfirmed s stands' ad hop :=
  hc.imp_right fun hle => hle.trans (Finset.card_le_card (confirmers_mono h _ _ _))

theorem adminTest_iff {c : ℕ → Bool} :
    adminTest s eligible c a = true ↔ ∃ ad, s.admins[a]? = some ad ∧ adminRooted s ad = true ∧
      ∀ hop ∈ nonRootHops s ad, HopConfirmed s (confirmerStands eligible c) ad hop := by
  simp only [adminTest, Option.any_eq_true, Bool.and_eq_true, hopsConfirmed_iff]

theorem adminTest_mono (eligible : Option (ℕ → Bool)) : Lib.MonoTest (adminTest s eligible) := by
  intro c d hcd a ha
  obtain ⟨ad, had, hroot, hhops⟩ := adminTest_iff.1 ha
  refine adminTest_iff.2 ⟨ad, had, hroot, fun hop hhop => (hhops hop hhop).mono fun b hb => ?_⟩
  simp only [confirmerStands, Bool.and_eq_true] at hb ⊢
  exact ⟨hcd b hb.1, hb.2⟩

section Confirmations

variable (hall : confirmsAll s = false)
include hall

theorem confirmAdmins_eq (eligible : Option (ℕ → Bool)) :
    confirmAdmins s eligible = Lib.rounds (adminTest s eligible) (List.range s.admins.length)
      (s.admins.length + 1) fun _ => false := by
  rw [confirmAdmins, hall]
  rfl

/-- **Every confirmed admin passes the test the confirmed admins put.** -/
theorem confirmAdmins_supported (ha : confirmAdmins s eligible a = true) :
    adminTest s eligible (confirmAdmins s eligible) a = true := by
  rw [confirmAdmins_eq hall] at ha ⊢
  exact Lib.rounds_supported (adminTest_mono eligible) _ _ _ (by simp) a ha

/-- **An admin that passes the test the confirmed admins put is confirmed.** -/
theorem confirmAdmins_closed (ha : adminTest s eligible (confirmAdmins s eligible) a = true) :
    confirmAdmins s eligible a = true := by
  obtain ⟨ad, had, -⟩ := adminTest_iff.1 ha
  obtain ⟨hlt, -⟩ := List.getElem?_eq_some_iff.1 had
  rw [confirmAdmins_eq hall] at ha ⊢
  exact Lib.rounds_closed (by simp [Lib.down]) a (List.mem_range.2 hlt) ha

/-- **Nothing is confirmed that a set closed under the test leaves out.** -/
theorem confirmAdmins_least {d : ℕ → Bool} (hd : ∀ a, adminTest s eligible d a → d a)
    (ha : confirmAdmins s eligible a = true) : d a = true := by
  rw [confirmAdmins_eq hall] at ha
  exact Lib.rounds_least (adminTest_mono eligible) (fun a _ => hd a) _ _ (by simp) a ha

/-- An admin that stands has each hop no root granted confirmed by a root or by
admins that stand. -/
theorem standingAdmins_supported (had : s.admins[a]? = some ad) (ha : standingAdmins s a = true) :
    ∀ hop ∈ nonRootHops s ad, HopConfirmed s (standingAdmins s) ad hop := by
  simp only [standingAdmins, Bool.and_eq_true] at ha
  obtain ⟨ad', had', -, hhops⟩ := adminTest_iff.1 (confirmAdmins_supported hall ha.2)
  obtain rfl : ad = ad' := Option.some.inj (had.symm.trans had')
  refine fun hop hhop => (hhops hop hhop).mono fun b hb => ?_
  simpa [confirmerStands, standingAdmins, and_comm] using hb

end Confirmations

/-- The hop is confirmed by no root, and by no admin outside `S`. -/
def ConfirmedWithin (s : RevocationStore) (S : Finset ℕ) (ad : Admin) (hop : AdminHop) : Prop :=
  ∀ c ∈ s.confirms, confirmsGrant hop.hopId hop.grantor c = true →
    rootConfirms s c.confirmer ad.first c.act = false ∧
      (findAdmin s c.confirmer).all (fun b => b ∈ S) = true

instance (s : RevocationStore) (S : Finset ℕ) (ad : Admin) (hop : AdminHop) :
    Decidable (ConfirmedWithin s S ad hop) :=
  inferInstanceAs (Decidable (∀ c ∈ s.confirms, _))

/-- A hop confirmed within `S` alone is not confirmed by admins outside it. -/
theorem ConfirmedWithin.not_hopConfirmed {S : Finset ℕ} {hop : AdminHop}
    (h : ConfirmedWithin s S ad hop) (hneed : 0 < confirmsNeeded s)
    (hout : ∀ b ∈ S, stands b = false) : ¬HopConfirmed s stands ad hop := by
  rintro (⟨c, hc, hg, hroot⟩ | hle)
  · exact absurd hroot (by simp [(h c hc hg).1])
  · obtain ⟨x, hx⟩ := Finset.card_pos.1 (hneed.trans_le hle)
    obtain ⟨hne, ⟨c, hc, hg, rfl⟩, ha⟩ := mem_confirmers.1 hx
    obtain ⟨b, hb, hst⟩ := (Option.any_eq_true _ _).1 ha
    have hin := (h c hc (by simp [confirmsGrant, hg, hne])).2
    rw [hb] at hin
    exact absurd hst (by simp [hout b (by simpa using hin)])

/-- **Admin standing is well founded.**  Every admin that stands has each hop no
root granted confirmed by a root that counts or by `k - 1` distinct standing
admins other than its grantor; and admins that each have such a hop, all of
them confirmed by no root and by no admin but these same ones, do not stand. -/
theorem standingAdmins_wellFounded (hc : s.confirmHash.isSome = true) (hk : 1 < s.quorum) :
    (∀ a ad, s.admins[a]? = some ad → standingAdmins s a = true →
      ∀ hop ∈ nonRootHops s ad, HopConfirmed s (standingAdmins s) ad hop) ∧
    ∀ S : Finset ℕ, (∀ a ∈ S, ∃ ad, s.admins[a]? = some ad ∧ nonRootHops s ad ≠ [] ∧
        ∀ hop ∈ nonRootHops s ad, ConfirmedWithin s S ad hop) →
      ∀ a ∈ S, standingAdmins s a = false := by
  have hneed : 0 < confirmsNeeded s := by
    unfold confirmsNeeded quorumOf; split_ifs <;> omega
  have hall : confirmsAll s = false := by
    obtain ⟨hash, hhash⟩ := Option.isSome_iff_exists.1 hc
    simp [confirmsAll, hhash, show confirmsNeeded s ≠ 0 by omega]
  refine ⟨fun a ad had ha => standingAdmins_supported hall had ha, fun S hS a haS => ?_⟩
  by_contra hst
  simp only [standingAdmins, Bool.and_eq_false_iff, not_or, Bool.not_eq_false] at hst
  -- The admins outside `S` are closed under the test.
  have hd : ∀ a, adminTest s (some (firstStratum s)) (fun b => decide (b ∉ S)) a →
      decide (a ∉ S) = true := fun a ha => by
    rw [decide_eq_true_eq]
    intro haS
    obtain ⟨ad, had, hne, hwithin⟩ := hS a haS
    obtain ⟨ad', had', -, hhops⟩ := adminTest_iff.1 ha
    obtain rfl : ad = ad' := Option.some.inj (had.symm.trans had')
    obtain ⟨hop, hhop⟩ := List.exists_mem_of_ne_nil _ hne
    exact (hwithin hop hhop).not_hopConfirmed hneed
      (fun b hb => by simp [confirmerStands, hb]) (hhops hop hhop)
  have := confirmAdmins_least hall hd hst.2
  simp [haS] at this

/-- A store of quorum two that keeps confirmations, with the admins and the
confirmations given; the root is `1` and the admin capability `9`. -/
def adminStore (admins : List Admin) (confirms : List Confirm) : RevocationStore :=
  { emptyStore 1 with
    quorum := 2
    hasAdmin := true
    adminCapability := ⟨9⟩
    admins := admins
    adminCapacity := 4
    confirms := confirms
    confirmCapacity := 4
    confirmHash := some ⟨fun bs => some (BitVec.ofNat 256 (getBe bs 0 bs.length))⟩ }

/-- Admins `4` and `5`, granted by `2` and `3`, who confirm each other's grants. -/
def circleStore : RevocationStore :=
  adminStore
    [⟨4, [⟨1, 2, 20⟩, ⟨2, 4, 24⟩], 20⟩, ⟨5, [⟨1, 3, 30⟩, ⟨3, 5, 35⟩], 30⟩]
    [⟨4, 35, 60⟩, ⟨5, 24, 61⟩]

/-- The hypotheses are satisfiable: two admins that confirm each other do not
stand. -/
theorem standingAdmins_circleStore : standingAdmins circleStore 0 = false := by
  refine (standingAdmins_wellFounded rfl (by decide)).2 {0, 1} (fun a ha => ?_) 0 (by decide)
  rcases Finset.mem_insert.1 ha with rfl | ha
  · exact ⟨_, rfl, by decide, by decide⟩
  · obtain rfl := Finset.mem_singleton.1 ha
    exact ⟨_, rfl, by decide, by decide⟩

/-- Admin `2`, granted by the root, and admin `4`, granted by `3` and confirmed
by admin `2`. -/
def leaningStore : RevocationStore :=
  adminStore [⟨2, [⟨1, 2, 20⟩], 20⟩, ⟨4, [⟨1, 3, 30⟩, ⟨3, 4, 34⟩], 30⟩] [⟨2, 34, 60⟩]

/-- **An admin the root granted holds up another without any root's
confirmation:** the hops of these two that no root granted are confirmed by no
root and by nobody but these two, and both stand. -/
theorem standingAdmins_leaningStore :
    (∀ ad ∈ leaningStore.admins, ∀ hop ∈ nonRootHops leaningStore ad,
      ConfirmedWithin leaningStore {0, 1} ad hop) ∧
    leaningStore.confirmHash.isSome = true ∧ 1 < leaningStore.quorum ∧
    standingAdmins leaningStore 0 = true ∧ standingAdmins leaningStore 1 = true := by
  decide

end Chain
end Fuzznet
