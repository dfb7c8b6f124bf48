/-
# Judging and the order of the tables

`chain/revocation.h`: "Judged when asked, from the set held, so the answer does
not depend on the order anything arrived in."

A permutation of the three tables moves no tally, no confirmation and no flag
of an admin read by its key.  What it can move is the root's pass, which returns
at the first live entry of a root: with a root set, one root's live entry and
another's withdrawal of the same pair are read in the order they were stored.
`RootsSettled` says when that shows nowhere: a live root vote past every undo,
and no open epoch up to it.  It is enough (`orderFree_of_rootsSettled`), and
without an admin capability it is also needed (`rootsSettled_of_orderFree`).
-/

import Fuzznet.Chain.Admins
import Fuzznet.Chain.RootPass

namespace Fuzznet
namespace Chain

open Wire

/-- `s'` is `s` with its entries, admins and confirmations in another order. -/
structure Reordered (s s' : RevocationStore) : Prop where
  entries : s.entries.Perm s'.entries
  admins : s.admins.Perm s'.admins
  confirms : s.confirms.Perm s'.confirms
  rest : s' = { s with
    entries := s'.entries
    admins := s'.admins
    confirms := s'.confirms }

theorem Reordered.symm {s s' : RevocationStore} (hr : Reordered s s') : Reordered s' s where
  entries := hr.entries.symm
  admins := hr.admins.symm
  confirms := hr.confirms.symm
  rest := by rw [hr.rest]

section Reorder

variable {s s' : RevocationStore} (hr : Reordered s s')
include hr

theorem Reordered.roots_eq : s'.roots = s.roots := by rw [hr.rest]

theorem Reordered.hasAdmin_eq : s'.hasAdmin = s.hasAdmin := by rw [hr.rest]

theorem Reordered.quorumOf_eq : quorumOf s' = quorumOf s := by rw [hr.rest]; rfl

theorem Reordered.storeSound_eq : storeSound s' = storeSound s := by
  have hc : s'.capacity = s.capacity := by rw [hr.rest]
  have ha : s'.adminCapacity = s.adminCapacity := by rw [hr.rest]
  have hf : s'.confirmCapacity = s.confirmCapacity := by rw [hr.rest]
  simp only [storeSound, hc, ha, hf, hr.entries.length_eq, hr.admins.length_eq,
    hr.confirms.length_eq]

theorem Reordered.rootMember_eq (key : Key) : rootMember s' key = rootMember s key := by
  rw [rootMember, hr.roots_eq, rootMember]

theorem Reordered.rootEntry_eq (rootKey : Option Key) (e : Revocation) :
    rootEntry s' rootKey e = rootEntry s rootKey e := by
  rw [rootEntry, hr.roots_eq, rootEntry]

theorem Reordered.rootConfirms_eq (key first : Key) (act : RecId) :
    rootConfirms s' key first act = rootConfirms s key first act := by
  rw [rootConfirms, hr.roots_eq, rootConfirms]

end Reorder

/-! ### Flags read by key -/

/-- The flag of an admin, read by its key. -/
def flag (s : RevocationStore) (c : ℕ → Bool) (key : Key) : Bool := (findAdmin s key).any c

/-- Two stores' flags agree, read by key. -/
def SameFlags (s s' : RevocationStore) (c c' : ℕ → Bool) : Prop :=
  ∀ key, flag s c key = flag s' c' key

variable {s : RevocationStore}

theorem findAdmin_eq_some {key : Key} {a : ℕ} (h : findAdmin s key = some a) :
    ∃ ad, s.admins[a]? = some ad ∧ ad.key = key := by
  obtain ⟨ha, hk, -⟩ := List.findIdx?_eq_some_iff_getElem.1 h
  exact ⟨s.admins[a], List.getElem?_eq_getElem ha, by simpa using hk⟩

variable {ad : Admin}

/-- With one row per key, the slot of a row's key is the row's. -/
theorem findAdmin_of_getElem? (hn : (s.admins.map Admin.key).Nodup) {a : ℕ}
    (h : s.admins[a]? = some ad) : findAdmin s ad.key = some a := by
  obtain ⟨ha, rfl⟩ := List.getElem?_eq_some_iff.1 h
  refine List.findIdx?_eq_some_iff_getElem.2 ⟨ha, by simp, fun j hj => ?_⟩
  have hne := List.pairwise_iff_getElem.1 (List.pairwise_map.1 hn) j a (hj.trans ha) ha hj
  simpa using hne

section Flags

variable {s s' : RevocationStore} (hr : Reordered s s') (hn : (s.admins.map Admin.key).Nodup)
include hr

theorem Reordered.nodup_admins (hn : (s.admins.map Admin.key).Nodup) :
    (s'.admins.map Admin.key).Nodup :=
  (hr.admins.map _).nodup_iff.1 hn

/-- A row keeps a slot. -/
theorem Reordered.exists_slot {a : ℕ} (h : s.admins[a]? = some ad) :
    ∃ a' : ℕ, s'.admins[a']? = some ad :=
  List.mem_iff_getElem?.1 (hr.admins.mem_iff.1 (List.mem_iff_getElem?.2 ⟨a, h⟩))

include hn

/-- The slot a key has on one side goes with the slot it has on the other, and
both hold the same row. -/
theorem Reordered.findAdmin_cases (key : Key) :
    (findAdmin s key = none ∧ findAdmin s' key = none) ∨
      ∃ a a' ad, findAdmin s key = some a ∧ findAdmin s' key = some a' ∧
        s.admins[a]? = some ad ∧ s'.admins[a']? = some ad ∧ ad.key = key := by
  cases h : findAdmin s key with
  | some a =>
    obtain ⟨ad, had, rfl⟩ := findAdmin_eq_some h
    obtain ⟨a', had'⟩ := hr.exists_slot had
    exact Or.inr ⟨a, a', ad, rfl, findAdmin_of_getElem? (hr.nodup_admins hn) had', had, had', rfl⟩
  | none =>
    cases h' : findAdmin s' key with
    | none => exact Or.inl ⟨rfl, rfl⟩
    | some a' =>
      obtain ⟨ad, had', rfl⟩ := findAdmin_eq_some h'
      obtain ⟨a, had⟩ := hr.symm.exists_slot had'
      simp [findAdmin_of_getElem? hn had] at h

/-- Flags that agree row by row agree by key. -/
theorem Reordered.sameFlags {c c' : ℕ → Bool} (h : ∀ a a' ad, s.admins[a]? = some ad →
    s'.admins[a']? = some ad → c a = c' a') : SameFlags s s' c c' := by
  intro key
  unfold flag
  rcases hr.findAdmin_cases hn key with ⟨h1, h2⟩ | ⟨a, a', ad, h1, h2, h3, h4, -⟩
  · rw [h1, h2]
    rfl
  · rw [h1, h2]
    exact h a a' ad h3 h4

end Flags

/-- Two stores let the same issuers count, and refuse the same admins. -/
def SameOk (s s' : RevocationStore) (ok ok' : Option (ℕ → Bool)) : Prop :=
  ∀ key, adminCounts s ok key = adminCounts s' ok' key ∧
    adminRefused s ok key = adminRefused s' ok' key

theorem SameFlags.sameOk {s s' : RevocationStore} (hr : Reordered s s')
    (hn : (s.admins.map Admin.key).Nodup) {c c' : ℕ → Bool} (hf : SameFlags s s' c c') :
    SameOk s s' (some c) (some c') := by
  intro key
  have hkey := hf key
  unfold adminCounts adminRefused flag at *
  rcases hr.findAdmin_cases hn key with ⟨h1, h2⟩ | ⟨a, a', ad, h1, h2, -⟩
  · simp [h1, h2]
  · rw [h1, h2] at hkey ⊢
    simpa using hkey

theorem sameOk_none {s s' : RevocationStore} (hr : Reordered s s')
    (hn : (s.admins.map Admin.key).Nodup) : SameOk s s' none none := by
  intro key
  unfold adminCounts adminRefused
  rcases hr.findAdmin_cases hn key with ⟨h1, h2⟩ | ⟨a, a', ad, h1, h2, -⟩ <;> simp [h1, h2]

/-! ### Tallies and the root's pass -/

section Questions

variable {s s' : RevocationStore} (hr : Reordered s s') {h : HopQuestion} {ok : Option (ℕ → Bool)}
  (hok : SameOk s s' h.adminOk ok)
include hr hok

/-- Either store counts an entry when the other does. -/
theorem Reordered.counts_eq (e : Revocation) : counts s' { h with adminOk := ok } e = counts s h e := by
  unfold counts entitled
  rw [hr.rootMember_eq, hr.hasAdmin_eq, hr.rootEntry_eq, (hok e.issuer).1, (hok e.issuer).2]

theorem Reordered.sameTallies : SameTallies s s' h { h with adminOk := ok } := by
  intro p
  unfold tally
  simp only [hr.counts_eq hok]
  exact hr.entries.countP_eq _

theorem Reordered.rootReads_eq (rootKey : Option Key) (e : Revocation) :
    rootReads s' { h with adminOk := ok } rootKey e = rootReads s h rootKey e := by
  unfold rootReads
  rw [hr.rootEntry_eq]
  congr 1
  exact Reordered.counts_eq (h := { h with floor := none }) hr hok e

end Questions

/-- A live root entry outruns every undo: the root's pass stops in any order. -/
def Settled (s : RevocationStore) (h : HopQuestion) (rootKey : Option Key) : Prop :=
  ∀ l ∈ s.entries, rootReads s h rootKey l = true → l.withdrawn = false →
    ∀ w ∈ s.entries, rootReads s h rootKey w = true → w.withdrawn = true →
      ∃ l' ∈ s.entries, rootReads s h rootKey l' = true ∧ l'.withdrawn = false ∧ w.epoch < l'.epoch

/-- When a live root entry outruns every undo, the root's pass stops exactly when
there is a live root entry. -/
theorem Settled.rootScan_iff {h : HopQuestion} {rootKey : Option Key} (hset : Settled s h rootKey) :
    (rootScan s h rootKey s.entries none).1 = true ↔
      ∃ l ∈ s.entries, rootReads s h rootKey l = true ∧ l.withdrawn = false := by
  refine ⟨fun hb => ?_, fun ⟨l, hl, hread, hlw⟩ => ?_⟩
  · obtain ⟨l, hl, hread, hlw, -⟩ := rootScan_true hb
    exact ⟨l, hl, hread, hlw⟩
  by_contra hb
  obtain ⟨hfl, hlive⟩ := rootScan_false (by simpa using hb)
  rw [← hfl] at hlive
  have hul := hlive l hl hread hlw
  rcases rootScan_floor s h rootKey s.entries none with heq | ⟨w, hw, hwr, hww, heq⟩
  · simp [heq, undone] at hul
  · obtain ⟨l', hl', hr', hlw', hlt⟩ := hset l hl hread hlw w hw hwr hww
    have hle := hlive l' hl' hr' hlw'
    rw [heq] at hle
    simp only [undone, Option.any_some, decide_eq_true_eq] at hle
    exact UInt64.not_le.2 hlt hle

section Verdicts

variable {s s' : RevocationStore} (hr : Reordered s s') {h : HopQuestion} {ok : Option (ℕ → Bool)}
  (hok : SameOk s s' h.adminOk ok) {rootKey : Option Key}
include hr hok

theorem Reordered.settled (hset : Settled s h rootKey) :
    Settled s' { h with adminOk := ok } rootKey := by
  intro l hl hread hlw w hw hwread hww
  rw [hr.rootReads_eq hok] at hread hwread
  obtain ⟨l', hl', hr', hlw', hlt⟩ := hset l (hr.entries.mem_iff.2 hl) hread hlw w
    (hr.entries.mem_iff.2 hw) hwread hww
  exact ⟨l', hr.entries.mem_iff.1 hl', by rwa [hr.rootReads_eq hok], hlw', hlt⟩

theorem Reordered.undo_eq (floor : Option UInt64) :
    undo s' { h with adminOk := ok } rootKey s'.entries floor =
      undo s h rootKey s.entries floor := by
  rw [undo_perm hr.entries]
  unfold undo
  simp only [hr.rootReads_eq hok]

/-- Where a live root entry outruns every undo, the root's pass answers the same
in any order, and leaves the same floor when it settles nothing. -/
theorem Reordered.rootPass_eq (hset : Settled s h rootKey) :
    (rootPass s h rootKey).1 = (rootPass s' { h with adminOk := ok } rootKey).1 ∧
      ((rootPass s h rootKey).1 = false →
        (rootPass s h rootKey).2 = (rootPass s' { h with adminOk := ok } rootKey).2) := by
  unfold rootPass
  rw [hr.roots_eq]
  split_ifs with hnone
  · exact ⟨rfl, fun _ => rfl⟩
  · have hiff : (rootScan s h rootKey s.entries none).1 = true ↔
        (rootScan s' { h with adminOk := ok } rootKey s'.entries none).1 = true := by
      rw [hset.rootScan_iff, (hr.settled hok hset).rootScan_iff]
      simp only [hr.rootReads_eq hok, hr.entries.mem_iff]
    have hb := Bool.eq_iff_iff.2 hiff
    refine ⟨hb, fun hfalse => ?_⟩
    rw [(rootScan_false hfalse).1, (rootScan_false (hb ▸ hfalse)).1, hr.undo_eq hok]

/-- The verdict is the same in any order. -/
theorem Reordered.judgeHop_eq (hset : Settled s h rootKey) (q : ℕ) :
    judgeHop s h rootKey q = judgeHop s' { h with adminOk := ok } rootKey q := by
  obtain ⟨hb, hf⟩ := hr.rootPass_eq hok hset
  exact judgeHop_congr hb hf
    (fun floor => Reordered.sameTallies (h := { h with floor := floor }) hr hok) q

end Verdicts

/-! ### When the roots are settled -/

/-- The entry is a member root's, and the root set says its record counts. -/
def countingRoot (s : RevocationStore) (e : Revocation) : Bool :=
  s.roots.any fun r => r.member e.issuer && r.counts e.issuer e.held

/-- `l` and `w` are a live and a withdrawn entry of counting roots, of one pair. -/
structure RootsDiffer (s : RevocationStore) (l w : Revocation) : Prop where
  live_mem : l ∈ s.entries
  withdrawn_mem : w ∈ s.entries
  live_root : countingRoot s l = true
  withdrawn_root : countingRoot s w = true
  live : l.withdrawn = false
  withdrawn : w.withdrawn = true
  capability : w.capability = l.capability
  grantee : w.grantee = l.grantee

/-- **The roots are settled:** where a counting root's live entry meets another's
withdrawal of the same pair, a counting root's live vote is past that undo, and
no epoch up to it is open. -/
def RootsSettled (s : RevocationStore) : Prop :=
  ∀ l w, RootsDiffer s l w →
    (∃ l', RootsDiffer s l' w ∧ w.epoch < l'.epoch) ∧
      ∀ c, c ≤ w.epoch → c ≠ maxEpoch →
        epochClosed s (anyQuestion s w.capability w.grantee) c (quorumOf s) = true

section Roots

variable {s : RevocationStore} {h : HopQuestion} {rootKey : Option Key}

theorem rootReads_pair {e : Revocation} (he : rootReads s h rootKey e = true) :
    e.capability = h.capability ∧ e.grantee = h.grantee := by
  simp only [rootReads, counts, Bool.and_eq_true, decide_eq_true_eq] at he
  exact he.1.1.1

/-- With a root set the root's pass reads exactly the counting roots' entries. -/
theorem rootReads_iff (hroots : s.roots.isSome = true) {e : Revocation} :
    rootReads s h rootKey e = true ↔
      e.capability = h.capability ∧ e.grantee = h.grantee ∧ countingRoot s e = true := by
  obtain ⟨r, hr⟩ := Option.isSome_iff_exists.1 hroots
  simp only [rootReads, counts, undone, entitled, rootMember, rootEntry, countingRoot, hr,
    Option.any_some, Option.any_none, Bool.and_eq_true, decide_eq_true_eq, Bool.not_false]
  constructor
  · rintro ⟨⟨⟨hp, -⟩, -⟩, hm⟩
    exact ⟨hp.1, hp.2, hm⟩
  · rintro ⟨hc, hg, hm, hcnt⟩
    refine ⟨⟨⟨⟨hc, hg⟩, trivial⟩, ?_⟩, hm, hcnt⟩
    split_ifs <;> simp [hm, hcnt]

/-- Without a root set the entries the root's pass reads are one triple's. -/
theorem rootReads_triple (hroots : s.roots = none) {l w : Revocation}
    (hl : rootReads s h rootKey l = true) (hw : rootReads s h rootKey w = true) :
    l.triple = w.triple := by
  obtain ⟨hlc, hlg⟩ := rootReads_pair hl
  obtain ⟨hwc, hwg⟩ := rootReads_pair hw
  simp only [rootReads, rootEntry, hroots, Bool.and_eq_true, Option.any_eq_true,
    decide_eq_true_eq] at hl hw
  obtain ⟨-, k, hk, hlk⟩ := hl
  obtain ⟨-, k', hk', hwk⟩ := hw
  obtain rfl : k = k' := Option.some.inj (hk.symm.trans hk')
  rw [Revocation.triple, Revocation.triple, hlk, hwk, hlc, hlg, hwc, hwg]

/-- Two root entries the pass reads, one live and one withdrawn, are two counting
roots'. -/
theorem rootsDiffer_of_rootReads (h1 : OneEntryPerTriple s) {l w : Revocation} (hl : l ∈ s.entries)
    (hw : w ∈ s.entries) (hlr : rootReads s h rootKey l = true)
    (hwr : rootReads s h rootKey w = true) (hlw : l.withdrawn = false)
    (hww : w.withdrawn = true) : s.roots.isSome = true ∧ RootsDiffer s l w := by
  cases hroots : s.roots with
  | none =>
    have heq : l = w := List.inj_on_of_nodup_map h1 hl hw (rootReads_triple hroots hlr hwr)
    rw [heq, hww] at hlw
    exact absurd hlw (by simp)
  | some r =>
    have hsome : s.roots.isSome = true := by simp [hroots]
    obtain ⟨hlc, hlg, hlcnt⟩ := (rootReads_iff hsome).1 hlr
    obtain ⟨hwc, hwg, hwcnt⟩ := (rootReads_iff hsome).1 hwr
    exact ⟨rfl, hl, hw, hlcnt, hwcnt, hlw, hww, hwc.trans hlc.symm, hwg.trans hlg.symm⟩

/-- Settled roots settle the root's pass of every question. -/
theorem RootsSettled.settled (hs : RootsSettled s) (h1 : OneEntryPerTriple s)
    (rootKey : Option Key) : Settled s h rootKey := by
  intro l hl hlr hlw w hw hwr hww
  obtain ⟨hsome, hd⟩ := rootsDiffer_of_rootReads h1 hl hw hlr hwr hlw hww
  obtain ⟨⟨l', hd', hlt⟩, -⟩ := hs l w hd
  obtain ⟨hwc, hwg⟩ := rootReads_pair hwr
  refine ⟨l', hd'.live_mem, (rootReads_iff hsome).2 ?_, hd'.live, hlt⟩
  exact ⟨hd'.capability.symm.trans hwc, hd'.grantee.symm.trans hwg, hd'.live_root⟩

end Roots

/-! ### Admins -/

section Admins

variable {s s' : RevocationStore} (hr : Reordered s s') (hn : (s.admins.map Admin.key).Nodup)
include hr

theorem Reordered.confirmsNeeded_eq : confirmsNeeded s' = confirmsNeeded s := by
  rw [confirmsNeeded, hr.quorumOf_eq, confirmsNeeded]

theorem Reordered.confirmsAll_eq : confirmsAll s' = confirmsAll s := by
  have hc : s'.confirmHash = s.confirmHash := by rw [hr.rest]
  rw [confirmsAll, hc, hr.confirmsNeeded_eq, confirmsAll]

theorem Reordered.adminRooted_eq (ad : Admin) : adminRooted s' ad = adminRooted s ad := by
  rw [adminRooted, hr.roots_eq, adminRooted]

theorem Reordered.nonRootHops_eq (ad : Admin) : nonRootHops s' ad = nonRootHops s ad := by
  simp only [nonRootHops, rootGranted, hr.rootMember_eq]

/-- A hop confirmed in one order is confirmed in the other, when the admins that
count there count here. -/
theorem Reordered.hopConfirmed {st st' : ℕ → Bool} (hst : ∀ key, flag s st key → flag s' st' key)
    {hop : AdminHop} (hc : HopConfirmed s st ad hop) : HopConfirmed s' st' ad hop := by
  rcases hc with ⟨c, hc, hg, hroot⟩ | hle
  · exact Or.inl ⟨c, hr.confirms.mem_iff.1 hc, hg, by rwa [hr.rootConfirms_eq]⟩
  · refine Or.inr (hr.confirmsNeeded_eq ▸ hle.trans (Finset.card_le_card fun x hx => ?_))
    obtain ⟨hne, ⟨c, hc, hg, hcx⟩, hst'⟩ := mem_confirmers.1 hx
    exact mem_confirmers.2 ⟨hne, ⟨c, hr.confirms.mem_iff.1 hc, hg, hcx⟩, hst x hst'⟩

include hn

section

variable {el el' : Option (ℕ → Bool)} {a a' : ℕ}
  (hel : ∀ a a' ad, s.admins[a]? = some ad → s'.admins[a']? = some ad → (el.all fun f => f a) = (el'.all fun f => f a'))
  (h : s.admins[a]? = some ad) (h' : s'.admins[a']? = some ad)
include hel h h'

/-- A confirmed row is confirmed in the other order. -/
theorem Reordered.confirmAdmins_le (hc : confirmAdmins s el a = true) :
    confirmAdmins s' el' a' = true := by
  cases hall : confirmsAll s with
  | true =>
    have hall' : confirmsAll s' = true := hr.confirmsAll_eq.trans hall
    simp only [confirmAdmins, hall, hall', if_true, h, h', Option.any_some] at hc ⊢
    rwa [hr.adminRooted_eq]
  | false =>
    have hall' : confirmsAll s' = false := hr.confirmsAll_eq.trans hall
    -- The rows confirmed in the other order, as flags of this one's slots.
    let d : ℕ → Bool := fun b =>
      s.admins[b]?.any fun ad => flag s' (confirmAdmins s' el') ad.key
    have hd : ∀ b, adminTest s el d b → d b := by
      intro b hb
      obtain ⟨ad, had, hroot, hhops⟩ := adminTest_iff.1 hb
      obtain ⟨b', had'⟩ := hr.exists_slot had
      have hflag : confirmAdmins s' el' b' = true := by
        refine confirmAdmins_closed hall' (adminTest_iff.2 ⟨ad, had', ?_, ?_⟩)
        · rwa [hr.adminRooted_eq]
        · rw [hr.nonRootHops_eq]
          refine fun hop hhop => hr.hopConfirmed (fun key hkey => ?_) (hhops hop hhop)
          unfold flag at hkey ⊢
          rcases hr.findAdmin_cases hn key with ⟨h1, -⟩ | ⟨x, x', row, h1, h2, h3, h4, rfl⟩
          · simp [h1] at hkey
          · rw [h1] at hkey
            simp only [Option.any_some, confirmerStands, Bool.and_eq_true, d, h3] at hkey
            rw [flag, h2] at hkey
            rw [h2]
            simp only [Option.any_some, confirmerStands, Bool.and_eq_true] at hkey ⊢
            exact ⟨hkey.1, (hel x x' row h3 h4) ▸ hkey.2⟩
      simp only [d, had, Option.any_some, flag,
        findAdmin_of_getElem? (hr.nodup_admins hn) had', hflag]
    have := confirmAdmins_least hall hd hc
    simpa only [d, h, Option.any_some, flag,
      findAdmin_of_getElem? (hr.nodup_admins hn) h'] using this

/-- **The confirmed admins are the same in any order.** -/
theorem Reordered.confirmAdmins_eq : confirmAdmins s el a = confirmAdmins s' el' a' := by
  refine Bool.eq_iff_iff.2 ⟨hr.confirmAdmins_le hn hel h h', ?_⟩
  exact hr.symm.confirmAdmins_le (hr.nodup_admins hn)
    (fun b b' row hb hb' => (hel b' b row hb' hb).symm) h' h

end

variable (hset : RootsSettled s) (h1 : OneEntryPerTriple s)
include hset h1

/-- A hop is judged the same in any order, counting the same admins. -/
theorem Reordered.judgeLinks_eq {c c' : ℕ → Bool} (hf : SameFlags s s' c c') (links : List Link)
    (capability : CapId) (i : ℕ) :
    judgeLinks s links capability c i = judgeLinks s' links capability c' i := by
  have hq := hr.quorumOf_eq
  have hj := Reordered.judgeHop_eq (h := hopQuestion links capability c i) hr (hf.sameOk hr hn)
    (hset.settled h1 (firstGrantor links)) (quorumOf s)
  unfold judgeLinks
  rw [hj, hq]
  rfl

/-- **The first stratum is the same in any order.** -/
theorem Reordered.firstStratum_eq {a a' : ℕ} (h : s.admins[a]? = some ad)
    (h' : s'.admins[a']? = some ad) : firstStratum s a = firstStratum s' a' := by
  have hc : ∀ a a' ad, s.admins[a]? = some ad → s'.admins[a']? = some ad →
      confirmAdmins s none a = confirmAdmins s' none a' :=
    fun a a' ad => hr.confirmAdmins_eq hn fun _ _ _ _ _ => rfl
  have hcap : s'.adminCapability = s.adminCapability := by rw [hr.rest]
  have hrev : adminRevoked s (confirmAdmins s none) ad = adminRevoked s' (confirmAdmins s' none) ad := by
    unfold adminRevoked
    rw [hcap]
    congr 1
    funext i
    exact hr.judgeLinks_eq hn hset h1 (hr.sameFlags hn hc) _ _ i
  simp only [firstStratum, h, h', Option.any_some, hc a a' ad h h', hrev]

/-- **The admins that stand are the same in any order.** -/
theorem Reordered.standingAdmins_eq : SameFlags s s' (standingAdmins s) (standingAdmins s') := by
  refine hr.sameFlags hn fun a a' ad h h' => ?_
  have hel : ∀ a a' ad, s.admins[a]? = some ad → s'.admins[a']? = some ad →
      ((some (firstStratum s)).all fun f => f a) = ((some (firstStratum s')).all fun f => f a') :=
    fun a a' ad h h' => hr.firstStratum_eq hn hset h1 h h'
  simp only [standingAdmins, hr.firstStratum_eq hn hset h1 h h', hr.confirmAdmins_eq hn hel h h']

end Admins

/-! ### The five questions -/

/-- **Judging is order-free:** the five questions are answered the same whatever
order the entries, the admins and the confirmations are stored in. -/
def OrderFree (s : RevocationStore) : Prop :=
  ∀ s', Reordered s s' →
    (∀ links capability i, coversLinks s' links capability i = coversLinks s links capability i) ∧
    (∀ key, adminStands s' key = adminStands s key) ∧
    (∀ issuer act root,
      revocationConfirmed s' issuer act root = revocationConfirmed s issuer act root) ∧
    (∀ links capability i act,
      actStands s' links capability i act = actStands s links capability i act) ∧
    ∀ root capability grantee,
      currentEpoch s' root capability grantee = currentEpoch s root capability grantee

section Questions

variable {s s' : RevocationStore} (hr : Reordered s s') (hn : (s.admins.map Admin.key).Nodup)
  (hset : RootsSettled s) (h1 : OneEntryPerTriple s)
include hr hn hset h1

theorem Reordered.coversLinks_eq (links : List Link) (capability : CapId) (i : ℕ) :
    coversLinks s' links capability i = coversLinks s links capability i := by
  unfold coversLinks
  rw [hr.storeSound_eq,
    hr.judgeLinks_eq hn hset h1 (hr.standingAdmins_eq hn hset h1) links capability i]

theorem Reordered.adminStands_eq (key : Key) : adminStands s' key = adminStands s key := by
  have hst := hr.standingAdmins_eq hn hset h1 key
  unfold flag at hst
  rw [adminStands, adminStands, hr.storeSound_eq, hr.hasAdmin_eq, hst]

theorem Reordered.revocationConfirmed_eq (issuer : Key) (act : RecId) (root : Key) :
    revocationConfirmed s' issuer act root = revocationConfirmed s issuer act root := by
  have hconf : confirmers s' act issuer (standingAdmins s') s'.confirms =
      confirmers s act issuer (standingAdmins s) s.confirms := by
    ext x
    have hst := hr.standingAdmins_eq hn hset h1 x
    unfold flag at hst
    simp only [mem_confirmers, hst, hr.confirms.mem_iff]
  have hscan : scanConfirms s' act issuer root (confirmsNeeded s') (standingAdmins s') s'.confirms []
      = scanConfirms s act issuer root (confirmsNeeded s) (standingAdmins s) s.confirms [] := by
    rw [Bool.eq_iff_iff, scanConfirms_nil_iff, scanConfirms_nil_iff, hconf, hr.confirmsNeeded_eq]
    simp only [hr.rootConfirms_eq, hr.confirms.mem_iff]
  unfold revocationConfirmed
  rw [hr.storeSound_eq, hr.rootConfirms_eq, hr.adminStands_eq hn hset h1, hr.confirmsAll_eq, hscan]

/-- The question about a hop, asked of either store, counts the same entries. -/
theorem Reordered.hopQuestion_ok (links : List Link) (capability : CapId) (i : ℕ) :
    SameOk s s' (hopQuestion links capability (standingAdmins s) i).adminOk
      (some (standingAdmins s')) :=
  (hr.standingAdmins_eq hn hset h1).sameOk hr hn

theorem Reordered.actStands_eq (links : List Link) (capability : CapId) (i : ℕ) (act : RecId) :
    actStands s' links capability i act = actStands s links capability i act := by
  have hok := hr.hopQuestion_ok hn hset h1 links capability i
  have hverdict := hr.judgeHop_eq hok (hset.settled h1 (firstGrantor links)) (quorumOf s)
  have hfull : fullFloor s' (hopQuestion links capability (standingAdmins s') i) (firstGrantor links)
      = fullFloor s (hopQuestion links capability (standingAdmins s) i) (firstGrantor links) := by
    rw [fullFloor_eq, fullFloor_eq]
    exact hr.undo_eq hok none
  have hacts : s'.acts = s.acts := by rw [hr.rest]
  have hcnt := fun floor e => Reordered.counts_eq
    (h := { hopQuestion links capability (standingAdmins s) i with floor := floor }) hr hok e
  have hcuts : ∀ verdict, (bindingCuts s' (hopQuestion links capability (standingAdmins s') i)
      (firstGrantor links) verdict).Perm
        (bindingCuts s (hopQuestion links capability (standingAdmins s) i) (firstGrantor links)
          verdict) := fun verdict => by
    unfold bindingCuts
    rw [hfull]
    refine List.Perm.map _ ?_
    refine (hr.entries.symm.filter _).trans (List.Perm.of_eq (List.filter_congr fun e _ => ?_))
    exact congrArg (· && _) (hcnt _ e)
  unfold actStands actStandsUnder
  simp only [hr.storeSound_eq, hacts, hr.quorumOf_eq, hverdict, (hcuts _).all_eq,
    (hcuts _).isEmpty_eq]
  rfl

/-- The question about the next vote, asked of either store, counts the same
entries. -/
theorem Reordered.anyQuestion_ok (capability : CapId) (grantee : Key) :
    SameOk s s' (anyQuestion s capability grantee).adminOk
      (anyQuestion s' capability grantee).adminOk := by
  have hnil : s'.admins ≠ [] ↔ s.admins ≠ [] := by
    rw [ne_eq, ne_eq, ← List.length_eq_zero_iff, ← List.length_eq_zero_iff, hr.admins.length_eq]
  simp only [anyQuestion, hr.hasAdmin_eq, hnil]
  split_ifs
  · exact (hr.standingAdmins_eq hn hset h1).sameOk hr hn
  · exact sameOk_none hr hn

/-- Settled roots are settled in any order. -/
theorem Reordered.rootsSettled : RootsSettled s' := by
  have hdiffer : ∀ l w, RootsDiffer s' l w ↔ RootsDiffer s l w := fun l w => by
    have hcnt : ∀ e, countingRoot s' e = countingRoot s e := fun e => by
      rw [countingRoot, hr.roots_eq, countingRoot]
    constructor
    · rintro ⟨hl, hw, hlr, hwr, hlw, hww, hc, hg⟩
      exact ⟨hr.entries.mem_iff.2 hl, hr.entries.mem_iff.2 hw, hcnt l ▸ hlr, hcnt w ▸ hwr, hlw, hww,
        hc, hg⟩
    · rintro ⟨hl, hw, hlr, hwr, hlw, hww, hc, hg⟩
      exact ⟨hr.entries.mem_iff.1 hl, hr.entries.mem_iff.1 hw, (hcnt l).symm ▸ hlr,
        (hcnt w).symm ▸ hwr, hlw, hww, hc, hg⟩
  intro l w hd
  obtain ⟨⟨l', hd', hlt⟩, hcl⟩ := hset l w ((hdiffer l w).1 hd)
  refine ⟨⟨l', (hdiffer l' w).2 hd', hlt⟩, fun c hc hmax => ?_⟩
  rw [← hcl c hc hmax, hr.quorumOf_eq, epochClosed, epochClosed]
  rw [Reordered.sameTallies hr (hr.anyQuestion_ok hn hset h1 _ _)]
  rfl

omit hr hn in
/-- Where the roots are settled, a live root entry leaves the open epoch where it
is without any undo. -/
theorem openEpoch_rootPass {capability : CapId} {grantee : Key} {root : Option Key}
    (hb : (rootPass s (anyQuestion s capability grantee) root).1 = true) :
    openEpoch s { anyQuestion s capability grantee with
        floor := (rootPass s (anyQuestion s capability grantee) root).2 } (quorumOf s) =
      openEpoch s (anyQuestion s capability grantee) (quorumOf s) := by
  unfold rootPass at hb ⊢
  split_ifs at hb ⊢
  obtain ⟨l, hl, hlr, hlw, -⟩ := rootScan_true hb
  rcases rootScan_floor s (anyQuestion s capability grantee) root s.entries none with
    heq | ⟨w, hw, hwr, hww, heq⟩
  · rw [heq]
    rfl
  · obtain ⟨-, hd⟩ := rootsDiffer_of_rootReads h1 hl hw hlr hwr hlw hww
    obtain ⟨hwc, hwg⟩ := rootReads_pair hwr
    have hcl := (hset l w hd).2
    rw [hwc, hwg] at hcl
    rw [heq]
    exact openEpoch_floor hcl

theorem Reordered.currentEpoch_eq (root : Option Key) (capability : CapId) (grantee : Key) :
    currentEpoch s' root capability grantee = currentEpoch s root capability grantee := by
  have hok := hr.anyQuestion_ok hn hset h1 capability grantee
  obtain ⟨hb, hf⟩ := hr.rootPass_eq hok (hset.settled h1 root)
  have htallies := fun floor => Reordered.sameTallies
    (h := { anyQuestion s capability grantee with floor := floor }) hr hok
  have hany : { anyQuestion s capability grantee with
      adminOk := (anyQuestion s' capability grantee).adminOk } = anyQuestion s' capability grantee :=
    rfl
  rw [hany] at hb hf
  unfold currentEpoch
  rw [hr.storeSound_eq]
  split_ifs
  · rfl
  · cases hpass : (rootPass s (anyQuestion s capability grantee) root).1 with
    | false =>
      rw [hf hpass, hr.quorumOf_eq]
      exact ((htallies _).openEpoch_eq rfl _).symm
    | true =>
      rw [openEpoch_rootPass hset h1 hpass,
        openEpoch_rootPass (hr.rootsSettled hn hset h1) ((hr.entries.map _).nodup_iff.1 h1)
          (hb ▸ hpass), hr.quorumOf_eq]
      exact ((htallies none).openEpoch_eq rfl _).symm

end Questions

/-- A store that cannot be read answers nothing from its tables. -/
theorem orderFree_of_not_sound (hs : storeSound s = false) : OrderFree s := by
  intro s' hr
  have hs' : storeSound s' = false := hr.storeSound_eq.trans hs
  simp [coversLinks, adminStands, revocationConfirmed, actStands, currentEpoch, hs, hs']

/-! ### What an unsettled pair does -/

section Unsettled

variable {s : RevocationStore} {l w : Revocation}

/-- `s` with `e` stored first. -/
def storedFirst (s : RevocationStore) (e : Revocation) : RevocationStore :=
  { s with entries := e :: s.entries.erase e }

theorem reordered_storedFirst {e : Revocation} (he : e ∈ s.entries) :
    Reordered s (storedFirst s e) where
  entries := List.perm_cons_erase he
  admins := .refl _
  confirms := .refl _
  rest := rfl

variable (hd : RootsDiffer s l w)
include hd

theorem RootsDiffer.roots_isSome : s.roots.isSome = true := by
  have := hd.live_root
  unfold countingRoot at this
  cases hroots : s.roots <;> simp_all

/-- With a live root entry stored first, the root's pass stops at it. -/
theorem RootsDiffer.rootScan_live_first {h : HopQuestion} {rootKey : Option Key}
    (hc : l.capability = h.capability) (hg : l.grantee = h.grantee) :
    rootScan (storedFirst s l) h rootKey (storedFirst s l).entries none = (true, none) := by
  have hread : rootReads (storedFirst s l) h rootKey l = true :=
    (rootReads_iff (s := storedFirst s l) hd.roots_isSome).2 ⟨hc, hg, hd.live_root⟩
  unfold rootReads at hread
  simp only [storedFirst] at hread ⊢
  rw [rootScan_cons, hread, hd.live]
  rfl

/-- With a withdrawn root entry stored first, the pass goes on from its undo. -/
theorem RootsDiffer.rootScan_withdrawn_first {h : HopQuestion} {rootKey : Option Key}
    (hc : l.capability = h.capability) (hg : l.grantee = h.grantee) :
    rootScan (storedFirst s w) h rootKey (storedFirst s w).entries none =
      rootScan (storedFirst s w) h rootKey (s.entries.erase w) (some w.epoch) := by
  have hread : rootReads (storedFirst s w) h rootKey w = true :=
    (rootReads_iff (s := storedFirst s w) hd.roots_isSome).2
      ⟨hd.capability.trans hc, hd.grantee.trans hg, hd.withdrawn_root⟩
  unfold rootReads at hread
  simp only [storedFirst] at hread ⊢
  rw [rootScan_cons, hread, hd.withdrawn]
  rfl

/-- The one-hop chain the live root granted, with that root's entry stored
first: revoked. -/
theorem RootsDiffer.judgeHop_live_first (c : ℕ → Bool) (q : ℕ) :
    judgeHop (storedFirst s l) (hopQuestion [⟨l.issuer, l.grantee⟩] l.capability c 0)
      (some l.issuer) q = .root := by
  unfold judgeHop
  rw [rootPass_eq_scan (Or.inl rfl), hd.rootScan_live_first rfl rfl]
  rfl

/-- The same chain with the withdrawal stored first, when no live root vote is
past it: free, without an admin capability. -/
theorem RootsDiffer.judgeHop_withdrawn_first (ha : s.hasAdmin = false)
    (hpast : ∀ l', RootsDiffer s l' w → l'.epoch ≤ w.epoch) (c : ℕ → Bool) {q : ℕ} (hq : 0 < q) :
    judgeHop (storedFirst s w) (hopQuestion [⟨l.issuer, l.grantee⟩] l.capability c 0)
      (some l.issuer) q = .free := by
  have hsome : (storedFirst s w).roots.isSome = true := hd.roots_isSome
  refine judgeHop_free_of_roots (Or.inl rfl) (fun e _ hcnt => ?_) ?_ hq
  · -- The chain's one grantor is a root, so what it counts is a root's entry.
    obtain ⟨r, hr⟩ := Option.isSome_iff_exists.1 hd.roots_isSome
    have hmem : r.member l.issuer = true := by
      have := hd.live_root
      simp only [countingRoot, hr, Option.any_some, Bool.and_eq_true] at this
      exact this.1
    have hr' : (storedFirst s w).roots = some r := hr
    have ha' : (storedFirst s w).hasAdmin = false := ha
    rw [rootReads_iff hsome]
    simp only [counts, entitled, rootMember, rootEntry, hr', ha', hopQuestion, Option.any_some,
      Bool.and_eq_true, Bool.false_and, Bool.or_false] at hcnt
    obtain ⟨⟨hp, -⟩, hent⟩ := hcnt
    refine ⟨(of_decide_eq_true hp).1, (of_decide_eq_true hp).2, ?_⟩
    by_cases hm : r.member e.issuer = true
    · simpa [countingRoot, hr', hm] using hent
    · have hiss : e.issuer = l.issuer := by simpa [hm] using hent
      exact absurd hmem (hiss ▸ hm)
  · -- A live entry the scan could read past the withdrawal would be a vote past it.
    rw [hd.rootScan_withdrawn_first rfl rfl]
    by_contra hb
    obtain ⟨l', hl', hread, hlw, hun⟩ := rootScan_true (by simpa using hb)
    obtain ⟨hc', hg', hcnt⟩ := (rootReads_iff hsome).1 hread
    have hle := hpast l' ⟨List.mem_of_mem_erase hl', hd.withdrawn_mem, hcnt, hd.withdrawn_root, hlw,
      hd.withdrawn, hd.capability.trans hc'.symm, hd.grantee.trans hg'.symm⟩
    simp [undone, hle] at hun

/-- **A live root vote is past every undo where judging is order-free.** -/
theorem RootsDiffer.exists_past_of_orderFree (ha : s.hasAdmin = false) (hs : storeSound s = true)
    (hfree : OrderFree s) : ∃ l', RootsDiffer s l' w ∧ w.epoch < l'.epoch := by
  by_contra hno
  push Not at hno
  have hl := (hfree _ (reordered_storedFirst hd.live_mem)).1 [⟨l.issuer, l.grantee⟩] l.capability 0
  have hw := (hfree _ (reordered_storedFirst hd.withdrawn_mem)).1 [⟨l.issuer, l.grantee⟩]
    l.capability 0
  have hsound : ∀ {e}, e ∈ s.entries → storeSound (storedFirst s e) = true := fun he =>
    (reordered_storedFirst he).storeSound_eq.trans hs
  have hcov : ∀ {e}, e ∈ s.entries → coversLinks (storedFirst s e) [⟨l.issuer, l.grantee⟩]
      l.capability 0 = (judgeHop (storedFirst s e) (hopQuestion [⟨l.issuer, l.grantee⟩] l.capability
        (standingAdmins (storedFirst s e)) 0) (some l.issuer) (quorumOf (storedFirst s e))).revoked :=
    fun he => by
      rw [coversLinks, hsound he]
      rfl
  rw [hcov hd.live_mem, hd.judgeHop_live_first] at hl
  rw [hcov hd.withdrawn_mem, hd.judgeHop_withdrawn_first ha
    (fun l' hd' => UInt64.not_lt.1 (hno l' hd')) _ (quorumOf_pos _), ← hl] at hw
  simp [HopVerdict.revoked] at hw

/-- **No epoch up to an undo is open where judging is order-free.** -/
theorem RootsDiffer.epochClosed_of_orderFree (ha : s.hasAdmin = false) (hs : storeSound s = true)
    (hfree : OrderFree s) {c : UInt64} (hc : c ≤ w.epoch) (hmax : c ≠ maxEpoch) :
    epochClosed s (anyQuestion s w.capability w.grantee) c (quorumOf s) = true := by
  by_contra hop
  have hl := (hfree _ (reordered_storedFirst hd.live_mem)).2.2.2.2 none w.capability w.grantee
  have hw := (hfree _ (reordered_storedFirst hd.withdrawn_mem)).2.2.2.2 none w.capability w.grantee
  have hok : ∀ {e}, e ∈ s.entries → SameOk s (storedFirst s e)
      (anyQuestion s w.capability w.grantee).adminOk
      (anyQuestion (storedFirst s e) w.capability w.grantee).adminOk := fun _ => by
    have ha' : ∀ e, (storedFirst s e).hasAdmin = false := fun _ => ha
    simp only [anyQuestion, ha, ha', Bool.false_eq_true, false_and, if_false]
    exact fun key => ⟨rfl, rfl⟩
  -- The live entry first: no undo, and the next vote is cast at or below `c`.
  have hle : currentEpoch (storedFirst s l) none w.capability w.grantee ≤ c := by
    have hr := reordered_storedFirst hd.live_mem
    have hfloor : (rootPass (storedFirst s l) (anyQuestion (storedFirst s l) w.capability w.grantee)
        none).2 = none := by
      rw [rootPass_eq_scan (s := storedFirst s l) (Or.inr hd.roots_isSome),
        hd.rootScan_live_first hd.capability.symm hd.grantee.symm]
    rw [currentEpoch, hr.storeSound_eq, hs, if_neg (by simp), hfloor]
    refine openFrom_le UInt64.zero_le ?_
    have htally := Reordered.sameTallies hr (hok hd.live_mem) (leftEpoch c)
    rw [epochClosed, htally, decide_eq_true_eq] at hop
    exact decide_eq_false hop
  -- The withdrawal first: its undo is settled, and the next vote is cast past it.
  have hgt : c < currentEpoch (storedFirst s w) none w.capability w.grantee := by
    have hr := reordered_storedFirst hd.withdrawn_mem
    rw [currentEpoch, hr.storeSound_eq, hs, if_neg (by simp),
      rootPass_eq_scan (s := storedFirst s w) (Or.inr hd.roots_isSome),
      hd.rootScan_withdrawn_first hd.capability.symm hd.grantee.symm]
    have hun : undone (rootScan (storedFirst s w)
        (anyQuestion (storedFirst s w) w.capability w.grantee) none (s.entries.erase w)
        (some w.epoch)).2 c = true :=
      undone_rootScan _ (by simpa [undone] using hc)
    cases hf : (rootScan (storedFirst s w) (anyQuestion (storedFirst s w) w.capability w.grantee) none
        (s.entries.erase w) (some w.epoch)).2 with
    | none => simp [hf, undone] at hun
    | some f =>
      refine lt_openEpoch_floor ?_ hmax
      simpa [hf, undone] using hun
  rw [hl] at hle
  rw [hw] at hgt
  exact absurd hle (UInt64.not_le.2 hgt)

end Unsettled

/-- **Judging is order-free where the roots are settled**, and in a store that
cannot be read; without an admin capability it is order-free only there. -/
theorem orderFree_when_rootsSettled {s : RevocationStore} (h1 : OneEntryPerTriple s)
    (hn : (s.admins.map Admin.key).Nodup) :
    (storeSound s = false ∨ RootsSettled s → OrderFree s) ∧
      (s.hasAdmin = false → OrderFree s → storeSound s = false ∨ RootsSettled s) := by
  refine ⟨fun hcond s' hr => ?_, fun ha hfree => ?_⟩
  · rcases hcond with hs | hset
    · exact orderFree_of_not_sound hs s' hr
    · exact ⟨hr.coversLinks_eq hn hset h1, hr.adminStands_eq hn hset h1,
        hr.revocationConfirmed_eq hn hset h1, hr.actStands_eq hn hset h1,
        hr.currentEpoch_eq hn hset h1⟩
  · cases hs : storeSound s with
    | false => exact Or.inl rfl
    | true =>
      refine Or.inr fun l w hd => ⟨?_, fun c hc hmax => ?_⟩
      · exact hd.exists_past_of_orderFree ha hs hfree
      · exact hd.epochClosed_of_orderFree ha hs hfree hc hmax

/-- A vote of root `issuer` on the pair `(7, 3)`. -/
def rootVote (issuer : Key) (withdrawn : Bool) (epoch : UInt64) : Revocation where
  capability := ⟨7⟩
  grantee := 3
  issuer := issuer
  id := 10
  withdrawn := withdrawn
  epoch := epoch
  held := 11
  cut := 0

/-- A store under the root set `{1, 2}`, every record of which counts. -/
def twoRootsStore (entries : List Revocation) : RevocationStore :=
  { emptyStore 2 with
    entries := entries
    roots := some ⟨fun k => decide (k = 1 ∨ k = 2), fun _ _ => true, ⟨fun _ => some 0⟩⟩ }

/-- The hypotheses are satisfiable: root `2` revoked the pair again, past root
`1`'s withdrawal. -/
theorem orderFree_twoRootsStore :
    OrderFree (twoRootsStore [rootVote 1 true 0, rootVote 2 false 1]) := by
  refine (orderFree_when_rootsSettled (by decide) (by decide)).1 (Or.inr fun l w hd => ?_)
  obtain rfl : l = rootVote 2 false 1 := by
    have hmem := hd.live_mem
    have hlive := hd.live
    simp only [twoRootsStore, List.mem_cons, List.not_mem_nil, or_false] at hmem
    rcases hmem with rfl | rfl
    · simp [rootVote] at hlive
    · rfl
  obtain rfl : w = rootVote 1 true 0 := by
    have hmem := hd.withdrawn_mem
    have hww := hd.withdrawn
    simp only [twoRootsStore, List.mem_cons, List.not_mem_nil, or_false] at hmem
    rcases hmem with rfl | rfl
    · rfl
    · simp [rootVote] at hww
  refine ⟨⟨_, hd, by decide⟩, fun c hc _ => ?_⟩
  obtain rfl : c = 0 := UInt64.le_antisymm hc UInt64.zero_le
  decide

/-- **One root's vote and another's withdrawal of the pair are read in the order
they were stored:** the hop is revoked with the vote first, and free with the
withdrawal first. -/
theorem not_orderFree_twoRootsStore :
    OneEntryPerTriple (twoRootsStore [rootVote 1 false 0, rootVote 2 true 0]) ∧
    Reordered (twoRootsStore [rootVote 1 false 0, rootVote 2 true 0])
      (twoRootsStore [rootVote 2 true 0, rootVote 1 false 0]) ∧
    coversLinks (twoRootsStore [rootVote 1 false 0, rootVote 2 true 0]) [⟨1, 3⟩] ⟨7⟩ 0 = true ∧
    coversLinks (twoRootsStore [rootVote 2 true 0, rootVote 1 false 0]) [⟨1, 3⟩] ⟨7⟩ 0 = false :=
  ⟨by decide, ⟨.swap .., .refl _, .refl _, rfl⟩, by decide, by decide⟩

end Chain
end Fuzznet
