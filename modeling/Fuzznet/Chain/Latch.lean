/-
# The latch over a run

`chain/revocation.c`: `epoch_closed`, `open_epoch`, `judge_hop` and
`fzn_revocation_admit`; `chain/revocation.h`, the k-of-n rule.

Once `k` counted issuers have voted on a pair in one epoch, that epoch holds the
hop revoked until `k` of the counted issuers have left it, by withdrawing in it or
by voting in a later one (`judgeVotes_latched`).  Two things keep a run of
admissions inside the latch: the issuers that voted in the epoch vote again only
in it, and fewer than `k` leave it (`coversLinks_latched`).

A vote in a later epoch is one way of leaving, so withdrawals alone do not bound
the leavers: one withdrawal and one vote in a later epoch release a latch of two
(`not_latched_laterVote`).
-/

import Fuzznet.Chain.Admit
import Fuzznet.Chain.RootPass

namespace Fuzznet
namespace Chain

open Wire

/-! ### The latch of one epoch -/

section Epoch

variable {s : RevocationStore} {h : HopQuestion} {q : ℕ} {epoch : UInt64}

/-- Every epoch below one that `q` counted issuers voted in is closed. -/
theorem epochClosed_below (hvoted : q ≤ tally s h fun _ a => a = epoch) {c : UInt64}
    (hc : c < epoch) : epochClosed s h c q = true := by
  unfold epochClosed
  refine decide_eq_true (hvoted.trans (tally_mono fun w a ha => ?_))
  obtain rfl : a = epoch := by simpa using ha
  simp [leftEpoch, hc]

/-- An epoch that `q` counted issuers voted in and fewer have left is the open one. -/
theorem openEpoch_latched (hvoted : q ≤ tally s h fun _ a => a = epoch)
    (hleft : tally s h (leftEpoch epoch) < q) (hfloor : undone h.floor epoch = false) :
    openEpoch s h q = epoch := by
  have hopen : epochClosed s h epoch q = false := by
    unfold epochClosed
    exact decide_eq_false (not_le_of_gt hleft)
  unfold openEpoch
  cases hf : h.floor with
  | none => exact openFrom_eq UInt64.zero_le hopen fun d _ hd => epochClosed_below hvoted hd
  | some f =>
    have hlt : f < epoch := by
      have hnot : ¬epoch ≤ f := by simpa [hf, undone] using hfloor
      exact UInt64.not_le.1 hnot
    have hmax : f ≠ maxEpoch := by
      rintro rfl
      exact UInt64.not_le.2 hlt (le_maxEpoch epoch)
    simp only [hmax, if_false]
    exact openFrom_eq (add_one_le_epoch hlt) hopen fun d _ hd => epochClosed_below hvoted hd

/-- **The latch of an epoch:** `q` counted issuers voted in it and fewer have left
it, so the hop is revoked. -/
theorem judgeVotes_latched (hvoted : q ≤ tally s h fun _ a => a = epoch)
    (hleft : tally s h (leftEpoch epoch) < q) (hfloor : undone h.floor epoch = false) :
    (judgeVotes s h q).revoked = true := by
  have hall : q ≤ tally s h fun _ _ => true := hvoted.trans (tally_mono fun _ _ _ => rfl)
  have hwithdrawn : tally s h (fun w a => decide (a = epoch) && w) < q := by
    refine lt_of_le_of_lt (tally_mono fun w a ha => ?_) hleft
    simp [leftEpoch, ha]
  unfold judgeVotes
  rw [openEpoch_latched hvoted hleft hfloor]
  split_ifs with hlive htotal hlatch
  · rfl
  · omega
  · rfl
  · exact absurd (by simp [latchedIn, hvoted, hwithdrawn]) hlatch

end Epoch

/-! ### Who may vote -/

/-- The key is a root of the hop: a member of the set, or the chain's own. -/
def rootIssuer (s : RevocationStore) (rootKey : Option Key) (key : Key) : Bool :=
  match s.roots with
  | some r => r.member key
  | none => rootKey.any fun k => key = k

/-- The key is one of the hop's ancestors, or an admin that counts. -/
def entitledKey (s : RevocationStore) (h : HopQuestion) (key : Key) : Bool :=
  h.grantors.contains key || (s.hasAdmin && adminCounts s h.adminOk key)

/-- The issuers whose votes on the hop are counted in an epoch. -/
def voters (s : RevocationStore) (h : HopQuestion) (epoch : UInt64) : Finset Key :=
  ((s.entries.filter fun e => counts s h e && decide (e.epoch = epoch)).map Revocation.issuer).toFinset

section Voters

variable {s : RevocationStore} {h : HopQuestion} {rootKey : Option Key} {e : Revocation}

theorem mem_voters {epoch : UInt64} {x : Key} :
    x ∈ voters s h epoch ↔ ∃ e ∈ s.entries, counts s h e = true ∧ e.epoch = epoch ∧ e.issuer = x := by
  simp [voters, and_assoc]

theorem rootIssuer_of_rootReads (hr : rootReads s h rootKey e = true) :
    rootIssuer s rootKey e.issuer = true := by
  simp only [rootReads, Bool.and_eq_true] at hr
  unfold rootIssuer
  unfold rootEntry at hr
  cases hroots : s.roots with
  | none => simpa [hroots] using hr.2
  | some r =>
    simp only [hroots, Bool.and_eq_true] at hr
    exact hr.2.1

/-- A root's entry that counts is one the root's pass reads. -/
theorem rootReads_of_counts (hany : h.anyIssuer = false)
    (hroot : rootIssuer s rootKey e.issuer = true)
    (hc : counts s { h with floor := none } e = true) : rootReads s h rootKey e = true := by
  simp only [rootReads, hc, Bool.true_and]
  unfold rootIssuer at hroot
  cases hroots : s.roots with
  | none => simpa [rootEntry, hroots] using hroot
  | some r =>
    have hmem : r.member e.issuer = true := by simpa [hroots] using hroot
    have hent : entitled s { h with floor := none } e = true := by
      simp only [counts, Bool.and_eq_true] at hc
      exact hc.2
    simpa [entitled, hany, rootMember, rootEntry, hroots, hmem] using hent

/-- For who is no root, an entry counts by its pair, its epoch and its issuer. -/
theorem counts_of_not_root (hany : h.anyIssuer = false)
    (hroot : rootIssuer s rootKey e.issuer = false) (floor : Option UInt64) :
    counts s { h with floor := floor } e =
      (decide (e.capability = h.capability ∧ e.grantee = h.grantee) &&
        !undone floor e.epoch && entitledKey s h e.issuer) := by
  have hmem : rootMember s e.issuer = false := by
    unfold rootIssuer at hroot
    unfold rootMember
    cases hroots : s.roots with
    | none => rfl
    | some r => simpa [hroots] using hroot
  simp [counts, entitled, entitledKey, hany, hmem]

/-- The question `judge_hop` takes its votes under, behind the root's undo. -/
def behindUndo (s : RevocationStore) (h : HopQuestion) (rootKey : Option Key) : HopQuestion :=
  { h with floor := (rootPass s h rootKey).2 }

variable (hk : rootKey.isSome = true) (hb : (rootPass s h rootKey).1 = false)
include hk hb

/-- A root's withdrawal is undone by itself. -/
theorem undone_of_rootReads {a : UInt64} (he : e ∈ s.entries)
    (hr : rootReads s h rootKey e = true) (hw : e.withdrawn = true) (ha : a ≤ e.epoch) :
    undone (behindUndo s h rootKey).floor a = true := by
  rw [rootPass_eq_scan (Or.inl hk)] at hb
  rw [behindUndo, rootPass_eq_scan (Or.inl hk), (rootScan_false hb).1]
  exact undone_undo (Or.inr ⟨e, he, hr, hw, ha⟩)

/-- **Where no root's vote settles the hop, no root's entry is counted.** -/
theorem not_root_of_counts (hany : h.anyIssuer = false) (he : e ∈ s.entries)
    (hc : counts s (behindUndo s h rootKey) e = true) : rootIssuer s rootKey e.issuer = false := by
  by_contra hroot
  rw [behindUndo, counts_floor, Bool.and_eq_true, Bool.not_eq_true'] at hc
  have hr := rootReads_of_counts hany (by simpa using hroot) hc.2
  have hundone : undone (behindUndo s h rootKey).floor e.epoch = true := by
    cases hw : e.withdrawn with
    | true => exact undone_of_rootReads hk hb he hr hw (UInt64.le_refl _)
    | false =>
      rw [rootPass_eq_scan (Or.inl hk)] at hb
      rw [behindUndo, rootPass_eq_scan (Or.inl hk), (rootScan_false hb).1]
      exact (rootScan_false hb).2 e he hr hw
  exact absurd hundone (by simp [behindUndo, hc.1])

end Voters

/-! ### A run inside the latch -/

/-- What a record of the pair may be, `left` being who may leave `epoch` and `voted`
who voted in it: no root's withdrawal; a withdrawal or a vote past the epoch of
one who may leave; and a vote in the epoch, of who voted there. -/
structure Inside (s : RevocationStore) (h : HopQuestion) (rootKey : Option Key) (epoch : UInt64)
    (voted left : Finset Key) (r : RevocationRecord) : Prop where
  rootHolds : r.withdrawal = true → rootIssuer s rootKey r.issuer = false
  withdraws : r.withdrawal = true → entitledKey s h r.issuer = true → r.issuer ∈ left
  votesPast : r.withdrawal = false → epoch < r.epoch → rootIssuer s rootKey r.issuer = false →
    entitledKey s h r.issuer = true → r.issuer ∈ left
  votesAgain : r.withdrawal = false → r.issuer ∈ voted → r.epoch = epoch

/-- What holds of the entry of `x` all along a run from `s`. -/
structure Held (s : RevocationStore) (h : HopQuestion) (rootKey : Option Key) (epoch : UInt64)
    (voted left : Finset Key) (x : Key) (old : Option Revocation) : Prop where
  leaves : ∀ e ∈ old, rootIssuer s rootKey x = false → entitledKey s h x = true →
    leftEpoch epoch e.withdrawn e.epoch = true → x ∈ left
  root : ∀ e ∈ old, rootIssuer s rootKey x = true → e.withdrawn = true → e ∈ s.entries
  stays : x ∈ voted → ∃ e ∈ old, e.epoch = epoch

section Run

variable {s : RevocationStore} {h : HopQuestion} {rootKey : Option Key} {epoch : UInt64}
  {voted left : Finset Key}

/-- A live vote leaves an epoch only by being past it. -/
theorem leftEpoch_live {a : UInt64} : leftEpoch epoch false a = true ↔ epoch < a := by
  simp [leftEpoch]

/-- A live vote of the record keeps what holds of its issuer's entry. -/
theorem Held.live {r : RevocationRecord} {old : Option Revocation} {e : Revocation}
    (hr : Inside s h rootKey epoch voted left r) (hw : r.withdrawal = false)
    (hew : e.withdrawn = false) (hepoch : e.epoch = r.epoch) :
    Held s h rootKey epoch voted left r.issuer ((some e).or old) where
  leaves := by
    rintro _ ⟨⟩ hroot hent hl
    rw [hew, leftEpoch_live, hepoch] at hl
    exact hr.votesPast hw hl hroot hent
  root := by
    rintro _ ⟨⟩ - hew'
    exact absurd hew' (by simp [hew])
  stays := fun hx => ⟨e, rfl, hepoch.trans (hr.votesAgain hw hx)⟩

/-- **An admission inside the latch keeps what holds of the issuer's entry.** -/
theorem Held.place {r : RevocationRecord} {id : RecId} {room : Bool} {old : Option Revocation}
    (hold : Held s h rootKey epoch voted left r.issuer old)
    (hr : (place old r id room).err = .ok → Inside s h rootKey epoch voted left r) :
    Held s h rootKey epoch voted left r.issuer ((Chain.place old r id room).entry.or old) := by
  have hc := place_cases old r id room
  generalize Chain.place old r id room = p at hc hr
  cases hc with
  | full _ => exact hold
  | first _ =>
    have hin := hr rfl
    cases hw : r.withdrawal with
    | false => exact Held.live hin hw (by simp [RevocationRecord.entry, hw]) rfl
    | true =>
      -- A tombstone is the first entry, so its issuer did not vote before.
      refine ⟨?_, ?_, fun hx => ?_⟩
      · rintro _ ⟨⟩ - hent -
        exact hin.withdraws hw hent
      · rintro _ ⟨⟩ hroot -
        exact absurd hroot (by simp [hin.rootHolds hw])
      · obtain ⟨e, ⟨⟩, -⟩ := hold.stays hx
  | mismatch _ _ => exact hold
  | @withdraw e hw _ _ =>
    have hin := hr rfl
    refine ⟨?_, ?_, fun hx => ?_⟩
    · rintro _ ⟨⟩ - hent -
      exact hin.withdraws hw hent
    · rintro _ ⟨⟩ hroot -
      exact absurd hroot (by simp [hin.rootHolds hw])
    · obtain ⟨_, ⟨⟩, hepoch⟩ := hold.stays hx
      exact ⟨_, rfl, hepoch⟩
  | stale _ _ _ => exact hold
  | unchained _ _ _ _ => exact hold
  | rerevoke hw _ _ _ => exact Held.live (hr rfl) hw rfl rfl
  | reissue hw hew _ _ => exact Held.live (hr rfl) hw hew rfl
  | known _ _ _ => exact hold

/-- What holds at the start of a run, `voted` being the issuers counted in an epoch
that is not undone. -/
theorem held_start (h1 : OneEntryPerTriple s) (hany : h.anyIssuer = false)
    (hundone : undone (behindUndo s h rootKey).floor epoch = false)
    (hleft : ∀ e ∈ s.entries, counts s (behindUndo s h rootKey) e = true →
      leftEpoch epoch e.withdrawn e.epoch = true → e.issuer ∈ left) (x : Key) :
    Held s h rootKey epoch (voters s (behindUndo s h rootKey) epoch) left x
      (findEntry s ⟨x, h.capability, h.grantee⟩) where
  leaves := by
    intro e he hroot hent hl
    have htriple := findEntry_triple he
    simp only [Revocation.triple, Triple.mk.injEq] at htriple
    obtain ⟨rfl, hcap, hgrantee⟩ := htriple
    refine hleft e (findEntry_mem he) ?_ hl
    have hle : epoch ≤ e.epoch := by
      simp only [leftEpoch, Bool.or_eq_true, decide_eq_true_eq, Bool.and_eq_true] at hl
      rcases hl with hlt | ⟨heq, -⟩
      · exact UInt64.le_of_lt hlt
      · rw [heq]
        exact UInt64.le_refl _
    have hnot : undone (rootPass s h rootKey).2 e.epoch = false := by
      unfold undone at hundone ⊢
      cases hf : (rootPass s h rootKey).2 with
      | none => rfl
      | some f =>
        simp only [behindUndo, hf, Option.any_some, decide_eq_false_iff_not] at hundone ⊢
        exact fun hbelow => hundone (UInt64.le_trans hle hbelow)
    rw [behindUndo, counts_of_not_root hany hroot, hnot]
    simpa [hcap, hgrantee] using hent
  root := fun e he _ _ => findEntry_mem he
  stays := by
    intro hx
    obtain ⟨e, he, hc, hepoch, rfl⟩ := mem_voters.1 hx
    simp only [counts, Bool.and_eq_true, decide_eq_true_eq] at hc
    refine ⟨e, (Lib.row_eq_some_iff h1).2 ⟨he, ?_⟩, hepoch⟩
    rw [Revocation.triple, hc.1.1.1, hc.1.1.2]
    rfl

variable {root : Key} {sign : SignOps} {hash : HashOps} {m : Option ManifestState}
  {offers : List RevocationOffer}

/-- **What holds at the start holds behind a run inside the latch.** -/
theorem held_mergedStore
    (hrun : ∀ o, Admitted s root sign hash m offers o → o.record.capability = h.capability →
      o.record.grantee = h.grantee → Inside s h rootKey epoch voted left o.record)
    (hstart : ∀ x, Held s h rootKey epoch voted left x (findEntry s ⟨x, h.capability, h.grantee⟩))
    (x : Key) :
    Held s h rootKey epoch voted left x
      (findEntry (mergedStore s root sign hash m offers) ⟨x, h.capability, h.grantee⟩) := by
  refine mergedStore_induction
    (P := fun s' => ∀ x, Held s h rootKey epoch voted left x
      (findEntry s' ⟨x, h.capability, h.grantee⟩)) (fun o _ s' m' hadm hs' x => ?_) hstart x
  rcases findEntry_revocationAdmit (s := s') o root sign hash m' ⟨x, h.capability, h.grantee⟩ with
    ⟨heq, -⟩ | ⟨id, room, -, ht, herr, heq⟩
  · rw [heq]
    exact hs' x
  · rw [heq]
    rw [herr] at hadm
    simp only [RevocationRecord.triple, Triple.mk.injEq] at ht
    obtain ⟨rfl, hcap, hgrantee⟩ := ht
    exact (hs' _).place fun hok => hrun o (hadm hok) hcap.symm hgrantee.symm

end Run

/-- **The latch of an epoch in a store a run led to.** -/
theorem judgeHop_held {s s' : RevocationStore} {h : HopQuestion} {rootKey : Option Key}
    {epoch : UInt64} {voted left : Finset Key} {q : ℕ} {es : List Revocation} {gen : ℕ}
    (hs' : s' = { s with entries := es, generation := gen }) (h1 : OneEntryPerTriple s')
    (hany : h.anyIssuer = false) (hk : rootKey.isSome = true)
    (hheld : ∀ x, Held s h rootKey epoch voted left x
      (findEntry s' ⟨x, h.capability, h.grantee⟩))
    (hundo : ∀ e ∈ s.entries, rootReads s h rootKey e = true → e.withdrawn = true → e.epoch < epoch)
    (hvoter : ∀ x ∈ voted, rootIssuer s rootKey x = false ∧ entitledKey s h x = true)
    (hvoted : q ≤ voted.card) (hfew : left.card < q) : (judgeHop s' h rootKey q).revoked = true := by
  have hmem : ∀ e ∈ s'.entries, counts s' { h with floor := none } e = true →
      findEntry s' ⟨e.issuer, h.capability, h.grantee⟩ = some e := by
    intro e he hc
    simp only [counts, Bool.and_eq_true, decide_eq_true_eq] at hc
    refine (Lib.row_eq_some_iff h1).2 ⟨he, ?_⟩
    rw [Revocation.triple, hc.1.1.1, hc.1.1.2]
  unfold judgeHop
  split_ifs with hb
  · rfl
  have hb' : (rootPass s' h rootKey).1 = false := by simpa using hb
  -- The root has undone nothing since the start, so the epoch is past its floor.
  have hundone : undone (rootPass s' h rootKey).2 epoch = false := by
    refine undone_rootPass fun w hw hwr hww => ?_
    have hwc : counts s' { h with floor := none } w = true := by
      simp only [rootReads, Bool.and_eq_true] at hwr
      exact hwr.1
    have hroot : rootIssuer s rootKey w.issuer = true := by
      have hissuer := rootIssuer_of_rootReads hwr
      rwa [hs'] at hissuer
    have hws : w ∈ s.entries := (hheld w.issuer).root w (hmem w hw hwc) hroot hww
    exact hundo w hws (by rwa [hs'] at hwr) hww
  have hkeep : ∀ e ∈ s'.entries, counts s' (behindUndo s' h rootKey) e = true →
      findEntry s' ⟨e.issuer, h.capability, h.grantee⟩ = some e := by
    intro e he hc
    rw [behindUndo, counts_floor, Bool.and_eq_true] at hc
    exact hmem e he hc.2
  refine judgeVotes_latched ?_ ?_ hundone
  · refine hvoted.trans (Lib.card_le_countP Revocation.issuer voted fun x hx => ?_)
    obtain ⟨e, he, hepoch⟩ := (hheld x).stays hx
    have htriple := findEntry_triple he
    simp only [Revocation.triple, Triple.mk.injEq] at htriple
    obtain ⟨rfl, hcap, hgrantee⟩ := htriple
    obtain ⟨hroot, hent⟩ := hvoter _ hx
    refine ⟨e, findEntry_mem he, ?_, rfl⟩
    have hroot' : rootIssuer s' rootKey e.issuer = false := by rwa [hs']
    have hent' : entitledKey s' h e.issuer = true := by rwa [hs']
    rw [counts_of_not_root hany hroot']
    simpa [hcap, hgrantee, hepoch, hundone] using hent'
  · refine lt_of_le_of_lt (Lib.countP_le_card h1 Revocation.issuer left ?_ ?_) hfew
    · intro e he hp
      rw [Bool.and_eq_true] at hp
      have hroot := not_root_of_counts hk hb' hany he hp.1
      have hent : entitledKey s' h e.issuer = true := by
        have hc := hp.1
        rw [counts_of_not_root hany hroot, Bool.and_eq_true] at hc
        exact hc.2
      rw [hs'] at hroot hent
      exact (hheld e.issuer).leaves e (hkeep e he hp.1) hroot hent hp.2
    · intro a ha b hb hpa hpb hab
      rw [Bool.and_eq_true] at hpa hpb
      have hra := hkeep a ha hpa.1
      have hrb := hkeep b hb hpb.1
      rw [hab, hrb] at hra
      rw [Option.some.inj hra]

/-- The question the votes on hop `i` are taken under, in the store as it is. -/
def voteQuestion (s : RevocationStore) (links : List Link) (capability : CapId) (i : ℕ) :
    HopQuestion :=
  behindUndo s (hopQuestion links capability (standingAdmins s) i) (firstGrantor links)

/-- **The latch holds over a run.**  Where no root's vote settles the hop, `k` counted
issuers have voted in one epoch, and fewer than `k` counted issuers have left it or
leave it in the run: the hop is revoked behind every run of admissions in which no
root withdraws, whoever had voted in the epoch votes again only in it, and the
admins who stand are the same. -/
theorem coversLinks_latched {s : RevocationStore} {links : List Link} {capability : CapId} {i : ℕ}
    (epoch : UInt64) (left : Finset Key) {root : Key} {sign : SignOps} {hash : HashOps}
    {m : Option ManifestState} {offers : List RevocationOffer} (h1 : OneEntryPerTriple s)
    (hi : i < links.length) (hlen : links.length ≤ chainMaxHops)
    (hb : (rootPass s (hopQuestion links capability (standingAdmins s) i)
      (firstGrantor links)).1 = false)
    (hvoted : quorumOf s ≤ (voters s (voteQuestion s links capability i) epoch).card)
    (hleft : ∀ e ∈ s.entries, counts s (voteQuestion s links capability i) e = true →
      leftEpoch epoch e.withdrawn e.epoch = true → e.issuer ∈ left)
    (hfew : left.card < quorumOf s)
    (hrun : ∀ o, Admitted s root sign hash m offers o → o.record.capability = capability →
      links[i]?.map Link.grantee = some o.record.grantee →
      Inside s (hopQuestion links capability (standingAdmins s) i) (firstGrantor links) epoch
        (voters s (voteQuestion s links capability i) epoch) left o.record)
    (hadmins : (mergedStore s root sign hash m offers).admins = s.admins)
    (hstand : standingAdmins (mergedStore s root sign hash m offers) = standingAdmins s) :
    coversLinks (mergedStore s root sign hash m offers) links capability i = true := by
  have hk : (firstGrantor links).isSome = true := by
    cases links with
    | nil => exact absurd hi (by simp)
    | cons link links => rfl
  have hvoter : ∀ x ∈ voters s (voteQuestion s links capability i) epoch, ∃ e ∈ s.entries,
      e.issuer = x ∧ e.epoch = epoch ∧ counts s (voteQuestion s links capability i) e = true ∧
        rootIssuer s (firstGrantor links) x = false := by
    intro x hx
    obtain ⟨e, he, hc, hepoch, rfl⟩ := mem_voters.1 hx
    exact ⟨e, he, rfl, hepoch, hc, not_root_of_counts hk hb rfl he hc⟩
  have hundone : undone (voteQuestion s links capability i).floor epoch = false := by
    obtain ⟨x, hx⟩ := Finset.card_pos.1 ((quorumOf_pos s).trans_le hvoted)
    obtain ⟨e, -, -, rfl, hc, -⟩ := hvoter x hx
    simp only [counts, Bool.and_eq_true, Bool.not_eq_true'] at hc
    exact hc.1.2
  have hgrantee : ∀ {g : Key}, g = (hopQuestion links capability (standingAdmins s) i).grantee →
      links[i]?.map Link.grantee = some g := by
    rintro g rfl
    simp [hopQuestion, hi]
  have hheld := held_mergedStore (fun o ho hcap hg => hrun o ho hcap (hgrantee hg))
    (held_start h1 rfl hundone hleft)
  have hsame : SameSettings s (mergedStore s root sign hash m offers) :=
    sameSettings_mergedStore m offers
  unfold SameSettings at hsame
  rw [hadmins] at hsame
  have hq : quorumOf (mergedStore s root sign hash m offers) = quorumOf s := by rw [hsame]; rfl
  unfold coversLinks judgeLinks
  rw [hstand, hq]
  split_ifs with hsound hempty
  · exact decide_eq_true (by omega)
  · omega
  · rw [Bool.and_eq_true]
    refine ⟨decide_eq_true hi, judgeHop_held hsame (oneEntry_mergedStore h1 m offers) rfl hk hheld
      (fun e he hr hw => ?_) (fun x hx => ?_) hvoted hfew⟩
    · by_contra hnot
      have hbelow := undone_of_rootReads hk hb (a := epoch) he hr hw (UInt64.not_lt.1 hnot)
      exact absurd (hundone.symm.trans hbelow) (by simp)
    · obtain ⟨e, -, rfl, -, hc, hroot⟩ := hvoter x hx
      rw [voteQuestion, behindUndo, counts_of_not_root rfl hroot, Bool.and_eq_true] at hc
      exact ⟨hroot, hc.2⟩

/-- In a store without admins none stands. -/
theorem standingAdmins_of_none {s : RevocationStore} (h : s.admins = []) :
    standingAdmins s = fun _ => false := by
  funext a
  simp [standingAdmins, firstStratum, h]

/-- A store of quorum two in which keys `2` and `3`, under the root `1`, have revoked
`(7, 4)` in epoch 0. -/
def twoVotesStore : RevocationStore :=
  { emptyStore 2 with
    quorum := 2
    entries := [⟨⟨7⟩, 4, 2, 10, false, 0, 10, 0⟩, ⟨⟨7⟩, 4, 3, 11, false, 0, 11, 0⟩] }

/-- Key `2` revokes the pair once more, in `epoch`. -/
def againBy2 (epoch : UInt64) : RevocationOffer where
  record := revocationBy 2 4 10 epoch 0 12
  hops := [⟨1, 2, ⟨7⟩, 0, 0, true, 0⟩]

/-- Key `3` withdraws. -/
def withdrawnBy3 : RevocationOffer where
  record := withdrawalBy 3 4 11 0 13 (by decide)
  hops := [⟨1, 2, ⟨7⟩, 0, 0, true, 0⟩, ⟨2, 3, ⟨7⟩, 0, 0, true, 0⟩]

/-- The hypotheses are satisfiable: one of two withdraws, the other votes again in
the same epoch. -/
theorem coversLinks_twoVotesStore :
    coversLinks (mergedStore twoVotesStore 1 acceptingSign tailHash none [withdrawnBy3, againBy2 0])
      [⟨1, 2⟩, ⟨2, 3⟩, ⟨3, 4⟩] ⟨7⟩ 2 = true := by
  have hadmins : (mergedStore twoVotesStore 1 acceptingSign tailHash none
      [withdrawnBy3, againBy2 0]).admins = [] := by decide +kernel
  refine coversLinks_latched 0 {3} (by decide) (by decide) (by decide) (by decide) (by decide)
    (by decide) (by decide) (fun o ho _ _ => ?_) hadmins ?_
  · rcases List.mem_pair.1 ho.mem with rfl | rfl
    · exact ⟨by decide, by decide, nofun, nofun⟩
    · exact ⟨nofun, nofun, by decide, by decide⟩
  · rw [standingAdmins_of_none hadmins]
    exact (standingAdmins_of_none rfl).symm

/-- **One withdrawal and one later vote release a latch of two.**  The hop is revoked
by two live votes; one of the two withdraws, and the hop stays revoked; the other
revokes once more, in a later epoch, and the hop is free. -/
theorem not_latched_laterVote :
    OneEntryPerTriple twoVotesStore ∧ quorumOf twoVotesStore = 2 ∧
    coversLinks twoVotesStore [⟨1, 2⟩, ⟨2, 3⟩, ⟨3, 4⟩] ⟨7⟩ 2 = true ∧
    (revocationAdmit twoVotesStore withdrawnBy3 1 acceptingSign tailHash none).1 = .ok ∧
    coversLinks (mergedStore twoVotesStore 1 acceptingSign tailHash none [withdrawnBy3])
      [⟨1, 2⟩, ⟨2, 3⟩, ⟨3, 4⟩] ⟨7⟩ 2 = true ∧
    (againBy2 5).record.withdrawal = false ∧
    (revocationAdmit (mergedStore twoVotesStore 1 acceptingSign tailHash none [withdrawnBy3])
      (againBy2 5) 1 acceptingSign tailHash none).1 = .ok ∧
    coversLinks (mergedStore twoVotesStore 1 acceptingSign tailHash none [withdrawnBy3, againBy2 5])
      [⟨1, 2⟩, ⟨2, 3⟩, ⟨3, 4⟩] ⟨7⟩ 2 = false := by
  decide +kernel

end Chain
end Fuzznet
