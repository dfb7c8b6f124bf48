/-
# The completeness gate over a run

`chain/chain.c`, the `FZN_CHAIN_ERR_INCOMPLETE` gate of `fzn_chain_verify`;
`chain/manifest.c`, `fzn_manifest_admit`; `chain/revocation.c`, the
`fzn_manifest_satisfy` calls of `fzn_revocation_admit`.

From the moment a manifest names a pair as revoked, the pair is listed in the
deficit or the host holds the issuer's revocation of it live (`Listed`).  A listed
pair shuts the gate; a live entry revokes the hop, where one vote does.

Two admissions end this without a withdrawal, both over an entry that is withdrawn:
the stale copy of what was withdrawn, and a revocation that names no predecessor.
They store nothing and drain the pair, because the peer that sent them is behind.
And a manifest that names exactly the record the host has withdrawn lists nothing:
there it is the host that is ahead.
-/

import Fuzznet.Chain.Deficit
import Fuzznet.Chain.RootPass

namespace Fuzznet
namespace Chain

open Wire

/-! ### Listed or live -/

/-- The pair is listed in the deficit, or the issuer's entry for it is live. -/
def Listed (l : Ledger) (t : Triple) : Prop :=
  t ∈ l.manifest.deficit ∨ ∃ e, findEntry l.store t = some e ∧ e.withdrawn = false

/-- What an event may be for the triple to stay listed or live: no withdrawal of it is
admitted, and over a withdrawn entry no revocation of it is offered that is the one
withdrawn or names nothing. -/
def LedgerEvent.Keeps (l : Ledger) (t : Triple) : LedgerEvent → Prop
  | .revoke offer root sign hash passed => offer.record.triple = t →
      (offer.record.withdrawal = true →
        (revocationAdmit l.store offer root sign hash (l.given passed)).1 ≠ .ok) ∧
      (offer.record.withdrawal = false → ∀ e ∈ findEntry l.store t, e.withdrawn = true →
        offer.record.supersedes ≠ 0 ∧ hash.hash offer.record.bytes ≠ some e.id)
  | .manifest _ _ => True

section Run

variable {l : Ledger} {t : Triple}

/-- A manifest unlists nothing. -/
theorem Listed.manifest (h : Listed l t) (r : ManifestRecord) (sign : SignOps) :
    Listed (l.step (.manifest r sign)) t := by
  rcases h with h | h
  · left
    show t ∈ (manifestAdmit l.manifest (some l.store) r sign).2.deficit
    rcases manifestAdmit_cases l.manifest (some l.store) r sign with ⟨heq, -⟩ | ⟨row, -, -, -, -, heq⟩
    · rw [heq]
      exact h
    · rw [heq]
      exact mem_recordDeficit_of_mem _ h
  · exact Or.inr h

/-- **A revocation keeps the triple listed or live.** -/
theorem Listed.revoke (h : Listed l t) {offer : RevocationOffer} {root : Key} {sign : SignOps}
    {hash : HashOps} {passed : Bool}
    (hk : (LedgerEvent.revoke offer root sign hash passed).Keeps l t) :
    Listed (l.revoke offer root sign hash passed) t := by
  have hm := l.revoke_manifest offer root sign hash passed
  rcases l.revoke_cases offer root sign hash passed with
    ⟨hfind, hnone⟩ | ⟨id, room, hid, herr, hself, hother, hdr⟩
  · unfold Listed
    rw [hfind, hm, hnone, if_neg (by simp)]
    exact h
  rw [hdr] at hm
  by_cases ht : t = offer.record.triple
  swap
  · unfold Listed
    rw [hother t ht]
    refine h.imp_left fun hmem => ?_
    rw [hm]
    split_ifs
    · exact mem_satisfy ht hmem
    · exact hmem
  subst ht
  obtain ⟨hwd, hrev⟩ := hk rfl
  -- A record that leaves the entry live is what the second half of `Listed` asks.
  have hlive : ∀ e, findEntry (l.revoke offer root sign hash passed).store offer.record.triple =
      some e → e.withdrawn = false →
      Listed (l.revoke offer root sign hash passed) offer.record.triple :=
    fun e he hew => Or.inr ⟨e, he, hew⟩
  have hc := place_cases (findEntry l.store offer.record.triple) offer.record id room
  generalize hold : findEntry l.store offer.record.triple = old at hc
  rw [hold] at herr hself hm
  generalize place old offer.record id room = p at hc herr hself hm
  have hsame : p.entry = none → p.drain = false →
      Listed (l.revoke offer root sign hash passed) offer.record.triple := by
    intro hentry hdrain
    unfold Listed
    rw [hself, hentry, hm, hdrain, Option.none_or]
    unfold Listed at h
    rw [hold] at h
    simpa using h
  cases hc with
  | full _ => exact hsame rfl rfl
  | first _ =>
    cases hw : offer.record.withdrawal with
    | true => exact absurd herr (hwd hw)
    | false => exact hlive _ hself (by simp [RevocationRecord.entry, hw])
  | mismatch _ _ => exact hsame rfl rfl
  | withdraw hw _ _ => exact absurd herr (hwd hw)
  | stale hw hew hstale => exact absurd (hid.trans (congrArg some hstale)) (hrev hw _ hold hew).2
  | unchained hw hew _ hz => exact absurd hz (hrev hw _ hold hew).1
  | rerevoke _ _ _ _ => exact hlive _ hself rfl
  | reissue _ hew _ _ => exact hlive _ hself hew
  | known _ hew _ => exact hlive _ hself hew

/-- The manifest state stays sound. -/
theorem stateSound_step (hm : stateSound l.manifest = true) (event : LedgerEvent) :
    stateSound (l.step event).manifest = true := by
  cases event with
  | manifest r sign => exact stateSound_manifestAdmit hm
  | revoke offer root sign hash passed =>
    show stateSound (l.revoke offer root sign hash passed).manifest = true
    rw [l.revoke_manifest]
    split_ifs
    · exact stateSound_satisfy hm _
    · exact hm

/-- **Along a run the triple stays listed or live.** -/
theorem Listed.run {events : List LedgerEvent}
    (hrun : ∀ pre event, pre ++ [event] <+: events → event.Keeps (l.run pre) t)
    (hm : stateSound l.manifest = true) (h : Listed l t) :
    stateSound (l.run events).manifest = true ∧ Listed (l.run events) t := by
  refine Lib.foldl_induction (P := fun l => stateSound l.manifest = true ∧ Listed l t)
    (fun pre event hle hl => ⟨stateSound_step hl.1 event, ?_⟩) ⟨hm, h⟩
  have hk := hrun pre event hle
  cases event with
  | manifest r sign => exact hl.2.manifest r sign
  | revoke offer root sign hash passed => exact hl.2.revoke hk

/-- A manifest that dropped nothing leaves every pair it names as revoked listed or
live, but one the host has withdrawn. -/
theorem listed_of_manifestAdmit {r : ManifestRecord} {sign : SignOps} {e : ManifestEntry}
    (he : e ∈ r.entries) (hrev : e.withdrawn = false)
    (hadm : (manifestAdmit l.manifest (some l.store) r sign).1 = .ok)
    (hahead : ∀ w ∈ findEntry l.store (e.triple r.issuer), w.withdrawn = true → w.id ≠ e.id) :
    stateSound (l.step (.manifest r sign)).manifest = true ∧
      Listed (l.step (.manifest r sign)) (e.triple r.issuer) := by
  rcases manifestAdmit_cases l.manifest (some l.store) r sign with
    ⟨-, hne⟩ | ⟨row, hm, -, -, hstore, heq⟩
  · rw [hadm] at hne
    exact absurd hne (by simp [ManifestErr.recorded])
  refine ⟨stateSound_manifestAdmit hm, ?_⟩
  have hnone : (recordDeficit (some l.store) r.issuer l.manifest.deficitCapacity r.entries
      l.manifest.deficit).2 = 0 := by
    by_contra hdrop
    rw [heq, if_neg hdrop] at hadm
    simp at hadm
  cases hb : behind (some l.store) r.issuer e with
  | true =>
    left
    show e.triple r.issuer ∈ (manifestAdmit l.manifest (some l.store) r sign).2.deficit
    rw [heq]
    exact mem_recordDeficit hnone he hb
  | false =>
    right
    have hsound : storeSound l.store = true := by simpa using hstore
    cases hfind : findEntry l.store (e.triple r.issuer) with
    | none =>
      unfold ManifestEntry.triple at hfind
      simp [behind, lookup, hsound, hfind] at hb
    | some w =>
      refine ⟨w, hfind, ?_⟩
      have hid : w.id = e.id := by
        unfold ManifestEntry.triple at hfind
        simpa [behind, lookup, hsound, hfind, hrev] using hb
      by_contra hw
      exact hahead w hfind (by simpa using hw) hid

end Run

/-! ### The verdict -/

section Verdict

/-- A verdict passed every hop's mark. -/
theorem passOne_not_revoked {capability : CapId} {now : UInt64} {revoked : ℕ → Bool}
    {hops : List Hop} {i : ℕ} {prev : Option Hop} {soonest out : UInt64}
    (h : passOne capability now revoked i prev soonest hops = .ok out) {j : ℕ}
    (hj : j < hops.length) : revoked (i + j) = false := by
  induction hops generalizing i prev soonest j with
  | nil => simp at hj
  | cons hop hops ih =>
    rw [passOne] at h
    split_ifs at h with hcap hlink hissued hexpired hrevoked
    cases j with
    | zero => simpa using hrevoked
    | succ j =>
      have hnext := ih h (j := j) (by simpa using hj)
      rwa [Nat.add_assoc, Nat.add_comm 1 j] at hnext

/-- The vote is enough by itself: one is asked for or a root cast it, the root set
counts it, and no root has undone it. -/
structure SoleVote (s : RevocationStore) (rootKey : Option Key) (vote : Revocation) : Prop where
  enough : s.quorum ≤ 1 ∨ rootEntry s rootKey vote = true
  counted : rootMember s vote.issuer = true → rootEntry s none vote = true
  notUndone : ∀ w ∈ s.entries, rootEntry s rootKey w = true → w.capability = vote.capability →
    w.grantee = vote.grantee → w.withdrawn = true → w.epoch < vote.epoch

variable {s : RevocationStore}

variable {e : Revocation}

/-- The root's pass undoes no vote that is enough by itself. -/
theorem SoleVote.not_undone {h : HopQuestion} {rootKey : Option Key} (hsole : SoleVote s rootKey e)
    (hc : counts s { h with floor := none } e = true) :
    undone (rootPass s h rootKey).2 e.epoch = false := by
  simp only [counts, Bool.and_eq_true, decide_eq_true_eq] at hc
  obtain ⟨⟨⟨hcap, hgrantee⟩, -⟩, -⟩ := hc
  refine undone_rootPass fun w hw hwr hww => ?_
  simp only [rootReads, counts, Bool.and_eq_true, decide_eq_true_eq] at hwr
  obtain ⟨⟨⟨⟨hwc, hwg⟩, -⟩, -⟩, hwroot⟩ := hwr
  exact hsole.notUndone w hw hwroot (hwc.trans hcap.symm) (hwg.trans hgrantee.symm) hww

/-- A live vote of a root that the pass does not undo stops it. -/
theorem rootPass_of_live {h : HopQuestion} {rootKey : Option Key} (he : e ∈ s.entries)
    (hew : e.withdrawn = false) (hread : rootReads s h rootKey e = true)
    (hundone : undone (rootPass s h rootKey).2 e.epoch = false) :
    (rootPass s h rootKey).1 = true := by
  have hsome : rootKey.isSome = true ∨ s.roots.isSome = true := by
    have hroot : rootEntry s rootKey e = true := by
      simp only [rootReads, Bool.and_eq_true] at hread
      exact hread.2
    unfold rootEntry at hroot
    cases hr : s.roots with
    | some r => exact Or.inr rfl
    | none =>
      rw [hr] at hroot
      obtain ⟨k, hk, -⟩ := (Option.any_eq_true _ _).1 hroot
      rw [hk]
      exact Or.inl rfl
  rw [rootPass_eq_scan hsome] at hundone ⊢
  by_contra hb
  obtain ⟨heq, hlive⟩ := rootScan_false (by simpa using hb)
  rw [heq, hlive e he hread hew] at hundone
  exact absurd hundone (by simp)

/-- **A live vote that is enough by itself and counts revokes the hop.** -/
theorem judgeHop_of_live {h : HopQuestion} {rootKey : Option Key} (hsole : SoleVote s rootKey e)
    (he : e ∈ s.entries) (hew : e.withdrawn = false)
    (hc : counts s { h with floor := none } e = true) :
    (judgeHop s h rootKey (quorumOf s)).revoked = true := by
  have hundone := hsole.not_undone hc
  unfold judgeHop
  split_ifs with hb
  · rfl
  rcases hsole.enough with hq | hroot
  · have htally : 0 < tally s { h with floor := (rootPass s h rootKey).2 } (fun w _ => !w) := by
      refine List.countP_pos_iff.2 ⟨e, he, ?_⟩
      rw [counts_floor, hundone, hc, hew]
      rfl
    have hone : quorumOf s ≤ 1 := by
      unfold quorumOf
      split_ifs <;> omega
    unfold judgeVotes
    rw [if_pos (by omega)]
    rfl
  · have hread : rootReads s h rootKey e = true := by
      unfold rootReads
      rw [hc, hroot]
      rfl
    exact absurd (rootPass_of_live he hew hread hundone) hb

/-- **A grantor's live vote that is enough by itself refuses the chain.** -/
theorem coversLinks_of_live {links : List Link} {capability : CapId} {j : ℕ} (hj : j < links.length)
    (hlen : links.length ≤ chainMaxHops) (he : e ∈ s.entries) (hew : e.withdrawn = false)
    (htriple : e.triple = ⟨links[j].grantor, capability, links[j].grantee⟩)
    (hsole : SoleVote s (firstGrantor links) e) : coversLinks s links capability j = true := by
  simp only [Revocation.triple, Triple.mk.injEq] at htriple
  obtain ⟨hissuer, hcap, hgrantee⟩ := htriple
  unfold coversLinks judgeLinks
  split_ifs with hsound hempty
  · exact decide_eq_true (by omega)
  · omega
  rw [Bool.and_eq_true]
  refine ⟨decide_eq_true hj, judgeHop_of_live hsole he hew ?_⟩
  have hmem : e.issuer ∈ (links.take (j + 1)).map Link.grantor := by
    rw [hissuer]
    refine List.mem_map.2 ⟨links[j], ?_, rfl⟩
    exact List.mem_take_iff_getElem.2 ⟨j, by omega, rfl⟩
  have hentitled : entitled s (hopQuestion links capability (standingAdmins s) j) e = true := by
    unfold entitled
    rw [if_neg (by simp [hopQuestion])]
    split_ifs with hmember
    · exact hsole.counted hmember
    · rw [Bool.or_eq_true]
      exact Or.inl (decide_eq_true hmem)
  have hpair : e.capability = capability ∧
      e.grantee = (hopQuestion links capability (standingAdmins s) j).grantee :=
    ⟨hcap, by simp [hopQuestion, hj, hgrantee]⟩
  unfold counts
  rw [Bool.and_eq_true, Bool.and_eq_true]
  exact ⟨⟨decide_eq_true hpair, rfl⟩, hentitled⟩

end Verdict

/-- **The gate holds over a run.**  A manifest admitted OK names a pair as revoked, and
the host does not hold the withdrawal of just that record.  Behind every run of
admissions that keep to `Keeps` the pair is listed or the issuer's entry is live; and
so no chain with that issuer's hop for the pair is accepted, where the issuer's vote
is enough by itself. -/
theorem chainVerify_gated {l : Ledger} {r : ManifestRecord} {sign : SignOps} {e : ManifestEntry}
    (he : e ∈ r.entries) (hrev : e.withdrawn = false)
    (hadm : (manifestAdmit l.manifest (some l.store) r sign).1 = .ok)
    (hahead : ∀ w ∈ findEntry l.store (e.triple r.issuer), w.withdrawn = true → w.id ≠ e.id)
    {events : List LedgerEvent} {l' : Ledger} (hl' : l' = (l.step (.manifest r sign)).run events)
    (hrun : ∀ pre event, pre ++ [event] <+: events →
      event.Keeps ((l.step (.manifest r sign)).run pre) (e.triple r.issuer)) :
    Listed l' (e.triple r.issuer) ∧
      ∀ hops root now sign', (∃ hop ∈ hops, hop.grantor = r.issuer ∧ hop.grantee = e.grantee) →
        (∀ vote ∈ l'.store.entries, vote.triple = e.triple r.issuer →
          SoleVote l'.store (firstGrantor (hops.map Hop.link)) vote) →
        ∀ v, chainVerify hops root e.capability now sign' (some l'.store) (some l'.manifest) ≠
          .ok v := by
  obtain ⟨hm₀, h₀⟩ := listed_of_manifestAdmit he hrev hadm hahead
  obtain ⟨hm, hlisted⟩ := Listed.run hrun hm₀ h₀
  rw [← hl'] at hm hlisted
  refine ⟨hlisted, fun hops root now sign' hhop hsole v hv => ?_⟩
  obtain ⟨hlen, -, hpass, hopen, -, -⟩ := chainVerify_ok.1 hv
  obtain ⟨hop, hmem, hgrantor, hgrantee⟩ := hhop
  rcases hlisted with hdeficit | ⟨vote, hfind, hlive⟩
  · -- A listed pair is pending for the hop's grantor.
    have hpending : 0 < pending l'.manifest hop.grantor := by
      unfold pending
      rw [if_neg (by simp [hm])]
      exact List.countP_pos_iff.2 ⟨_, hdeficit, by simp [ManifestEntry.triple, hgrantor]⟩
    have hshut : gateShut (some l'.manifest) hops = true := by
      simp only [gateShut, Option.any_some, List.any_eq_true, decide_eq_true_eq]
      exact ⟨hop, hmem, hpending⟩
    exact absurd (hopen.symm.trans hshut) (by simp)
  · obtain ⟨j, hj, rfl⟩ := List.mem_iff_getElem.1 hmem
    have hj' : j < (hops.map Hop.link).length := by simpa using hj
    have htriple := findEntry_triple hfind
    have hcovers : coversLinks l'.store (hops.map Hop.link) e.capability j = true := by
      refine coversLinks_of_live hj' (by simpa using hlen) (findEntry_mem hfind) hlive ?_
        (hsole vote (findEntry_mem hfind) htriple)
      rw [htriple, ManifestEntry.triple, ← hgrantor, ← hgrantee, List.getElem_map]
      rfl
    have hmark := passOne_not_revoked hpass hj
    rw [Nat.zero_add] at hmark
    exact absurd (hmark.symm.trans hcovers) (by simp)

/-- A host of quorum `quorum` that follows the keys `1` and `2`, with room for two
entries and one pair. -/
def followingLedger (quorum : ℕ) (entries : List Revocation) : Ledger where
  store := { emptyStore 2 with entries := entries, quorum := quorum }
  manifest := ⟨[⟨1, 0, false⟩, ⟨2, 0, false⟩], 2, [], 1⟩

/-- Key `1` grants capability `7` to `2`, and `2` to `9`. -/
def grantTo9 : List Hop := [⟨1, 2, ⟨7⟩, 0, 0, true, 0⟩, ⟨2, 9, ⟨7⟩, 0, 0, true, 0⟩]

/-- A manifest of key `2` naming the pair `(7, 9)` as revoked by record `5`. -/
def manifestOf2 : ManifestRecord := { onePairManifest with issuer := 2 }

/-- Key `2`'s revocation of `(7, 9)`, its signature being its id. -/
def revocationOf9 (signature : Sig) : LedgerEvent :=
  .revoke ⟨revocationBy 2 9 0 0 0 signature, grantTo9.take 1⟩ 1 acceptingSign tailHash true

/-- An entry for `(7, 9)`: `issuer`'s record `id`, withdrawn. -/
def clearedEntry (issuer : Key) (id : RecId) : Revocation := ⟨⟨7⟩, 9, issuer, id, true, 0, 8, 0⟩

/-- The ledger behind the manifest of key `2` and `events`. -/
def Ledger.told (l : Ledger) (events : List LedgerEvent) : Ledger :=
  (l.step (.manifest manifestOf2 acceptingSign)).run events

/-- What `fzn_chain_verify` answers about the chain to `9`. -/
def Ledger.verdict (l : Ledger) : Except ChainErr VerifiedChain :=
  chainVerify grantTo9 1 ⟨7⟩ 100 acceptingSign (some l.store) (some l.manifest)

/-- The hypotheses are satisfiable: the pair is named, then its revocation arrives. -/
theorem chainVerify_followingLedger :
    ¬∃ v, ((followingLedger 1 []).told [revocationOf9 5]).verdict = .ok v := by
  have hrun : ∀ pre event, pre ++ [event] <+: [revocationOf9 5] →
      event.Keeps ((followingLedger 1 []).told pre) ⟨2, ⟨7⟩, 9⟩ := by
    refine Lib.forall_prefix fun n hn => ?_
    obtain rfl : n = 0 := Nat.lt_one_iff.1 hn
    exact fun _ => ⟨nofun, fun _ => by decide⟩
  have hgate := (chainVerify_gated (l := followingLedger 1 []) (r := manifestOf2)
    (e := ⟨⟨7⟩, 9, 5, false⟩) (by decide) rfl (by decide) nofun rfl hrun).2
  rintro ⟨v, hv⟩
  refine hgate grantTo9 1 100 acceptingSign (by decide) (fun vote hvote _ => ?_) v hv
  refine ⟨Or.inl (by decide), nofun, ?_⟩
  revert vote
  decide

/-- **The host is ahead, and a stale copy lifts the gate.**  A manifest naming as
revoked the record this host has withdrawn lists nothing, and the chain is accepted.
One naming another record lists the pair, and the chain is refused until the copy of
the withdrawn record is offered again, which stores nothing and answers OK.  Where the
revocation arrives, one vote of two asked for leaves the chain accepted, and so does
one that the root has undone. -/
theorem chainVerify_clearedEntry :
    (∀ entries ∈ [[clearedEntry 2 5], [clearedEntry 2 4], [], [clearedEntry 1 4]],
      ∀ quorum ∈ [1, 2], (manifestAdmit (followingLedger quorum entries).manifest
        (some (followingLedger quorum entries).store) manifestOf2 acceptingSign).1 = .ok) ∧
    ((followingLedger 1 [clearedEntry 2 5]).told []).verdict.toOption.isSome = true ∧
    ((followingLedger 1 [clearedEntry 2 4]).told []).verdict = .error .incomplete ∧
    ((followingLedger 1 [clearedEntry 2 4]).told [revocationOf9 4]).verdict.toOption.isSome =
      true ∧
    ((followingLedger 2 []).told [revocationOf9 5]).verdict.toOption.isSome = true ∧
    ((followingLedger 1 [clearedEntry 1 4]).told [revocationOf9 5]).verdict.toOption.isSome =
      true :=
  ⟨by decide +kernel, by decide +kernel, by decide +kernel, by decide +kernel, by decide +kernel,
    by decide⟩

end Chain
end Fuzznet
