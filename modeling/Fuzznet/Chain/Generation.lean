/-
# What the generation covers

`chain/revocation.c`: every operation that writes a store, and
`chain/revocation.h`, `generation`: "bumped whenever this store's answers could
change".

Two branches of `fzn_revocation_admit` write an entry and leave the generation
where it was: a withdrawal of an entry withdrawn already, which changes the record
held, and a reissue over a live entry with the line where it was, which changes
the id, the record held and the epoch.  No answer reads the id.  The record held
is read by the root set alone, and the epoch by every tally; a write that keeps
both (`Quiet`) leaves every answer as it was, and every other write bumps.  A write
that moves the epoch is in some store a change of an answer (`exists_epoch_moves`),
so no less can be asked (`answersAgree_of_generation`).

Through every run a store keeps one row a key and the room it was given (`WellKept`).
-/

import Fuzznet.Chain.Latch

namespace Fuzznet
namespace Chain

open Wire

/-! ### Entries that read alike -/

/-- Two entries that every question reads alike: they differ in the id, and in the
record held only where the root set counts both or neither. -/
structure SameVote (s : RevocationStore) (e e' : Revocation) : Prop where
  capability : e'.capability = e.capability
  grantee : e'.grantee = e.grantee
  issuer : e'.issuer = e.issuer
  withdrawn : e'.withdrawn = e.withdrawn
  epoch : e'.epoch = e.epoch
  cut : e'.cut = e.cut
  held : ∀ r ∈ s.roots, r.member e.issuer = true →
    r.counts e.issuer e'.held = r.counts e.issuer e.held

section SameVotes

variable {s : RevocationStore}

theorem SameVote.refl (e : Revocation) : SameVote s e e :=
  ⟨rfl, rfl, rfl, rfl, rfl, rfl, fun _ _ _ => rfl⟩

theorem SameVote.rootEntry_eq {e e' : Revocation} (hv : SameVote s e e') (rootKey : Option Key) :
    rootEntry s rootKey e' = rootEntry s rootKey e := by
  unfold rootEntry
  cases hroots : s.roots with
  | none => simp only [hv.issuer]
  | some r =>
    simp only [hv.issuer]
    cases hmem : r.member e.issuer with
    | false => rfl
    | true => rw [hv.held r hroots hmem]

theorem SameVote.counts_eq {e e' : Revocation} (hv : SameVote s e e') (h : HopQuestion) :
    counts s h e' = counts s h e := by
  unfold counts entitled
  rw [hv.capability, hv.grantee, hv.epoch, hv.issuer, hv.rootEntry_eq]

theorem rootScan_of_sameVotes {es es' : List Revocation} (hv : List.Forall₂ (SameVote s) es es')
    (h : HopQuestion) (rootKey : Option Key) (floor : Option UInt64) :
    rootScan s h rootKey es' floor = rootScan s h rootKey es floor := by
  induction hv generalizing floor with
  | nil => rfl
  | cons he _ ih =>
    rw [rootScan_cons, rootScan_cons, he.counts_eq, he.rootEntry_eq, he.withdrawn, he.epoch, ih, ih]

variable {es : List Revocation} (hv : List.Forall₂ (SameVote s) s.entries es)
include hv

theorem sameTallies_of_sameVotes (h : HopQuestion) :
    SameTallies { s with entries := es } s h h := by
  intro p
  refine (Lib.countP_forall₂ hv fun e e' he => ?_).symm
  rw [← he.counts_eq h, he.withdrawn, he.epoch]
  rfl

theorem rootPass_of_sameVotes (h : HopQuestion) (rootKey : Option Key) :
    rootPass { s with entries := es } h rootKey = rootPass s h rootKey := by
  unfold rootPass
  split_ifs
  · rfl
  · exact rootScan_of_sameVotes hv h rootKey none

/-- **Entries that read alike are judged alike.** -/
theorem judgeHop_of_sameVotes (h : HopQuestion) (rootKey : Option Key) (q : ℕ) :
    judgeHop { s with entries := es } h rootKey q = judgeHop s h rootKey q := by
  refine judgeHop_congr ?_ (fun _ => ?_) (fun floor => sameTallies_of_sameVotes hv _) q
  · rw [rootPass_of_sameVotes hv]
  · rw [rootPass_of_sameVotes hv]

theorem judgeLinks_of_sameVotes (links : List Link) (capability : CapId) (ok : ℕ → Bool) (i : ℕ) :
    judgeLinks { s with entries := es } links capability ok i =
      judgeLinks s links capability ok i := by
  unfold judgeLinks
  rw [judgeHop_of_sameVotes hv]
  rfl

theorem standingAdmins_of_sameVotes :
    standingAdmins { s with entries := es } = standingAdmins s := by
  have hrevoked : ∀ confirmed ad,
      adminRevoked { s with entries := es } confirmed ad = adminRevoked s confirmed ad := by
    intro confirmed ad
    unfold adminRevoked
    congr 1
    funext i
    exact judgeLinks_of_sameVotes hv ..
  have hfirst : firstStratum { s with entries := es } = firstStratum s := by
    funext a
    unfold firstStratum
    congr 1
    funext ad
    rw [hrevoked]
    rfl
  funext a
  unfold standingAdmins
  rw [hfirst]
  rfl

theorem coversLinks_of_sameVotes (links : List Link) (capability : CapId) (i : ℕ) :
    coversLinks { s with entries := es } links capability i = coversLinks s links capability i := by
  have hsound : storeSound { s with entries := es } = storeSound s := by
    simp only [storeSound, hv.length_eq]
  unfold coversLinks
  rw [hsound, standingAdmins_of_sameVotes hv, judgeLinks_of_sameVotes hv]

theorem bindingCuts_of_sameVotes (h : HopQuestion) (rootKey : Option Key) (verdict : HopVerdict) :
    bindingCuts { s with entries := es } h rootKey verdict = bindingCuts s h rootKey verdict := by
  have hfloor : fullFloor { s with entries := es } h rootKey = fullFloor s h rootKey := by
    rw [fullFloor_eq, fullFloor_eq]
    refine (Lib.foldl_forall₂ hv (fun floor e e' he => ?_) none).symm
    rw [he.withdrawn, he.epoch]
    unfold rootReads
    rw [← he.counts_eq, ← he.rootEntry_eq]
    rfl
  unfold bindingCuts
  rw [hfloor]
  refine (Lib.map_filter_forall₂ hv (fun e e' he => ?_) fun e e' he => he.cut.symm).symm
  unfold binds
  rw [← he.counts_eq, he.withdrawn, he.epoch]
  rfl

theorem actStands_of_sameVotes (links : List Link) (capability : CapId) (i : ℕ) (act : RecId) :
    actStands { s with entries := es } links capability i act =
      actStands s links capability i act := by
  have hsound : storeSound { s with entries := es } = storeSound s := by
    simp only [storeSound, hv.length_eq]
  unfold actStands actStandsUnder
  rw [hsound, standingAdmins_of_sameVotes hv, judgeHop_of_sameVotes hv]
  simp only [bindingCuts_of_sameVotes hv]
  rfl

end SameVotes

/-! ### The operations -/

/-- The operations that write a store. -/
inductive StoreOp
  | admitOne (offer : RevocationOffer) (root : Key) (sign : SignOps) (hash : HashOps)
      (m : Option ManifestState)
  | merge (offers : List RevocationOffer) (root : Key) (sign : SignOps) (hash : HashOps)
      (m : Option ManifestState)
  | confirmAdmit (bs : Bytes) (hops : List Hop) (root : Key) (sign : SignOps)
  | adminAdmit (key : Key) (hops : List Hop) (root : Key) (sign : SignOps)
  | setK (quorum : ℕ)
  | setQuorum (quorum : ℕ) (adminCapability : Option CapId) (adminCapacity : ℕ)
  | setRoots (roots : Option RootOps)
  | setActs (acts : Option ActLogOps)
  | setConfirmations (capacity : ℕ) (hash : HashOps)
  | use (capacity : ℕ)
  | useConfirmations (capacity : ℕ)

/-- The store an operation leaves. -/
def StoreOp.run (s : RevocationStore) : StoreOp → RevocationStore
  | .admitOne offer root sign hash m => (revocationAdmit s offer root sign hash m).2.1
  | .merge offers root sign hash m => mergedStore s root sign hash m offers
  | .confirmAdmit bs hops root sign => (Chain.confirmAdmit s bs hops root sign).2
  | .adminAdmit key hops root sign => (Chain.adminAdmit s key hops root sign).2
  | .setK quorum => (storeSetK s quorum).2
  | .setQuorum quorum adminCapability adminCapacity =>
    (storeSetQuorum s quorum adminCapability adminCapacity).2
  | .setRoots roots => (storeSetRoots s roots).2
  | .setActs acts => (storeSetActs s acts).2
  | .setConfirmations capacity hash => (storeSetConfirmations s capacity hash).2
  | .use capacity => (storeUse s capacity).2
  | .useConfirmations capacity => (storeUseConfirmations s capacity).2

/-- The record writes over the entry without a bump: a second withdrawal, or a
reissue over a live entry with the line where it was. -/
def Unbumped (r : RevocationRecord) (id : RecId) (e : Revocation) : Prop :=
  (r.withdrawal = true ∧ e.withdrawn = true ∧ r.supersedes = e.id ∧ r.epoch = e.epoch) ∨
    (r.withdrawal = false ∧ e.withdrawn = false ∧ r.supersedes = e.id ∧ id ≠ e.id ∧ r.cut = e.cut)

/-- What the record writes without a bump is the vote that was there: cast in the
same epoch, and counted by the root set as the record held was. -/
def Quiet (s : RevocationStore) (r : RevocationRecord) (id : RecId) : Prop :=
  ∀ e ∈ findEntry s r.triple, Unbumped r id e → r.epoch = e.epoch ∧
    ∀ roots ∈ s.roots, roots.member e.issuer = true →
      roots.counts e.issuer id = roots.counts e.issuer e.held

/-- An offer that is written is quiet: one the gate lets by, without an admin kept on the
way, into a table that can be written. -/
def QuietOffer (s : RevocationStore) (offer : RevocationOffer) (root : Key) (sign : SignOps)
    (hash : HashOps) : Prop :=
  admitGate s offer root sign hash = (.ok, s) → s.entries.length ≤ s.capacity →
    ∀ id, hash.hash offer.record.bytes = some id → Quiet s offer.record id

/-- The admissions an operation makes are quiet, each in the state it meets. -/
def StoreOp.Quiet (s : RevocationStore) : StoreOp → Prop
  | .admitOne offer root sign hash _ => QuietOffer s offer root sign hash
  | .merge offers root sign hash m => ∀ pre offer, pre ++ [offer] <+: offers →
      QuietOffer (mergedStore s root sign hash m pre) offer root sign hash
  | _ => True

/-- Two stores answer every question about a hop and about an act alike. -/
def AnswersAgree (s s' : RevocationStore) : Prop :=
  (∀ links capability i, coversLinks s' links capability i = coversLinks s links capability i) ∧
    ∀ links capability i act,
      actStands s' links capability i act = actStands s links capability i act

theorem AnswersAgree.refl (s : RevocationStore) : AnswersAgree s s :=
  ⟨fun _ _ _ => rfl, fun _ _ _ _ => rfl⟩

theorem AnswersAgree.trans {s s' s'' : RevocationStore} (h : AnswersAgree s s')
    (h' : AnswersAgree s' s'') : AnswersAgree s s'' :=
  ⟨fun links capability i => (h'.1 links capability i).trans (h.1 links capability i),
    fun links capability i act => (h'.2 links capability i act).trans (h.2 links capability i act)⟩

theorem answersAgree_of_sameVotes {s : RevocationStore} {es : List Revocation}
    (hv : List.Forall₂ (SameVote s) s.entries es) : AnswersAgree s { s with entries := es } :=
  ⟨coversLinks_of_sameVotes hv, actStands_of_sameVotes hv⟩

section Admission

variable {s : RevocationStore} {root : Key} {sign : SignOps} {hash : HashOps}

/-- A gate that kept an admin moved the generation. -/
theorem KeptAdmin.generation_le {s' : RevocationStore} (h : KeptAdmin s s') :
    s.generation ≤ s'.generation ∧ (s'.generation = s.generation → s' = s) := by
  rcases h with rfl | ⟨ad, -, rfl⟩
  · exact ⟨le_rfl, fun _ => rfl⟩
  · exact ⟨Nat.le_succ _, fun heq => absurd heq (Nat.succ_ne_self _)⟩

/-- **A placement that does not bump writes the vote that was there**, if it is
quiet. -/
theorem answersAgree_placed {r : RevocationRecord} {id : RecId} (hq : Quiet s r id)
    (hbump : (placementOf s r id).bump = false) :
    AnswersAgree s (placed s (placementOf s r id)) := by
  have hc := place_cases (findEntry s r.triple) r id (decide (s.entries.length < s.capacity))
  have htriple := placementOf_triple (s := s) r id
  unfold placementOf at hbump htriple ⊢
  generalize place (findEntry s r.triple) r id (decide (s.entries.length < s.capacity)) = p at *
  -- The two branches that write quietly write over the entry found.
  have hwrite : ∀ e e' : Revocation, findEntry s r.triple = some e → p.entry = some e' →
      SameVote s e e' → AnswersAgree s (placed s p) := by
    intro e e' he he' hsame
    have hrow : Lib.row Revocation.triple e'.triple s.entries = some e := by
      rw [htriple e' he']
      exact he
    have hstore : placed s p =
        { s with entries := Lib.writeRow Revocation.triple e' s.entries } := by
      unfold placed
      rw [he', hbump]
      rfl
    rw [hstore]
    exact answersAgree_of_sameVotes (Lib.forall₂_writeRow SameVote.refl hrow hsame)
  have hnone : p.entry = none → AnswersAgree s (placed s p) := by
    intro he
    have hstore : placed s p = s := by
      unfold placed
      rw [he, hbump]
      rfl
    rw [hstore]
    exact AnswersAgree.refl s
  generalize hold : findEntry s r.triple = old at hc
  cases hc with
  | full _ => exact hnone rfl
  | first _ => simp at hbump
  | mismatch _ _ => exact hnone rfl
  | @withdraw e hw hid hepoch =>
    have hew : e.withdrawn = true := by simpa using hbump
    refine hwrite e _ hold rfl ⟨rfl, rfl, rfl, hew.symm, rfl, rfl, ?_⟩
    exact (hq e hold (Or.inl ⟨hw, hew, hid.symm, hepoch.symm⟩)).2
  | stale _ _ _ => exact hnone rfl
  | unchained _ _ _ _ => exact hnone rfl
  | rerevoke _ _ _ _ => simp at hbump
  | @reissue e hw hew hid hs =>
    have hcut : e.cut = r.cut := by simpa using hbump
    obtain ⟨hepoch, hheld⟩ := hq e hold (Or.inr ⟨hw, hew, hs, hid, hcut.symm⟩)
    exact hwrite e _ hold rfl ⟨rfl, rfl, rfl, rfl, hepoch, hcut.symm, hheld⟩
  | known _ _ _ => exact hnone rfl

/-- An admission never takes the generation back. -/
theorem generation_le_revocationAdmit (offer : RevocationOffer) (m : Option ManifestState) :
    s.generation ≤ (revocationAdmit s offer root sign hash m).2.1.generation := by
  obtain ⟨s₁, hkept, ⟨-, heq⟩ | ⟨id, -, -, -, heq⟩⟩ :=
    revocationAdmit_cases (s := s) offer root sign hash m
  · rw [heq]
    exact hkept.generation_le.1
  · rw [heq]
    refine hkept.generation_le.1.trans ?_
    simp only [placed]
    split_ifs <;> omega

theorem generation_le_mergedStore (m : Option ManifestState) (offers : List RevocationOffer) :
    s.generation ≤ (mergedStore s root sign hash m offers).generation :=
  mergedStore_induction (P := fun s' => s.generation ≤ s'.generation)
    (fun offer _ _ m' _ hs' => hs'.trans (generation_le_revocationAdmit offer m')) le_rfl

/-- **A quiet admission that leaves the generation alone leaves the answers alone.** -/
theorem answersAgree_revocationAdmit {offer : RevocationOffer} {m : Option ManifestState}
    (hq : QuietOffer s offer root sign hash)
    (hgen : (revocationAdmit s offer root sign hash m).2.1.generation = s.generation) :
    AnswersAgree s (revocationAdmit s offer root sign hash m).2.1 := by
  obtain ⟨s₁, hkept, ⟨-, heq⟩ | ⟨id, hgate, hid, hle, heq⟩⟩ :=
    revocationAdmit_cases (s := s) offer root sign hash m
  · rw [heq] at hgen ⊢
    rw [hkept.generation_le.2 hgen]
    exact AnswersAgree.refl s
  · rw [heq] at hgen ⊢
    have hmoved := hkept.generation_le.1
    have hbump : (placementOf s₁ offer.record id).bump = false := by
      by_contra hb
      simp only [placed] at hgen
      rw [if_pos (by simpa using hb)] at hgen
      omega
    have hs₁ : s₁ = s := by
      refine hkept.generation_le.2 ?_
      simpa [placed, hbump] using hgen
    rw [hs₁] at hbump hgate hle ⊢
    exact answersAgree_placed (hq hgate hle id hid) hbump

/-- **So does a merge**, each of its admissions being quiet. -/
theorem answersAgree_mergedStore {offers : List RevocationOffer} {m : Option ManifestState}
    (hq : ∀ pre offer, pre ++ [offer] <+: offers →
      QuietOffer (mergedStore s root sign hash m pre) offer root sign hash)
    (hgen : (mergedStore s root sign hash m offers).generation = s.generation) :
    AnswersAgree s (mergedStore s root sign hash m offers) := by
  induction offers generalizing s m with
  | nil => exact AnswersAgree.refl s
  | cons offer offers ih =>
    rw [mergedStore_cons] at hgen ⊢
    have hstep : s.generation ≤ (revocationAdmit s offer root sign hash m).2.1.generation :=
      generation_le_revocationAdmit offer m
    have hrest : (revocationAdmit s offer root sign hash m).2.1.generation ≤
        (mergedStore (revocationAdmit s offer root sign hash m).2.1 root sign hash
          (revocationAdmit s offer root sign hash m).2.2 offers).generation :=
      generation_le_mergedStore _ offers
    have hfirst : (revocationAdmit s offer root sign hash m).2.1.generation = s.generation := by
      omega
    refine (answersAgree_revocationAdmit (hq [] offer (by simp)) hfirst).trans (ih ?_ ?_)
    · intro pre o hpre
      have := hq (offer :: pre) o (by simpa using hpre)
      rwa [mergedStore_cons] at this
    · exact hgen.trans hfirst.symm

end Admission

/-! ### An epoch moved -/

/-- Two votes, under a quorum of two. -/
def twoVotes (a b : Revocation) : RevocationStore :=
  { emptyStore 2 with quorum := 2, entries := [a, b] }

/-- A chain from a root down to the grantee of the first vote, through the two issuers. -/
def votersChain (root : Key) (a b : Revocation) : List Link :=
  [⟨root, a.issuer⟩, ⟨a.issuer, b.issuer⟩, ⟨b.issuer, a.grantee⟩]

/-- **A live vote and a withdrawn one revoke a hop just where both are of one epoch**, the
issuers being of its chain and neither its root. -/
theorem coversLinks_twoVotes {a b : Revocation} {root : Key} (hlive : a.withdrawn = false)
    (hgone : b.withdrawn = true) (hcap : b.capability = a.capability)
    (hgrantee : b.grantee = a.grantee) (ha : a.issuer ≠ root) (hb : b.issuer ≠ root) :
    coversLinks (twoVotes a b) (votersChain root a b) a.capability 2 =
      decide (a.epoch = b.epoch) := by
  set s := twoVotes a b with hs
  set h := hopQuestion (votersChain root a b) a.capability (standingAdmins s) 2 with hh
  have hpass : rootPass s h (some root) = (false, none) := by
    have hscan : ∀ e : Revocation, e.issuer ≠ root → rootEntry s (some root) e = false :=
      fun e he => decide_eq_false he
    unfold rootPass
    rw [if_neg (by simp)]
    show scanRoots _ [a, b] none = _
    simp [scanRoots, hscan a ha, hscan b hb]
  have hcounts : ∀ e, e = a ∨ e = b → counts s h e = true := by
    rintro e (rfl | rfl) <;>
      simp [counts, entitled, hh, hs, hopQuestion, votersChain, twoVotes, emptyStore, rootMember,
        undone, hcap, hgrantee]
  have htally : ∀ p : Bool → UInt64 → Bool,
      tally s h p = (p false a.epoch).toNat + (p true b.epoch).toNat := by
    intro p
    show List.countP _ [a, b] = _
    rw [List.countP_cons, List.countP_cons, List.countP_nil, hcounts a (.inl rfl),
      hcounts b (.inr rfl), hlive, hgone]
    cases p false a.epoch <;> cases p true b.epoch <;> rfl
  have hjudge : coversLinks s (votersChain root a b) a.capability 2 =
      (judgeVotes s h 2).revoked := by
    have hhop : judgeHop s h (some root) 2 = judgeVotes s h 2 := by
      rw [judgeHop, hpass]
      rfl
    rw [← hhop]
    rfl
  rw [hjudge]
  by_cases heq : a.epoch = b.epoch
  · rw [decide_eq_true heq]
    have hvoted : 2 ≤ tally s h fun _ epoch => epoch = b.epoch := by
      rw [htally, heq]
      simp
    refine judgeVotes_latched hvoted ?_ rfl
    rw [htally, heq]
    simp [leftEpoch]
  · have hsplit : ∀ c, latchedIn s h 2 c = false := by
      intro c
      unfold latchedIn
      rw [htally]
      by_cases hc : a.epoch = c
      · simp [hc, show b.epoch ≠ c from fun hbc => heq (hc.trans hbc.symm)]
      · cases hbc : decide (b.epoch = c) <;> simp [hc]
    rw [decide_eq_false heq, judgeVotes, htally, htally, hsplit]
    rfl

/-- A root's own record, of this hash, that is signed. -/
structure OwnRecord (offer : RevocationOffer) (root : Key) (sign : SignOps) (hash : HashOps)
    (id : RecId) : Prop where
  alone : offer.hops = []
  own : offer.record.issuer = root
  signed : sign.verify offer.record.issuer offer.record.signedBytes offer.record.signature = true
  hashed : hash.hash offer.record.bytes = some id

/-- **A vote cast again in another epoch changes an answer of some store** without a root set
that holds the vote, and its generation stands. -/
theorem exists_epoch_moves {offer : RevocationOffer} {root : Key} {sign : SignOps} {hash : HashOps}
    {id : RecId} (m : Option ManifestState) {e : Revocation}
    (hown : OwnRecord offer root sign hash id) (he : e.triple = offer.record.triple)
    (hover : Unbumped offer.record id e) (hne : offer.record.epoch ≠ e.epoch) :
    ∃ s, s.roots = none ∧ findEntry s offer.record.triple = some e ∧
      (revocationAdmit s offer root sign hash m).2.1.generation = s.generation ∧
      ¬AnswersAgree s (revocationAdmit s offer root sign hash m).2.1 := by
  obtain ⟨hw, hew, hsup, hid, hcut⟩ := hover.resolve_left fun h => hne h.2.2.2
  let other : Revocation := { e with issuer := e.issuer + 1, withdrawn := true }
  let moved : Revocation :=
    { e with epoch := offer.record.epoch, id := id, held := id, cut := offer.record.cut }
  have hfind : findEntry (twoVotes e other) offer.record.triple = some e := by
    rw [← he]
    exact List.find?_cons_of_pos (p := fun b => Revocation.triple b = e.triple)
      (decide_eq_true rfl)
  have hplace : placementOf (twoVotes e other) offer.record id = ⟨.ok, some moved, false, true⟩ := by
    rw [placementOf, hfind, place, if_neg (by simp [hw]), if_neg (by simp [hew]),
      if_pos ⟨hid, hsup⟩, decide_eq_false (not_not.2 hcut.symm)]
  have hgate : admitGate (twoVotes e other) offer root sign hash = (.ok, twoVotes e other) := by
    rw [admitGate, if_neg fun h => h.2.1 hown.own, if_neg (by rw [hown.signed]; simp), hown.alone]
    rfl
  have hrun : (revocationAdmit (twoVotes e other) offer root sign hash m).2.1 =
      twoVotes moved other := by
    rw [revocationAdmit_of_gate_ok hgate, admitRecord, if_neg (by simp [twoVotes, emptyStore]),
      hown.hashed]
    dsimp only
    rw [hplace, placed]
    simp [twoVotes, Lib.writeRow, moved, Revocation.triple]
  have hother : e.issuer + 1 ≠ e.issuer + 2 := by
    rw [Ne, BitVec.add_right_inj]
    decide
  have hroot : e.issuer ≠ e.issuer + 2 := by simp
  refine ⟨twoVotes e other, rfl, hfind, by rw [hrun]; rfl, fun hagree => ?_⟩
  have hanswer := hagree.1 (votersChain (e.issuer + 2) e other) e.capability 2
  have hbefore : coversLinks (twoVotes e other) (votersChain (e.issuer + 2) e other) e.capability 2 =
      decide (e.epoch = e.epoch) := coversLinks_twoVotes hew rfl rfl rfl hroot hother
  have hafter : coversLinks (twoVotes moved other) (votersChain (e.issuer + 2) e other) e.capability
      2 = decide (offer.record.epoch = e.epoch) :=
    coversLinks_twoVotes (a := moved) hew rfl rfl rfl hroot hother
  rw [hrun, hbefore, hafter, decide_eq_false hne] at hanswer
  simp at hanswer

section Operations

variable {s : RevocationStore}

/-- An operation that is no admission leaves the store alone or moves the generation. -/
def Bumps (s s' : RevocationStore) : Prop :=
  s' = s ∨ s.generation < s'.generation

theorem bumps_bump (s' : RevocationStore) (h : s'.generation = s.generation) : Bumps s (bump s') :=
  Or.inr (by simp [bump, h])

theorem bumps_entitledAsAdmin (key : Key) (hops : List Hop) (root : Key) (sign : SignOps)
    (hash : Option HashOps) : Bumps s (entitledAsAdmin s key hops root sign hash).2 := by
  rcases keptAdmin_entitledAsAdmin (s := s) key hops root sign hash with heq | ⟨ad, -, heq⟩
  · exact Or.inl heq
  · rw [heq]
    exact bumps_bump _ rfl

theorem bumps_confirmAdmit (bs : Bytes) (hops : List Hop) (root : Key) (sign : SignOps) :
    Bumps s (confirmAdmit s bs hops root sign).2 := by
  have hgate : ∀ c, Bumps s (confirmGate s c hops root sign).2 := by
    intro c
    unfold confirmGate
    split_ifs
    · exact Or.inl rfl
    · exact Or.inl rfl
    · exact Or.inl rfl
    · exact Or.inl rfl
    · exact bumps_entitledAsAdmin ..
  have hkeep : ∀ s' c hash, Bumps s s' → Bumps s (keepConfirm s' c hash).2 := by
    intro s' c hash hs'
    unfold keepConfirm
    split_ifs
    · exact hs'
    · exact hs'
    · split
      · exact hs'
      · refine Or.inr ?_
        rcases hs' with rfl | hlt
        · exact Nat.lt_succ_self _
        · exact Nat.lt_succ_of_lt hlt
  unfold confirmAdmit
  split
  · exact Or.inl rfl
  · split_ifs
    · exact Or.inl rfl
    · split
      · exact Or.inl rfl
      · rename_i c _
        have hg := hgate c
        split
        · rename_i heq
          rw [heq] at hg
          exact hkeep _ _ _ hg
        · rename_i heq
          rw [heq] at hg
          exact hg

theorem bumps_adminAdmit (key : Key) (hops : List Hop) (root : Key) (sign : SignOps) :
    Bumps s (adminAdmit s key hops root sign).2 := by
  unfold adminAdmit
  split_ifs
  · exact Or.inl rfl
  · exact Or.inl rfl
  · exact bumps_entitledAsAdmin ..

theorem bumps_storeSetK (quorum : ℕ) : Bumps s (storeSetK s quorum).2 := by
  unfold storeSetK
  split_ifs
  · exact Or.inl rfl
  · exact bumps_bump _ rfl
  · exact Or.inl rfl

theorem bumps_storeSetQuorum (quorum : ℕ) (adminCapability : Option CapId) (adminCapacity : ℕ) :
    Bumps s (storeSetQuorum s quorum adminCapability adminCapacity).2 := by
  unfold storeSetQuorum
  split_ifs
  · exact Or.inl rfl
  · exact Or.inl rfl
  · exact bumps_bump _ rfl
  · exact bumps_bump _ rfl

theorem bumps_storeSetConfirmations (capacity : ℕ) (hash : HashOps) :
    Bumps s (storeSetConfirmations s capacity hash).2 := by
  unfold storeSetConfirmations
  split_ifs
  · exact Or.inl rfl
  · exact bumps_bump _ rfl

theorem bumps_storeUse (capacity : ℕ) : Bumps s (storeUse s capacity).2 := by
  unfold storeUse
  split_ifs
  · exact Or.inl rfl
  · exact bumps_bump _ rfl

theorem bumps_storeUseConfirmations (capacity : ℕ) :
    Bumps s (storeUseConfirmations s capacity).2 := by
  unfold storeUseConfirmations
  split_ifs
  · exact Or.inl rfl
  · exact bumps_bump _ rfl

theorem answersAgree_run {op : StoreOp} (hq : op.Quiet s)
    (hgen : generationOf (some (op.run s)) = generationOf (some s)) :
    AnswersAgree s (op.run s) := by
  have hbumps : Bumps s (op.run s) → AnswersAgree s (op.run s) := by
    rintro (heq | hlt)
    · rw [heq]
      exact AnswersAgree.refl s
    · exact absurd hgen (Nat.ne_of_gt hlt)
  cases op with
  | admitOne offer root sign hash m => exact answersAgree_revocationAdmit hq hgen
  | merge offers root sign hash m => exact answersAgree_mergedStore hq hgen
  | confirmAdmit bs hops root sign => exact hbumps (bumps_confirmAdmit bs hops root sign)
  | adminAdmit key hops root sign => exact hbumps (bumps_adminAdmit key hops root sign)
  | setK quorum => exact hbumps (bumps_storeSetK quorum)
  | setQuorum quorum adminCapability adminCapacity =>
    exact hbumps (bumps_storeSetQuorum quorum adminCapability adminCapacity)
  | setRoots roots => exact hbumps (bumps_bump _ rfl)
  | setActs acts => exact hbumps (bumps_bump _ rfl)
  | setConfirmations capacity hash => exact hbumps (bumps_storeSetConfirmations capacity hash)
  | use capacity => exact hbumps (bumps_storeUse capacity)
  | useConfirmations capacity => exact hbumps (bumps_storeUseConfirmations capacity)

end Operations

/-- **An answer does not change while the generation stands**, for every store and every
operation whose admissions are quiet; and of a root's own record that is written without a
bump over an entry of another epoch, some store that holds the entry has an answer change
while its generation stands. -/
theorem answersAgree_of_generation (s : RevocationStore) (op : StoreOp) :
    (op.Quiet s → generationOf (some (op.run s)) = generationOf (some s) →
      AnswersAgree s (op.run s)) ∧
    ∀ offer root sign hash id m (e : Revocation), OwnRecord offer root sign hash id →
      e.triple = offer.record.triple → Unbumped offer.record id e → offer.record.epoch ≠ e.epoch →
      ∃ t, t.roots = none ∧ findEntry t offer.record.triple = some e ∧
        generationOf (some ((StoreOp.admitOne offer root sign hash m).run t)) =
          generationOf (some t) ∧
        ¬AnswersAgree t ((StoreOp.admitOne offer root sign hash m).run t) :=
  ⟨fun hq hgen => answersAgree_run hq hgen,
    fun _ _ _ _ _ m _ hown he hover hne => exists_epoch_moves m hown he hover hne⟩

/-- The hypotheses are satisfiable: a reissue in the epoch of the vote it answers, and one of
the root's own in another. -/
theorem answersAgree_twoVotesStore :
    AnswersAgree twoVotesStore
      ((StoreOp.admitOne (againBy2 0) 1 acceptingSign tailHash none).run twoVotesStore) ∧
    ∃ s, s.roots = none ∧
      findEntry s (againBy2 5).record.triple = some ⟨⟨7⟩, 4, 2, 10, false, 0, 10, 0⟩ ∧
      generationOf (some ((StoreOp.admitOne { againBy2 5 with hops := [] } 2 acceptingSign tailHash
        none).run s)) = generationOf (some s) ∧
      ¬AnswersAgree s ((StoreOp.admitOne { againBy2 5 with hops := [] } 2 acceptingSign tailHash
        none).run s) := by
  have hquiet : (StoreOp.admitOne (againBy2 0) 1 acceptingSign tailHash none).Quiet
      twoVotesStore := by
    intro _ _ id _ e he _
    refine ⟨?_, nofun⟩
    have hepoch : (findEntry twoVotesStore (againBy2 0).record.triple).map Revocation.epoch =
        some 0 := by decide
    rw [Option.mem_def.1 he] at hepoch
    exact (Option.some.inj hepoch).symm
  exact ⟨(answersAgree_of_generation _ _).1 hquiet (by decide +kernel),
    (answersAgree_of_generation twoVotesStore (.admitOne (againBy2 0) 1 acceptingSign tailHash
      none)).2 { againBy2 5 with hops := [] } 2 acceptingSign tailHash 12 none
      ⟨⟨7⟩, 4, 2, 10, false, 0, 10, 0⟩ ⟨rfl, rfl, rfl, by decide +kernel⟩ (by decide)
      (.inr ⟨rfl, rfl, by decide, by decide, rfl⟩) (by decide)⟩

/-- **An answer changes and the generation does not:** with one of two votes
withdrawn, the other is cast again in a later epoch, and the hop goes from revoked
to free. -/
theorem not_answersAgree_laterVote :
    generationOf (some ((StoreOp.admitOne (againBy2 5) 1 acceptingSign tailHash none).run
        (mergedStore twoVotesStore 1 acceptingSign tailHash none [withdrawnBy3]))) =
      generationOf (some (mergedStore twoVotesStore 1 acceptingSign tailHash none [withdrawnBy3])) ∧
    coversLinks (mergedStore twoVotesStore 1 acceptingSign tailHash none [withdrawnBy3])
      [⟨1, 2⟩, ⟨2, 3⟩, ⟨3, 4⟩] ⟨7⟩ 2 = true ∧
    coversLinks ((StoreOp.admitOne (againBy2 5) 1 acceptingSign tailHash none).run
        (mergedStore twoVotesStore 1 acceptingSign tailHash none [withdrawnBy3]))
      [⟨1, 2⟩, ⟨2, 3⟩, ⟨3, 4⟩] ⟨7⟩ 2 = false := by
  decide +kernel

/-! ### What every run keeps -/

/-- A store as its operations keep it: it can be read, a triple has one entry, a key one
admin's row and a grant one confirmation by a confirmer, and the admins are no more than
the `REVOCATION_ADMINS_MAX` a judgment has room for. -/
structure WellKept (s : RevocationStore) : Prop where
  sound : storeSound s = true
  entries : OneEntryPerTriple s
  admins : (s.admins.map Admin.key).Nodup
  confirms : (s.confirms.map fun k => (k.confirmer, k.grant)).Nodup
  adminRoom : s.adminCapacity ≤ revocationAdminsMax

section Kept

variable {s : RevocationStore} {root : Key} {sign : SignOps} {hops : List Hop}

theorem WellKept.withAdmin (h : WellKept s) {ad : Admin}
    (hnew : Lib.row Admin.key ad.key s.admins = none)
    (hroom : s.admins.length < s.adminCapacity) : WellKept (withAdmin s ad) := by
  obtain ⟨hentries, -, hconfirms⟩ := (storeSound_iff s).1 h.sound
  refine ⟨(storeSound_iff _).2 ⟨hentries, ?_, hconfirms⟩, h.entries,
    Lib.nodup_concat_of_row h.admins hnew, h.confirms, h.adminRoom⟩
  show (s.admins ++ [ad]).length ≤ s.adminCapacity
  rw [List.length_append]
  exact hroom

theorem WellKept.entitledAsAdmin (h : WellKept s) (key : Key) (hash : Option HashOps) :
    WellKept (entitledAsAdmin s key hops root sign hash).2 := by
  unfold Chain.entitledAsAdmin
  split
  · exact h
  unfold keepAdmin
  split
  · exact h
  rename_i hnew
  split_ifs with hfull
  · exact h
  · exact h.withAdmin hnew (Nat.lt_of_not_le hfull)

theorem WellKept.revocationAdmit (h : WellKept s) {offer : RevocationOffer} {hash : HashOps}
    {m : Option ManifestState} : WellKept (revocationAdmit s offer root sign hash m).2.1 := by
  have hgate : WellKept (admitGate s offer root sign hash).2 := by
    by_cases hshow : ∃ ad, ShowsNewAdmin s offer root sign hash ad
    · obtain ⟨ad, hshow⟩ := hshow
      rw [admitGate_of_showsNewAdmin hshow]
      exact h.withAdmin hshow.unheld hshow.room
    · rwa [admitGate_store hshow]
  obtain ⟨s₁, -, ⟨hne, -⟩ | ⟨id, hg, -, hle, heq⟩⟩ :=
    revocationAdmit_cases (s := s) offer root sign hash m
  · rwa [revocationAdmit_refused_gate hne]
  · rw [hg] at hgate
    rw [heq]
    exact { hgate with
      sound := (storeSound_iff _).2 ⟨length_placed_le offer.record id hle,
        ((storeSound_iff s₁).1 hgate.sound).2⟩
      entries := oneEntry_placed hgate.entries _ }

/-- A confirmation is kept where its confirmer has not confirmed the grant. -/
theorem WellKept.keepConfirm (h : WellKept s) (c : AdminConfirm) (hash : HashOps) :
    WellKept (keepConfirm s c hash).2 := by
  unfold Chain.keepConfirm
  split_ifs with hheld hfull
  · exact h
  · exact h
  split
  · exact h
  obtain ⟨hentries, hadmins, -⟩ := (storeSound_iff s).1 h.sound
  refine ⟨(storeSound_iff _).2 ⟨hentries, hadmins, ?_⟩, h.entries, h.admins,
    Lib.nodup_concat_of_row h.confirms (Lib.row_eq_none_iff.2 fun k hk heq => hheld ?_),
    h.adminRoom⟩
  · show (s.confirms ++ [_]).length ≤ s.confirmCapacity
    rw [List.length_append]
    exact Nat.lt_of_not_le hfull
  · exact List.any_eq_true.2 ⟨k, hk, by simpa using heq⟩

theorem WellKept.confirmAdmit (h : WellKept s) (bs : Bytes) :
    WellKept (confirmAdmit s bs hops root sign).2 := by
  unfold Chain.confirmAdmit
  split
  · exact h
  split_ifs
  · exact h
  split
  · exact h
  rename_i c _
  have hgate : WellKept (confirmGate s c hops root sign).2 := by
    unfold confirmGate
    split_ifs
    all_goals first | exact h | exact h.entitledAsAdmin ..
  split
  all_goals
    rename_i heq
    rw [heq] at hgate
  · exact hgate.keepConfirm c _
  · exact hgate

/-- **Every operation keeps a store well.** -/
theorem WellKept.run (h : WellKept s) (op : StoreOp) : WellKept (op.run s) := by
  obtain ⟨hentries, hadmins, hconfirms⟩ := (storeSound_iff s).1 h.sound
  cases op with
  | admitOne offer root sign hash m => exact h.revocationAdmit
  | merge offers root sign hash m =>
    exact mergedStore_induction (fun _ _ _ _ _ hs => hs.revocationAdmit) h
  | confirmAdmit bs hops root sign => exact h.confirmAdmit bs
  | adminAdmit key hops root sign =>
    dsimp only [StoreOp.run, Chain.adminAdmit]
    split_ifs
    all_goals first | exact h | exact h.entitledAsAdmin ..
  | setRoots _ | setActs _ => exact { h with }
  | setK quorum =>
    dsimp only [StoreOp.run, storeSetK]
    split_ifs
    all_goals first | exact h | exact { h with }
  | setQuorum quorum adminCapability adminCapacity =>
    dsimp only [StoreOp.run, storeSetQuorum]
    split_ifs with _ hroom hsome
    · exact h
    · exact h
    · exact { h with
        sound := (storeSound_iff _).2 ⟨hentries, Nat.zero_le _, hconfirms⟩
        admins := List.nodup_nil
        adminRoom := Nat.le_of_not_lt fun hlt => hroom ⟨hsome, Or.inr hlt⟩ }
    · exact { h with
        sound := (storeSound_iff _).2 ⟨hentries, Nat.zero_le _, hconfirms⟩
        admins := List.nodup_nil
        adminRoom := Nat.zero_le _ }
  | setConfirmations capacity hash =>
    dsimp only [StoreOp.run, storeSetConfirmations]
    split_ifs
    · exact h
    · exact { h with
        sound := (storeSound_iff _).2 ⟨hentries, hadmins, Nat.zero_le _⟩
        confirms := List.nodup_nil }
  | use capacity =>
    dsimp only [StoreOp.run, storeUse]
    split_ifs with hbad
    · exact h
    · rw [not_or, not_or, not_lt] at hbad
      exact { h with sound := (storeSound_iff _).2 ⟨hbad.2.2, hadmins, hconfirms⟩ }
  | useConfirmations capacity =>
    dsimp only [StoreOp.run, storeUseConfirmations]
    split_ifs with hbad
    · exact h
    · rw [not_or, not_or, not_or, not_lt] at hbad
      exact { h with sound := (storeSound_iff _).2 ⟨hentries, hadmins, hbad.2.2.2⟩ }

end Kept

/-- **Every run keeps a store well**, from an empty one on. -/
theorem wellKept_run (capacity : ℕ) (ops : List StoreOp) :
    WellKept (ops.foldl StoreOp.run (emptyStore capacity)) :=
  Lib.foldl_induction (P := WellKept) (fun _ op _ hs => hs.run op)
    ⟨by simp [storeSound, emptyStore], List.nodup_nil, List.nodup_nil, List.nodup_nil,
      Nat.zero_le _⟩

end Chain
end Fuzznet
