/-
# The chain step of the receive path, with its memo

`admit/admit.c`, step 7 of `fzn_admit`, over a run: frames received, revocations and
manifests admitted, in any order.  The steps above and below it read and write
other state (the keys, the replay window, the reassembly table), so a frame they
refuse leaves everything here as it is, and a frame that reaches step 7 is its
authenticated sender, its capability and the clock.

A frame passes on the memo's word when a slot hits.  The slot's chain would then
still verify, as long as every admission since kept to one of three things: it was
refused, it moved the generation, or it left every answer alone (`remembered_verifies`).  A manifest
moves no generation and may shut the gate of a chain the memo remembers; those are
the runs the memo is wrong in (`remembered_incomplete`).
-/

import Fuzznet.Chain.Deficit
import Fuzznet.Chain.Generation
import Fuzznet.Chain.Verify

namespace Fuzznet
namespace Admit

open Wire Chain

/-- What a call finds outside the host's own tables: the answers of `root_for`, and
the packed chains `fzn_chain_store_lookup` returns. -/
structure ChainSource where
  rootFor : Key → Option Key
  lookup : Key → CapId → Key → UInt64 → Option Bytes

/-- What step 7 reads and writes.  `recorded` is no part of the code's state: it is
the chain each memo slot's verdict was of. -/
structure Host where
  memo : Memo
  recorded : List (List Hop)
  revocations : Option RevocationStore
  manifest : Option ManifestState

/-- How step 7 ends: refused without a chain, refused with the chain module's own
error, passed by the memo, or passed by a verification. -/
inductive ChainStep
  | noChain
  | refused (err : ChainErr)
  | remembered
  | verified (verdict : VerifiedChain)
  deriving DecidableEq

/-- The host behind the memo's question. -/
def Host.asked (h : Host) (root sender : Key) (capability : CapId) (now : UInt64) : Host :=
  { h with memo :=
      (memoAllows h.memo root sender capability (generationOf h.revocations) now).2 }

/-- The host behind a verdict recorded at the generation it was reached under. -/
def Host.record (h : Host) (hops : List Hop) (verdict : VerifiedChain) : Host :=
  { h with
    memo := (memoRecord h.memo verdict (generationOf h.revocations)).2
    recorded :=
      if generationOf h.revocations = 0 then h.recorded
      else h.recorded.set (memoTarget h.memo verdict (generationOf h.revocations)) hops }

/-- Step 7 of `fzn_admit`. -/
def admitChain (sign : SignOps) (source : ChainSource) (h : Host) (sender : Key)
    (capability : CapId) (now : UInt64) : ChainStep × Host :=
  match source.rootFor sender with
  | none => (.noChain, h)
  | some root =>
    if (memoAllows h.memo root sender capability (generationOf h.revocations) now).1 then
      (.remembered, h.asked root sender capability now)
    else match source.lookup root capability sender now with
      | none => (.noChain, h.asked root sender capability now)
      | some bytes => match chainOpen bytes with
        | .error err => (.refused err, h.asked root sender capability now)
        | .ok hops =>
          match chainVerify hops root capability now sign h.revocations h.manifest with
          | .error err => (.refused err, h.asked root sender capability now)
          | .ok verdict =>
            (.verified verdict, (h.asked root sender capability now).record hops verdict)

/-- What may happen to a host: a frame reaches step 7; a revocation is offered, with
the manifest state passed or not; a manifest is admitted. -/
inductive HostEvent
  | receive (source : ChainSource) (sender : Key) (capability : CapId) (now : UInt64)
  | revoke (offer : RevocationOffer) (root : Key) (sign : SignOps) (hash : HashOps) (drains : Bool)
  | manifest (record : ManifestRecord) (sign : SignOps)

/-- The manifest state a revocation is admitted with. -/
def Host.passed (h : Host) (drains : Bool) : Option ManifestState :=
  if drains then h.manifest else none

/-- The host behind an event. -/
def Host.step (sign : SignOps) (h : Host) : HostEvent → Host
  | .receive source sender capability now => (admitChain sign source h sender capability now).2
  | .revoke offer root sign' hash drains =>
    match h.revocations with
    | none => h
    | some s => { h with
        revocations := some (revocationAdmit s offer root sign' hash (h.passed drains)).2.1
        manifest :=
          if drains then (revocationAdmit s offer root sign' hash (h.passed drains)).2.2
          else h.manifest }
  | .manifest r sign' =>
    match h.manifest with
    | none => h
    | some m => { h with manifest := some (manifestAdmit m h.revocations r sign').2 }

/-- The host behind a run. -/
def Host.run (sign : SignOps) (h : Host) (events : List HostEvent) : Host :=
  events.foldl (Host.step sign) h

/-! ### What a live slot remembers -/

/-- The slot holds a verdict of the generation the store is at. -/
def Host.live (h : Host) (slot : ℕ) (e : MemoEntry) : Prop :=
  h.memo.entries[slot]? = some e ∧ e.generation ≠ 0 ∧ e.generation = generationOf h.revocations

/-- The slot's chain is accepted, at every time before the slot expires. -/
def Host.remembers (sign : SignOps) (h : Host) (slot : ℕ) (e : MemoEntry) : Prop :=
  ∃ hops, h.recorded[slot]? = some hops ∧ ∀ t, (e.expiresAt = noExpiry ∨ t < e.expiresAt) →
    ∃ v, chainVerify hops e.root e.capability t sign h.revocations h.manifest = .ok v ∧
      v.grantee = e.grantee

/-- **The memo is sound:** no slot is of a generation to come, and every live slot's
chain is accepted. -/
structure MemoSound (sign : SignOps) (h : Host) : Prop where
  parallel : h.recorded.length = h.memo.entries.length
  past : ∀ e ∈ h.memo.entries, e.generation ≤ generationOf h.revocations
  accepted : ∀ slot e, h.live slot e → h.remembers sign slot e

/-- A manifest does not shut the gate of a chain that is remembered: nobody heeds it,
or the host is behind about none of its pairs, or the deficit table is full, or its
issuer grants no hop of a live slot's chain. -/
def Host.ungated (h : Host) (m : ManifestState) (r : ManifestRecord) (sign : SignOps) : Prop :=
  Heeded m r sign → (∀ e ∈ r.entries, behind h.revocations r.issuer e = false) ∨
    m.deficitCapacity ≤ m.deficit.length ∨
    ∀ slot e, h.live slot e → ∀ hops, h.recorded[slot]? = some hops →
      ∀ hop ∈ hops, hop.grantor ≠ r.issuer

/-- What an event may be in the state it meets: a revocation that is quiet where it is
written, a manifest that gates nothing remembered. -/
def HostEvent.Covered (h : Host) : HostEvent → Prop
  | .receive .. => True
  | .revoke offer root sign hash _ => ∀ s ∈ h.revocations, QuietOffer s offer root sign hash
  | .manifest r sign => ∀ m ∈ h.manifest, h.ungated m r sign

section Steps

variable {sign : SignOps} {h : Host}

/-- Step 7 leaves every slot alone, or records the chain it has just accepted. -/
theorem admitChain_cases (sign : SignOps) (h : Host) (source : ChainSource) (sender : Key)
    (capability : CapId) (now : UInt64) :
    (∃ memo, memo.entries = h.memo.entries ∧
        (admitChain sign source h sender capability now).2 = { h with memo := memo }) ∨
      ∃ memo root hops verdict, memo.entries = h.memo.entries ∧
        chainVerify hops root capability now sign h.revocations h.manifest = .ok verdict ∧
        (admitChain sign source h sender capability now).2 =
          Host.record { h with memo := memo } hops verdict := by
  unfold admitChain
  cases hroot : source.rootFor sender with
  | none => exact Or.inl ⟨h.memo, rfl, rfl⟩
  | some root =>
    simp only
    have hentries := memoAllows_entries h.memo root sender capability
      (generationOf h.revocations) now
    split_ifs
    · exact Or.inl ⟨_, hentries, rfl⟩
    · cases source.lookup root capability sender now with
      | none => exact Or.inl ⟨_, hentries, rfl⟩
      | some bytes =>
        simp only
        cases chainOpen bytes with
        | error err => exact Or.inl ⟨_, hentries, rfl⟩
        | ok hops =>
          simp only
          cases hv : chainVerify hops root capability now sign h.revocations h.manifest with
          | error err => exact Or.inl ⟨_, hentries, rfl⟩
          | ok verdict => exact Or.inr ⟨_, root, hops, verdict, hentries, hv, rfl⟩

/-- A recorded verdict keeps the memo sound. -/
theorem MemoSound.record (hsound : MemoSound sign h) {hops : List Hop} {root : Key}
    {capability : CapId} {now : UInt64} {verdict : VerifiedChain}
    (hv : chainVerify hops root capability now sign h.revocations h.manifest = .ok verdict) :
    MemoSound sign (h.record hops verdict) := by
  by_cases hgen : generationOf h.revocations = 0
  · have hsame : h.record hops verdict = h := by
      unfold Host.record
      rw [if_pos hgen]
      simp [memoRecord, hgen]
    rw [hsame]
    exact hsound
  obtain ⟨-, -, -, -, -, hverdict⟩ := chainVerify_ok.1 hv
  have hroot : verdict.root = root := by rw [hverdict]; rfl
  have hcap : verdict.capability = capability := by rw [hverdict]; rfl
  have hrecorded : (h.record hops verdict).recorded =
      h.recorded.set (memoTarget h.memo verdict (generationOf h.revocations)) hops := by
    simp only [Host.record, if_neg hgen]
  refine ⟨?_, ?_, ?_⟩
  · rw [hrecorded, List.length_set]
    show h.recorded.length = (memoRecord h.memo verdict (generationOf h.revocations)).2.entries.length
    rw [memoRecord_entries, if_neg hgen, List.length_set]
    exact hsound.parallel
  · intro e he
    obtain ⟨i, hi⟩ := List.mem_iff_getElem?.1 he
    rcases memoRecord_getElem? hgen hi with ⟨-, rfl, -⟩ | ⟨-, hi⟩
    · exact le_rfl
    · exact hsound.past e (List.mem_of_getElem? hi)
  · rintro slot e ⟨hslot, hne, heq⟩
    rcases memoRecord_getElem? hgen hslot with ⟨rfl, rfl, hlt⟩ | ⟨hother, hslot⟩
    · refine ⟨hops, ?_, fun t ht => ⟨verdict, ?_, rfl⟩⟩
      · rw [hrecorded, List.getElem?_set_self (by rw [hsound.parallel]; exact hlt)]
      · show chainVerify hops verdict.root verdict.capability t sign h.revocations h.manifest = _
        rw [hroot, hcap]
        exact chainVerify_ok_at hv ht
    · obtain ⟨hops', hrec, hacc⟩ := hsound.accepted slot e ⟨hslot, hne, heq⟩
      refine ⟨hops', ?_, hacc⟩
      rw [hrecorded, List.getElem?_set_ne (Ne.symm hother)]
      exact hrec

theorem MemoSound.receive (hsound : MemoSound sign h) (source : ChainSource) (sender : Key)
    (capability : CapId) (now : UInt64) :
    MemoSound sign (admitChain sign source h sender capability now).2 := by
  have hmemo : ∀ memo : Memo, memo.entries = h.memo.entries →
      MemoSound sign { h with memo := memo } := by
    intro memo heq
    refine ⟨by rw [hsound.parallel, ← heq], fun e he => ?_, fun slot e hlive => ?_⟩
    · exact hsound.past e (heq ▸ he)
    · refine hsound.accepted slot e ?_
      unfold Host.live at hlive ⊢
      rwa [heq] at hlive
  rcases admitChain_cases sign h source sender capability now with
    ⟨memo, heq, hstep⟩ | ⟨memo, root, hops, verdict, heq, hv, hstep⟩
  · rw [hstep]
    exact hmemo memo heq
  · rw [hstep]
    exact (hmemo memo heq).record hv

/-- A gate that is open stays open where no grantor's deficit grows. -/
theorem gateShut_of_le {m m' : ManifestState} {hops : List Hop}
    (hle : ∀ hop ∈ hops, pending m' hop.grantor ≤ pending m hop.grantor)
    (hopen : gateShut (some m) hops = false) : gateShut (some m') hops = false := by
  simp only [gateShut, Option.any_some, List.any_eq_false, decide_eq_true_eq] at hopen ⊢
  intro hop hmem
  have hnow := hopen hop hmem
  have hnext := hle hop hmem
  omega

/-- An admission shuts no gate. -/
theorem gateShut_revocationAdmit (s : RevocationStore) (offer : RevocationOffer) (root : Key)
    (sign : SignOps) (hash : HashOps) {m : Option ManifestState} {hops : List Hop}
    (hopen : gateShut m hops = false) :
    gateShut (revocationAdmit s offer root sign hash m).2.2 hops = false := by
  obtain ⟨s₁, -, ⟨-, heq⟩ | ⟨id, -, -, -, heq⟩⟩ :=
    revocationAdmit_cases (s := s) offer root sign hash m
  · rw [heq]
    exact hopen
  · rw [heq]
    split_ifs
    · cases m with
      | none => rfl
      | some m => exact gateShut_of_le (fun hop _ => pending_satisfy_le _ hop.grantor) hopen
    · exact hopen

/-- A chain stays accepted in a store that answers alike, behind a gate that stays
open. -/
theorem chainVerify_of_answersAgree {s s' : RevocationStore} {m m' : Option ManifestState}
    {hops : List Hop} {root : Key} {capability : CapId} {t : UInt64} {v : VerifiedChain}
    (hroots : s'.roots = s.roots) (hagree : AnswersAgree s s')
    (hgate : gateShut m hops = false → gateShut m' hops = false)
    (hv : chainVerify hops root capability t sign (some s) m = .ok v) :
    chainVerify hops root capability t sign (some s') m' = .ok v := by
  obtain ⟨hlen, ⟨hop0, hhead, hpin⟩, hpass, hopen, hsigned, hverdict⟩ := chainVerify_ok.1 hv
  have hpin' : rootPinned (some s') root hop0 = true := by
    rw [← hpin]
    unfold rootPinned
    simp only [Option.bind_some, hroots]
  have hcovers : coversChain (some s') hops capability = coversChain (some s) hops capability := by
    funext i
    exact hagree.1 _ _ _
  refine chainVerify_ok.2 ⟨hlen, ⟨hop0, hhead, hpin'⟩, ?_, hgate hopen, hsigned, hverdict⟩
  rw [hcovers]
  exact hpass

/-- A revocation that bumps or is quiet keeps the memo sound. -/
theorem MemoSound.revoke (hsound : MemoSound sign h) {s : RevocationStore}
    (hs : h.revocations = some s) {offer : RevocationOffer} {root : Key} {sign' : SignOps}
    {hash : HashOps} {drains : Bool}
    (hq : QuietOffer s offer root sign' hash) :
    MemoSound sign (h.step sign (.revoke offer root sign' hash drains)) := by
  have hle : s.generation ≤
      (revocationAdmit s offer root sign' hash (h.passed drains)).2.1.generation :=
    generation_le_revocationAdmit offer _
  have hgen : generationOf h.revocations = s.generation := by rw [hs]; rfl
  have hroots : (revocationAdmit s offer root sign' hash (h.passed drains)).2.1.roots = s.roots := by
    have hsame : SameSettings s (revocationAdmit s offer root sign' hash (h.passed drains)).2.1 :=
      sameSettings_revocationAdmit offer _
    rw [hsame]
  unfold Host.step
  rw [hs]
  refine ⟨hsound.parallel, fun e he => ?_, ?_⟩
  · have hpast := hsound.past e he
    rw [hgen] at hpast
    exact hpast.trans hle
  · rintro slot e ⟨hslot, hne, heq⟩
    have hpast := hsound.past e (List.mem_of_getElem? hslot)
    rw [hgen] at hpast
    have hstands : (revocationAdmit s offer root sign' hash (h.passed drains)).2.1.generation =
        s.generation := by
      change e.generation =
        (revocationAdmit s offer root sign' hash (h.passed drains)).2.1.generation at heq
      omega
    obtain ⟨hops, hrec, hacc⟩ := hsound.accepted slot e
      ⟨hslot, hne, heq.trans (hstands.trans hgen.symm)⟩
    refine ⟨hops, hrec, fun t ht => ?_⟩
    obtain ⟨v, hv, hgrantee⟩ := hacc t ht
    rw [hs] at hv
    refine ⟨v, ?_, hgrantee⟩
    refine chainVerify_of_answersAgree hroots (answersAgree_revocationAdmit hq hstands)
      (fun hopen => ?_) hv
    simp only [Host.passed]
    split_ifs
    · exact gateShut_revocationAdmit s offer root sign' hash hopen
    · exact hopen

/-- A manifest that gates nothing remembered keeps the memo sound. -/
theorem MemoSound.manifest (hsound : MemoSound sign h) {m : ManifestState}
    (hm : h.manifest = some m) {r : ManifestRecord} {sign' : SignOps} (hu : h.ungated m r sign') :
    MemoSound sign (h.step sign (.manifest r sign')) := by
  unfold Host.step
  rw [hm]
  refine ⟨hsound.parallel, hsound.past, ?_⟩
  intro slot e hlive
  obtain ⟨hops, hrec, hacc⟩ := hsound.accepted slot e hlive
  refine ⟨hops, hrec, fun t ht => ?_⟩
  obtain ⟨v, hv, hgrantee⟩ := hacc t ht
  obtain ⟨hlen, hpin, hpass, hopen, hrest⟩ := chainVerify_ok.1 hv
  refine ⟨v, chainVerify_ok.2 ⟨hlen, hpin, hpass, ?_, hrest⟩, hgrantee⟩
  rw [hm] at hopen
  refine gateShut_of_le (fun hop hmem => ?_) hopen
  by_cases hheed : Heeded m r sign'
  · rcases hu hheed with hnone | hfull | hother
    · exact (pending_manifestAdmit_eq (fun _ => Or.inl hnone) _).le
    · exact (pending_manifestAdmit_eq (fun _ => Or.inr hfull) _).le
    · exact (pending_manifestAdmit_ne (hother slot e hlive hops hrec hop hmem)).le
  · exact (pending_manifestAdmit_eq (fun hh => absurd hh hheed) _).le

/-- **A covered event keeps the memo sound.** -/
theorem MemoSound.step (hsound : MemoSound sign h) {event : HostEvent} (hev : event.Covered h) :
    MemoSound sign (h.step sign event) := by
  cases event with
  | receive source sender capability now => exact hsound.receive source sender capability now
  | revoke offer root sign' hash drains =>
    cases hs : h.revocations with
    | none =>
      have hsame : h.step sign (.revoke offer root sign' hash drains) = h := by
        simp [Host.step, hs]
      rw [hsame]
      exact hsound
    | some s => exact hsound.revoke hs (hev s hs)
  | manifest r sign' =>
    cases hm : h.manifest with
    | none =>
      have hsame : h.step sign (.manifest r sign') = h := by simp [Host.step, hm]
      rw [hsame]
      exact hsound
    | some m => exact hsound.manifest hm (hev m hm)

/-- **So does a run of covered events.** -/
theorem MemoSound.run (hsound : MemoSound sign h) {events : List HostEvent}
    (hrun : ∀ pre event, pre ++ [event] <+: events → event.Covered (h.run sign pre)) :
    MemoSound sign (h.run sign events) := by
  refine Lib.foldl_induction (P := MemoSound sign) (fun pre event hle h => ?_) hsound
  exact h.step (hrun pre event hle)

end Steps

/-- Step 7 passes on the memo's word only where a slot hits. -/
theorem admitChain_remembered {sign : SignOps} {source : ChainSource} {h : Host} {sender : Key}
    {capability : CapId} {now : UInt64}
    (hpass : (admitChain sign source h sender capability now).1 = .remembered) :
    ∃ root slot, source.rootFor sender = some root ∧
      memoHit h.memo root sender capability (generationOf h.revocations) now = some slot := by
  unfold admitChain at hpass
  cases hroot : source.rootFor sender with
  | none => simp [hroot] at hpass
  | some root =>
    cases hhit : memoHit h.memo root sender capability (generationOf h.revocations) now with
    | some slot => exact ⟨root, slot, rfl, hhit⟩
    | none =>
      have hno : (memoAllows h.memo root sender capability (generationOf h.revocations)
          now).1 = false := by
        simp [memoAllows, hhit]
      simp only [hroot, hno] at hpass
      rw [if_neg (by simp)] at hpass
      cases hfound : source.lookup root capability sender now with
      | none => simp [hfound] at hpass
      | some bytes =>
        cases hopen : chainOpen bytes with
        | error err => simp [hfound, hopen] at hpass
        | ok hops =>
          cases hv : chainVerify hops root capability now sign h.revocations h.manifest with
          | error err => simp [hfound, hopen, hv] at hpass
          | ok verdict => simp [hfound, hopen, hv] at hpass

/-- A memo nothing was recorded in is sound. -/
theorem memoSound_init (sign : SignOps) (capacity : ℕ) (s : Option RevocationStore)
    (m : Option ManifestState) :
    MemoSound sign ⟨memoInit capacity, List.replicate capacity [], s, m⟩ where
  parallel := by simp [memoInit]
  past := by
    intro e he
    rw [List.eq_of_mem_replicate he]
    exact Nat.zero_le _
  accepted := by
    rintro slot e ⟨hslot, hne, -⟩
    have hmem := List.mem_of_getElem? hslot
    rw [List.eq_of_mem_replicate hmem] at hne
    exact absurd rfl hne

/-- **What the memo passes would still verify.**  In every run from an empty memo whose
events are covered, a frame the memo passes has a slot, of its root, sender and
capability, whose chain is accepted at this time, in this store and behind this
gate. -/
theorem remembered_verifies {sign : SignOps} {capacity : ℕ} {s : Option RevocationStore}
    {m : Option ManifestState} {h : Host}
    (hstart : h = ⟨memoInit capacity, List.replicate capacity [], s, m⟩) {events : List HostEvent}
    (hrun : ∀ pre event, pre ++ [event] <+: events → event.Covered (h.run sign pre))
    {source : ChainSource} {sender : Key} {capability : CapId} {now : UInt64}
    (hpass : (admitChain sign source (h.run sign events) sender capability now).1 = .remembered) :
    ∃ root slot hops v, source.rootFor sender = some root ∧
      memoHit (h.run sign events).memo root sender capability
        (generationOf (h.run sign events).revocations) now = some slot ∧
      (h.run sign events).recorded[slot]? = some hops ∧
      chainVerify hops root capability now sign (h.run sign events).revocations
        (h.run sign events).manifest = .ok v ∧ v.grantee = sender := by
  have hsound : MemoSound sign (h.run sign events) :=
    MemoSound.run (hstart ▸ memoSound_init sign capacity s m) hrun
  obtain ⟨root, slot, hroot, hhit⟩ := admitChain_remembered hpass
  obtain ⟨e, hslot, hne, hgen, rfl, rfl, rfl, hexp⟩ := memoHit_eq_some hhit
  obtain ⟨hops, hrec, hacc⟩ := hsound.accepted slot e ⟨hslot, hne, hgen⟩
  obtain ⟨v, hv, hgrantee⟩ := hacc now hexp
  exact ⟨_, slot, hops, v, hroot, hhit, hrec, hv, hgrantee⟩

/-- The root `1` grants capability `7` to `2`. -/
def grantHop : Hop := ⟨1, 2, ⟨7⟩, 0, 0, true, 0⟩

/-- Every sender is anchored to the root `1`, and the chain store holds that one hop. -/
def oneChain : ChainSource where
  rootFor := fun _ => some 1
  lookup := fun _ _ _ _ => some (chainPack [grantHop])

/-- A host with an empty store and an empty memo of one slot, which follows the root
and has room for one pair in its deficit. -/
def freshHost : Host where
  memo := memoInit 1
  recorded := [[]]
  revocations := some (emptyStore 1)
  manifest := some ⟨[⟨1, 0, false⟩], 1, [], 1⟩

/-- A frame is received, then a manifest admitted. -/
def visitedHost (r : ManifestRecord) : Host :=
  freshHost.run acceptingSign [.receive oneChain 2 ⟨7⟩ 100, .manifest r acceptingSign]

/-- A host that follows key `2` as well. -/
def followingHost : Host :=
  { freshHost with manifest := some ⟨[⟨1, 0, false⟩, ⟨2, 0, false⟩], 2, [], 1⟩ }

/-- A frame of `2` is received, then a manifest of `2`'s own, naming a pair. -/
def followedHost : Host :=
  followingHost.run acceptingSign
    [.receive oneChain 2 ⟨7⟩ 100, .manifest { onePairManifest with issuer := 2 } acceptingSign]

/-- The hypotheses are satisfiable: a frame verified, a manifest that puts a pair of a key
into the deficit that grants no hop of its chain, and a frame the memo passes. -/
theorem remembered_followedHost :
    followedHost.manifest.map (fun m => m.deficit.length) = some 1 ∧
    ∃ root slot hops v, oneChain.rootFor 2 = some root ∧
      memoHit followedHost.memo root 2 ⟨7⟩ (generationOf followedHost.revocations) 101 =
        some slot ∧
      followedHost.recorded[slot]? = some hops ∧
      chainVerify hops root ⟨7⟩ 101 acceptingSign followedHost.revocations
        followedHost.manifest = .ok v ∧ v.grantee = 2 := by
  refine ⟨by decide +kernel, remembered_verifies (h := followingHost) rfl (fun pre event hle => ?_)
    (by decide +kernel)⟩
  rcases pre with - | ⟨first, - | ⟨second, pre⟩⟩
  · obtain rfl := (List.cons_prefix_cons.1 hle).1
    exact trivial
  · obtain ⟨rfl, hrest⟩ := List.cons_prefix_cons.1 hle
    obtain rfl := (List.cons_prefix_cons.1 hrest).1
    intro m _ _
    refine .inr (.inr fun slot e _ hops hrec hop hhop => ?_)
    have hrecorded : (followingHost.run acceptingSign [.receive oneChain 2 ⟨7⟩ 100]).recorded =
        [[grantHop]] := by decide +kernel
    rw [hrecorded] at hrec
    obtain rfl : hops = [grantHop] := List.mem_singleton.1 (List.mem_of_getElem? hrec)
    rw [List.mem_singleton.1 hhop]
    decide
  · have hlen := hle.length_le
    simp at hlen

/-- **The memo passes a frame whose chain the gate refuses:** a frame is verified, the
root's manifest then names a pair the host lacks, and the next frame passes on the
memo's word while its chain is `FZN_CHAIN_ERR_INCOMPLETE`. -/
theorem remembered_incomplete :
    (admitChain acceptingSign oneChain (visitedHost onePairManifest) 2 ⟨7⟩ 101).1 = .remembered ∧
    memoHit (visitedHost onePairManifest).memo 1 2 ⟨7⟩
      (generationOf (visitedHost onePairManifest).revocations) 101 = some 0 ∧
    (visitedHost onePairManifest).recorded[0]? = some [grantHop] ∧
    chainVerify [grantHop] 1 ⟨7⟩ 101 acceptingSign (visitedHost onePairManifest).revocations
      (visitedHost onePairManifest).manifest = .error .incomplete :=
  ⟨by decide +kernel, by decide +kernel, by decide +kernel, by decide +kernel⟩

end Admit
end Fuzznet
