/-
# Admitting a revocation, an admin and a confirmation

`chain/revocation.c`: `entitled_by_chain`, `entitled_as_admin`,
`fzn_revocation_admit`, `fzn_revocation_merge`, `fzn_revocation_admin_admit`,
`fzn_revocation_confirm_admit`.

An admission is a gate and a placement.  The gate (`admitGate`) settles who may
say this: the root, the record's signature, the issuer's standing; on the way it
may keep the issuer as an admin.  The placement (`place`) settles what becomes of
the triple's entry, from that entry, the record and the record's hash alone:
tombstone, mismatch, withdrawal, stale copy, unchained record, re-revocation,
reissue over a live entry, first entry.  `place_cases` lists them with their
guards, and every fact about an admission below is a case analysis of it.
-/

import Fuzznet.Chain.Verify
import Fuzznet.Lib.Runs

namespace Fuzznet
namespace Chain

open Wire

section

/-- `fzn_revocation_offer_t`: a record, and the chain its issuer stands on; no
hops is the root's own. -/
structure RevocationOffer where
  record : RevocationRecord
  hops : List Hop

/-- The root a standing chain is verified under: its own first grantor when the
store's set names it, else the root the caller names. -/
def standingRoot (s : RevocationStore) (root : Key) (hops : List Hop) : Key :=
  match hops.head? with
  | some hop0 => if rootMember s hop0.grantor then hop0.grantor else root
  | none => root

/-- `entitled_by_chain`: a chain of the issuer's for the capability it withdraws,
blind to the clock and to revocations, its last hop delegable. -/
def entitledByChain (s : RevocationStore) (offer : RevocationOffer) (root : Key) (sign : SignOps) :
    ChainErr :=
  if chainMaxHops ≤ offer.hops.length then .malformed
  else match chainVerify offer.hops (standingRoot s root offer.hops) offer.record.capability 0 sign
      none none with
    | .error err => err
    | .ok issuers =>
      if issuers.grantee ≠ offer.record.issuer then .chainInvalid
      else if (offer.hops.getLast?.map Hop.delegable).getD false = false then .notDelegable
      else .ok

/-- The row of `entitled_as_admin`: each hop with its id, when the store keeps
confirmations, and the first hop as its root's act. -/
def adminRow (s : RevocationStore) (issuer : Key) (hops : List Hop) (root : Key) (sign : SignOps)
    (hash : Option HashOps) : Except ChainErr Admin :=
  if chainMaxHops ≤ hops.length then .error .malformed
  else match chainVerify hops (standingRoot s root hops) s.adminCapability 0 sign none none with
    | .error err => .error err
    | .ok verdict =>
      if verdict.grantee ≠ issuer then .error .chainInvalid
      else match hash.elim (some 0) (fun ops => ops.hash ((hops.head?.map Hop.bytes).getD [])),
          hops.mapM fun hop => s.confirmHash.elim (some 0) fun ops => ops.hash hop.bytes with
        | some firstAct, some ids => .ok {
            key := verdict.grantee
            hops := (hops.zip ids).map fun p => ⟨p.1.grantor, p.1.grantee, p.2⟩
            firstAct := firstAct }
        | _, _ => .error .malformed

/-- One row per admin key: a second chain for a key already held is a conflict. -/
def keepAdmin (s : RevocationStore) (ad : Admin) : ChainErr × RevocationStore :=
  match Lib.row Admin.key ad.key s.admins with
  | some held => (if held = ad then .ok else .chainInvalid, s)
  | none =>
    if s.adminCapacity ≤ s.admins.length then (.storeFull, s)
    else (.ok, bump { s with admins := s.admins ++ [ad] })

/-- `entitled_as_admin`. -/
def entitledAsAdmin (s : RevocationStore) (issuer : Key) (hops : List Hop) (root : Key)
    (sign : SignOps) (hash : Option HashOps) : ChainErr × RevocationStore :=
  match adminRow s issuer hops root sign hash with
  | .error err => (err, s)
  | .ok ad => keepAdmin s ad

/-- `fzn_revocation_admin_admit`. -/
def adminAdmit (s : RevocationStore) (key : Key) (hops : List Hop) (root : Key) (sign : SignOps) :
    ChainErr × RevocationStore :=
  if hops.length = 0 ∨ storeSound s = false then (.malformed, s)
  else if s.hasAdmin = false then (.chainInvalid, s)
  else entitledAsAdmin s key hops root sign s.confirmHash

/-- The first half of `fzn_revocation_admit`: a root's record without a chain, the
signature, the issuer's standing.  An admin's vote carries its admin chain, told
apart by what the chain grants. -/
def admitGate (s : RevocationStore) (offer : RevocationOffer) (root : Key) (sign : SignOps)
    (hash : HashOps) : ChainErr × RevocationStore :=
  if offer.hops.length = 0 ∧ offer.record.issuer ≠ root ∧ rootMember s offer.record.issuer = false
  then (.wrongRoot, s)
  else if sign.verify offer.record.issuer offer.record.signedBytes offer.record.signature = false
  then (.chainInvalid, s)
  else match offer.hops.head? with
    | none => (.ok, s)
    | some hop0 =>
      if s.hasAdmin ∧ hop0.capability = s.adminCapability then
        entitledAsAdmin s offer.record.issuer offer.hops root sign (some hash)
      else (entitledByChain s offer root sign, s)

/-- What an admission does to the triple's entry: the answer, the entry written if
one is, whether the generation moves and whether the deficit drains. -/
structure Placement where
  err : ChainErr
  entry : Option Revocation
  bump : Bool
  drain : Bool

/-- A first entry for a triple: live as a revocation makes it, a tombstone as a
withdrawal does.  A tombstone's id is what it names. -/
def RevocationRecord.entry (r : RevocationRecord) (id : RecId) : Revocation where
  capability := r.capability
  grantee := r.grantee
  issuer := r.issuer
  id := if r.withdrawal then r.supersedes else id
  withdrawn := r.withdrawal
  epoch := r.epoch
  held := id
  cut := if r.withdrawal then 0 else r.cut

/-- The second half of `fzn_revocation_admit`, `id` being the record's hash and
`room` whether the table has a row left. -/
def place (old : Option Revocation) (r : RevocationRecord) (id : RecId) (room : Bool) : Placement :=
  match old with
  | none =>
    if room = false then ⟨.storeFull, none, false, false⟩
    else ⟨.ok, some (r.entry id), true, !r.withdrawal⟩
  | some e =>
    if r.withdrawal then
      if e.id ≠ r.supersedes ∨ e.epoch ≠ r.epoch then ⟨.unknownTarget, none, false, false⟩
      else ⟨.ok, some { e with held := id, withdrawn := true }, !e.withdrawn, false⟩
    else if e.withdrawn then
      if id = e.id then ⟨.ok, none, false, true⟩
      else if r.supersedes = 0 then ⟨.unknownTarget, none, false, true⟩
      else ⟨.ok, some { e with
        withdrawn := false, epoch := r.epoch, id := id, held := id, cut := r.cut }, true, true⟩
    else if id ≠ e.id ∧ r.supersedes = e.id then
      ⟨.ok, some { e with epoch := r.epoch, id := id, held := id, cut := r.cut },
        decide (e.cut ≠ r.cut), true⟩
    else ⟨.ok, none, false, true⟩

/-- The store behind a placement. -/
def placed (s : RevocationStore) (p : Placement) : RevocationStore :=
  { s with
    entries := p.entry.elim s.entries fun e => Lib.writeRow Revocation.triple e s.entries
    generation := if p.bump then s.generation + 1 else s.generation }

/-- The placement of a record in a store. -/
def placementOf (s : RevocationStore) (r : RevocationRecord) (id : RecId) : Placement :=
  place (findEntry s r.triple) r id (decide (s.entries.length < s.capacity))

/-- The second half of `fzn_revocation_admit`, for the store the gate leaves. -/
def admitRecord (s : RevocationStore) (r : RevocationRecord) (hash : HashOps)
    (m : Option ManifestState) : ChainErr × RevocationStore × Option ManifestState :=
  if s.capacity < s.entries.length then (.malformed, s, m)
  else match hash.hash r.bytes with
    | none => (.malformed, s, m)
    | some id =>
      ((placementOf s r id).err, placed s (placementOf s r id),
        if (placementOf s r id).drain then m.map fun m => satisfy m r.triple else m)

/-- `fzn_revocation_admit`. -/
def revocationAdmit (s : RevocationStore) (offer : RevocationOffer) (root : Key) (sign : SignOps)
    (hash : HashOps) (m : Option ManifestState) :
    ChainErr × RevocationStore × Option ManifestState :=
  match admitGate s offer root sign hash with
  | (.ok, s') => admitRecord s' offer.record hash m
  | (err, s') => (err, s', m)

/-- `fzn_revocation_merge`: how many were admitted, the first error, and the store
and the manifest state left.  Every offer is tried, whatever became of the one
before. -/
def revocationMerge (s : RevocationStore) (root : Key) (sign : SignOps) (hash : HashOps)
    (m : Option ManifestState) :
    List RevocationOffer → ℕ × ChainErr × RevocationStore × Option ManifestState
  | [] => (0, .ok, s, m)
  | offer :: offers =>
    let one := revocationAdmit s offer root sign hash m
    let rest := revocationMerge one.2.1 root sign hash one.2.2 offers
    if one.1 = .ok then (rest.1 + 1, rest.2)
    else (rest.1, one.1, rest.2.2)

/-- The store a merge leaves. -/
def mergedStore (s : RevocationStore) (root : Key) (sign : SignOps) (hash : HashOps)
    (m : Option ManifestState) (offers : List RevocationOffer) : RevocationStore :=
  (revocationMerge s root sign hash m offers).2.2.1

/-- A confirmation record: `FZN_ADMIN_CONFIRM_LEN` bytes behind the version and
the tag, the confirmer's key and the id of the hop it confirms. -/
structure AdminConfirm where
  confirmer : Key
  grant : RecId
  signature : Sig

/-- `FZN_ADMIN_CONFIRM_BODY_LEN` bytes, what the signature covers. -/
def AdminConfirm.signedBytes (c : AdminConfirm) : Bytes :=
  [signedVersion, SignedObject.adminConfirm.tag] ++ putBe 32 c.confirmer.toNat ++
    putBe 32 c.grant.toNat

/-- The whole record: what its hash, the act, is taken of. -/
def AdminConfirm.bytes (c : AdminConfirm) : Bytes :=
  c.signedBytes ++ putBe 64 c.signature.toNat

/-- `FZN_ADMIN_CONFIRM_LEN`. -/
def adminConfirmLen : ℕ := 130

/-- The shape check of `fzn_revocation_confirm_admit`. -/
def adminConfirmOpen (bs : Bytes) : Option AdminConfirm :=
  if bs.length = adminConfirmLen ∧ getBe bs 0 1 = signedVersion.toNat ∧
      getBe bs 1 1 = SignedObject.adminConfirm.tag.toNat then
    some {
      confirmer := BitVec.ofNat 256 (getBe bs 2 32)
      grant := BitVec.ofNat 256 (getBe bs 34 32)
      signature := BitVec.ofNat 512 (getBe bs 66 64) }
  else none

/-- The standing of a confirmer: a root without a chain, the signature, an admin
with its admin chain. -/
def confirmGate (s : RevocationStore) (c : AdminConfirm) (hops : List Hop) (root : Key)
    (sign : SignOps) : ChainErr × RevocationStore :=
  if hops.length = 0 ∧ c.confirmer ≠ root ∧ rootMember s c.confirmer = false then (.wrongRoot, s)
  else if sign.verify c.confirmer c.signedBytes c.signature = false then (.chainInvalid, s)
  else if hops.length = 0 then (.ok, s)
  else if s.hasAdmin = false then (.chainInvalid, s)
  else entitledAsAdmin s c.confirmer hops root sign s.confirmHash

/-- The confirmation kept: once per confirmer and grant. -/
def keepConfirm (s : RevocationStore) (c : AdminConfirm) (hash : HashOps) :
    ChainErr × RevocationStore :=
  if s.confirms.any (fun k => k.confirmer = c.confirmer ∧ k.grant = c.grant) then (.ok, s)
  else if s.confirmCapacity ≤ s.confirms.length then (.storeFull, s)
  else match hash.hash c.bytes with
    | none => (.malformed, s)
    | some act => (.ok, bump { s with confirms := s.confirms ++ [⟨c.confirmer, c.grant, act⟩] })

/-- `fzn_revocation_confirm_admit`. -/
def confirmAdmit (s : RevocationStore) (bs : Bytes) (hops : List Hop) (root : Key)
    (sign : SignOps) : ChainErr × RevocationStore :=
  match s.confirmHash with
  | none => (.malformed, s)
  | some hash =>
    if storeSound s = false then (.malformed, s)
    else match adminConfirmOpen bs with
      | none => (.shape, s)
      | some c =>
        match confirmGate s c hops root sign with
        | (.ok, s') => keepConfirm s' c hash
        | (err, s') => (err, s')

/-! ### What an admission can do -/

/-- The nine things a placement can be, with what the entry and the record were. -/
inductive PlaceCase (r : RevocationRecord) (id : RecId) (room : Bool) :
    Option Revocation → Placement → Prop
  | full (hroom : room = false) : PlaceCase r id room none ⟨.storeFull, none, false, false⟩
  | first (hroom : room = true) :
      PlaceCase r id room none ⟨.ok, some (r.entry id), true, !r.withdrawal⟩
  | mismatch {e : Revocation} (hw : r.withdrawal = true)
      (hne : e.id ≠ r.supersedes ∨ e.epoch ≠ r.epoch) :
      PlaceCase r id room (some e) ⟨.unknownTarget, none, false, false⟩
  | withdraw {e : Revocation} (hw : r.withdrawal = true) (hid : e.id = r.supersedes)
      (hepoch : e.epoch = r.epoch) :
      PlaceCase r id room (some e)
        ⟨.ok, some { e with held := id, withdrawn := true }, !e.withdrawn, false⟩
  | stale {e : Revocation} (hw : r.withdrawal = false) (hew : e.withdrawn = true)
      (hid : id = e.id) : PlaceCase r id room (some e) ⟨.ok, none, false, true⟩
  | unchained {e : Revocation} (hw : r.withdrawal = false) (hew : e.withdrawn = true)
      (hid : id ≠ e.id) (hz : r.supersedes = 0) :
      PlaceCase r id room (some e) ⟨.unknownTarget, none, false, true⟩
  | rerevoke {e : Revocation} (hw : r.withdrawal = false) (hew : e.withdrawn = true)
      (hid : id ≠ e.id) (hz : r.supersedes ≠ 0) :
      PlaceCase r id room (some e) ⟨.ok, some { e with
        withdrawn := false, epoch := r.epoch, id := id, held := id, cut := r.cut }, true, true⟩
  | reissue {e : Revocation} (hw : r.withdrawal = false) (hew : e.withdrawn = false)
      (hid : id ≠ e.id) (hs : r.supersedes = e.id) :
      PlaceCase r id room (some e)
        ⟨.ok, some { e with epoch := r.epoch, id := id, held := id, cut := r.cut },
          decide (e.cut ≠ r.cut), true⟩
  | known {e : Revocation} (hw : r.withdrawal = false) (hew : e.withdrawn = false)
      (hk : id = e.id ∨ r.supersedes ≠ e.id) :
      PlaceCase r id room (some e) ⟨.ok, none, false, true⟩

/-- **A placement is one of the nine.** -/
theorem place_cases (old : Option Revocation) (r : RevocationRecord) (id : RecId) (room : Bool) :
    PlaceCase r id room old (place old r id room) := by
  unfold place
  cases old with
  | none =>
    dsimp only
    split_ifs with hroom
    · exact .full hroom
    · exact .first (by simpa using hroom)
  | some e =>
    dsimp only
    split_ifs with hw hne hew hid hz hre
    · exact .mismatch hw hne
    · push Not at hne
      exact .withdraw hw hne.1 hne.2
    · exact .stale (by simpa using hw) hew hid
    · exact .unchained (by simpa using hw) hew hid hz
    · exact .rerevoke (by simpa using hw) hew hid hz
    · exact .reissue (by simpa using hw) (by simpa using hew) hre.1 hre.2
    · refine .known (by simpa using hw) (by simpa using hew) ?_
      tauto

/-- What is written is the record's own triple's. -/
theorem PlaceCase.entry_triple {r : RevocationRecord} {id : RecId} {room : Bool}
    {old : Option Revocation} {p : Placement} (hc : PlaceCase r id room old p)
    (hold : ∀ e ∈ old, e.triple = r.triple) : ∀ e ∈ p.entry, e.triple = r.triple := by
  cases hc <;> simp_all [Revocation.triple, RevocationRecord.triple, RevocationRecord.entry]

variable {s : RevocationStore}

theorem placementOf_triple (r : RevocationRecord) (id : RecId) :
    ∀ e ∈ (placementOf s r id).entry, e.triple = r.triple :=
  (place_cases _ r id _).entry_triple fun _ he => findEntry_triple he

/-- The record's triple has the entry written, or the one it had. -/
theorem findEntry_placed_self (r : RevocationRecord) (id : RecId) :
    findEntry (placed s (placementOf s r id)) r.triple =
      ((placementOf s r id).entry.or (findEntry s r.triple)) := by
  have ht := placementOf_triple (s := s) r id
  unfold findEntry placed
  cases hp : (placementOf s r id).entry with
  | none => rfl
  | some e =>
    rw [← ht e hp]
    exact Lib.row_writeRow_self e s.entries

/-- **Every other triple keeps its entry.** -/
theorem findEntry_placed_ne {r : RevocationRecord} {id : RecId} {t : Triple} (h : t ≠ r.triple) :
    findEntry (placed s (placementOf s r id)) t = findEntry s t := by
  have ht := placementOf_triple (s := s) r id
  unfold findEntry placed
  cases hp : (placementOf s r id).entry with
  | none => rfl
  | some e => exact Lib.row_writeRow_ne (by rw [ht e hp]; exact h) s.entries

/-- A placement keeps one entry per triple. -/
theorem oneEntry_placed (h1 : OneEntryPerTriple s) (p : Placement) :
    OneEntryPerTriple (placed s p) := by
  unfold OneEntryPerTriple placed
  cases p.entry with
  | none => exact h1
  | some e => exact Lib.nodup_writeRow h1 e

/-- A gate leaves the store alone, or keeps one more admin where there is room. -/
def KeptAdmin (s s' : RevocationStore) : Prop :=
  s' = s ∨ ∃ ad, s.admins.length < s.adminCapacity ∧
    s' = bump { s with admins := s.admins ++ [ad] }

theorem keptAdmin_keepAdmin (ad : Admin) : KeptAdmin s (keepAdmin s ad).2 := by
  unfold keepAdmin
  split
  · exact Or.inl rfl
  · split_ifs with hfull
    · exact Or.inl rfl
    · exact Or.inr ⟨ad, Nat.lt_of_not_le hfull, rfl⟩

theorem keptAdmin_entitledAsAdmin (issuer : Key) (hops : List Hop) (root : Key) (sign : SignOps)
    (hash : Option HashOps) : KeptAdmin s (entitledAsAdmin s issuer hops root sign hash).2 := by
  unfold entitledAsAdmin
  split
  · exact Or.inl rfl
  · exact keptAdmin_keepAdmin _

theorem keptAdmin_admitGate (offer : RevocationOffer) (root : Key) (sign : SignOps)
    (hash : HashOps) : KeptAdmin s (admitGate s offer root sign hash).2 := by
  unfold admitGate
  split_ifs
  · exact Or.inl rfl
  · exact Or.inl rfl
  · split
    · exact Or.inl rfl
    · split_ifs
      · exact keptAdmin_entitledAsAdmin ..
      · exact Or.inl rfl

theorem revocationAdmit_of_gate_ok {s₁ : RevocationStore} {offer : RevocationOffer} {root : Key}
    {sign : SignOps} {hash : HashOps} (hg : admitGate s offer root sign hash = (.ok, s₁))
    (m : Option ManifestState) :
    revocationAdmit s offer root sign hash m = admitRecord s₁ offer.record hash m := by
  rw [revocationAdmit, hg]

theorem revocationAdmit_of_gate_ne {s₁ : RevocationStore} {err : ChainErr} {offer : RevocationOffer}
    {root : Key} {sign : SignOps} {hash : HashOps} (hne : err ≠ .ok)
    (hg : admitGate s offer root sign hash = (err, s₁)) (m : Option ManifestState) :
    revocationAdmit s offer root sign hash m = (err, s₁, m) := by
  rw [revocationAdmit, hg]
  cases err <;> first | rfl | exact absurd rfl hne

/-- **What an admission can do:** the gate or the hash refuses, and the entries and
the deficit stay; or the record is placed. -/
theorem revocationAdmit_cases (offer : RevocationOffer) (root : Key) (sign : SignOps)
    (hash : HashOps) (m : Option ManifestState) :
    ∃ s₁, KeptAdmin s s₁ ∧
      (((revocationAdmit s offer root sign hash m).1 ≠ .ok ∧
          (revocationAdmit s offer root sign hash m).2 = (s₁, m)) ∨
        ∃ id, admitGate s offer root sign hash = (.ok, s₁) ∧
          hash.hash offer.record.bytes = some id ∧ s₁.entries.length ≤ s₁.capacity ∧
          revocationAdmit s offer root sign hash m =
            ((placementOf s₁ offer.record id).err, placed s₁ (placementOf s₁ offer.record id),
              if (placementOf s₁ offer.record id).drain then
                m.map fun m => satisfy m offer.record.triple
              else m)) := by
  have hkept := keptAdmin_admitGate (s := s) offer root sign hash
  cases hg : admitGate s offer root sign hash with
  | mk err s₁ =>
    rw [hg] at hkept
    refine ⟨s₁, hkept, ?_⟩
    by_cases herr : err = .ok
    · subst herr
      rw [revocationAdmit_of_gate_ok hg, admitRecord]
      split_ifs with hcap
      · exact Or.inl ⟨by simp, rfl⟩
      · cases hid : hash.hash offer.record.bytes with
        | none => exact Or.inl ⟨by simp, rfl⟩
        | some id => exact Or.inr ⟨id, rfl, rfl, by omega, rfl⟩
    · rw [revocationAdmit_of_gate_ne herr hg]
      exact Or.inl ⟨herr, rfl⟩

theorem KeptAdmin.findEntry_eq {s s' : RevocationStore} (h : KeptAdmin s s') (t : Triple) :
    findEntry s' t = findEntry s t := by
  rcases h with rfl | ⟨ad, -, rfl⟩
  · rfl
  · rfl

/-- **What an admission does to the entry of a triple:** nothing, and then it
refused or the record is another triple's; or what the placement says. -/
theorem findEntry_revocationAdmit (offer : RevocationOffer) (root : Key) (sign : SignOps)
    (hash : HashOps) (m : Option ManifestState) (t : Triple) :
    (findEntry (revocationAdmit s offer root sign hash m).2.1 t = findEntry s t ∧
        ((revocationAdmit s offer root sign hash m).1 = .ok → t ≠ offer.record.triple)) ∨
      ∃ id room, hash.hash offer.record.bytes = some id ∧ t = offer.record.triple ∧
        (revocationAdmit s offer root sign hash m).1 =
          (place (findEntry s t) offer.record id room).err ∧
        findEntry (revocationAdmit s offer root sign hash m).2.1 t =
          (place (findEntry s t) offer.record id room).entry.or (findEntry s t) := by
  obtain ⟨s₁, hkept, ⟨hne, heq⟩ | ⟨id, -, hid, -, heq⟩⟩ :=
    revocationAdmit_cases (s := s) offer root sign hash m
  · refine Or.inl ⟨?_, fun hok => absurd hok hne⟩
    rw [heq]
    exact hkept.findEntry_eq t
  · rw [heq]
    by_cases ht : t = offer.record.triple
    · subst ht
      refine Or.inr ⟨id, decide (s₁.entries.length < s₁.capacity), hid, rfl, ?_, ?_⟩
      · rw [← hkept.findEntry_eq]
        rfl
      · rw [findEntry_placed_self, ← hkept.findEntry_eq]
        rfl
    · refine Or.inl ⟨?_, fun _ => ht⟩
      rw [findEntry_placed_ne ht]
      exact hkept.findEntry_eq t

/-- A placement writes within the table. -/
theorem length_placed_le (r : RevocationRecord) (id : RecId)
    (h : s.entries.length ≤ s.capacity) :
    (placed s (placementOf s r id)).entries.length ≤ s.capacity := by
  unfold placed
  cases hp : (placementOf s r id).entry with
  | none => exact h
  | some e =>
    have htriple : e.triple = r.triple := placementOf_triple r id e hp
    show (Lib.writeRow Revocation.triple e s.entries).length ≤ s.capacity
    cases hold : findEntry s r.triple with
    | some old =>
      rw [Lib.length_writeRow (by rw [htriple]; exact hold)]
      exact h
    | none =>
      have hroom : s.entries.length < s.capacity := by
        by_contra hfull
        simp [placementOf, place, hold, hfull] at hp
      rw [Lib.writeRow_eq_append (by rw [htriple]; exact hold), List.length_append]
      exact hroom

theorem storeSound_iff (s : RevocationStore) : storeSound s = true ↔
    s.entries.length ≤ s.capacity ∧ s.admins.length ≤ s.adminCapacity ∧
      s.confirms.length ≤ s.confirmCapacity := by
  simp [storeSound, and_assoc]

/-- **An admission leaves a store that can be read.** -/
theorem storeSound_revocationAdmit (hs : storeSound s = true) (offer : RevocationOffer) (root : Key)
    (sign : SignOps) (hash : HashOps) (m : Option ManifestState) :
    storeSound (revocationAdmit s offer root sign hash m).2.1 = true := by
  obtain ⟨s₁, hkept, hcases⟩ := revocationAdmit_cases (s := s) offer root sign hash m
  have hs₁ : storeSound s₁ = true := by
    rcases hkept with rfl | ⟨ad, hroom, rfl⟩
    · exact hs
    · obtain ⟨hentries, -, hconfirms⟩ := (storeSound_iff s).1 hs
      refine (storeSound_iff _).2 ⟨hentries, ?_, hconfirms⟩
      show (s.admins ++ [ad]).length ≤ s.adminCapacity
      rw [List.length_append]
      exact hroom
  rcases hcases with ⟨-, heq⟩ | ⟨id, -, -, hle, heq⟩
  · rw [heq]
    exact hs₁
  · rw [heq]
    obtain ⟨-, hrest⟩ := (storeSound_iff s₁).1 hs₁
    exact (storeSound_iff _).2 ⟨length_placed_le offer.record id hle, hrest⟩

/-! ### Merging -/

section Merge

variable {root : Key} {sign : SignOps} {hash : HashOps}

/-- The manifest state a merge leaves. -/
def mergedManifest (s : RevocationStore) (root : Key) (sign : SignOps) (hash : HashOps)
    (m : Option ManifestState) (offers : List RevocationOffer) : Option ManifestState :=
  (revocationMerge s root sign hash m offers).2.2.2

/-- A merge admits the first offer and merges the rest. -/
theorem revocationMerge_cons (m : Option ManifestState) (offer : RevocationOffer)
    (offers : List RevocationOffer) :
    (revocationMerge s root sign hash m (offer :: offers)).2.2 =
      (revocationMerge (revocationAdmit s offer root sign hash m).2.1 root sign hash
        (revocationAdmit s offer root sign hash m).2.2 offers).2.2 := by
  rw [revocationMerge]
  split_ifs
  · rfl
  · rfl

theorem mergedStore_cons (m : Option ManifestState) (offer : RevocationOffer)
    (offers : List RevocationOffer) :
    mergedStore s root sign hash m (offer :: offers) =
      mergedStore (revocationAdmit s offer root sign hash m).2.1 root sign hash
        (revocationAdmit s offer root sign hash m).2.2 offers :=
  congrArg Prod.fst (revocationMerge_cons m offer offers)

/-- Two batches merged one behind the other are one batch. -/
theorem mergedStore_append (m : Option ManifestState) (pre post : List RevocationOffer) :
    mergedStore s root sign hash m (pre ++ post) =
      mergedStore (mergedStore s root sign hash m pre) root sign hash
        (mergedManifest s root sign hash m pre) post := by
  induction pre generalizing s m with
  | nil => rfl
  | cons offer pre ih =>
    rw [List.cons_append, mergedStore_cons, ih, mergedStore_cons, mergedManifest, mergedManifest,
      revocationMerge_cons]

/-- An offer of a batch is admitted: its call answers OK, in the state the offers
before it leave. -/
def Admitted (s : RevocationStore) (root : Key) (sign : SignOps) (hash : HashOps)
    (m : Option ManifestState) (offers : List RevocationOffer) (offer : RevocationOffer) : Prop :=
  ∃ pre, pre ++ [offer] <+: offers ∧
    (revocationAdmit (mergedStore s root sign hash m pre) offer root sign hash
      (mergedManifest s root sign hash m pre)).1 = .ok

theorem Admitted.mem {m : Option ManifestState} {offers : List RevocationOffer}
    {offer : RevocationOffer} (h : Admitted s root sign hash m offers offer) : offer ∈ offers := by
  obtain ⟨pre, hle, -⟩ := h
  exact hle.subset (by simp)

/-- **What every admission of a batch keeps, the merge keeps**; each admission may
be taken to be of the batch, and admitted if it answers OK. -/
theorem mergedStore_induction {P : RevocationStore → Prop} {m : Option ManifestState}
    {offers : List RevocationOffer}
    (hstep : ∀ offer ∈ offers, ∀ s' m',
      ((revocationAdmit s' offer root sign hash m').1 = .ok →
        Admitted s root sign hash m offers offer) →
      P s' → P (revocationAdmit s' offer root sign hash m').2.1)
    (hs : P s) : P (mergedStore s root sign hash m offers) := by
  refine Lib.prefix_induction (P := fun pre => P (mergedStore s root sign hash m pre)) hs
    fun pre offer hle ih => ?_
  rw [mergedStore_append, mergedStore_cons]
  exact hstep offer (hle.subset (by simp)) _ _ (fun hok => ⟨pre, hle, hok⟩) ih

/-- The store's settings, all but what an admission writes, are those of `s`. -/
def SameSettings (s s' : RevocationStore) : Prop :=
  s' = { s with entries := s'.entries, admins := s'.admins, generation := s'.generation }

theorem sameSettings_revocationAdmit (offer : RevocationOffer) (m : Option ManifestState) :
    SameSettings s (revocationAdmit s offer root sign hash m).2.1 := by
  obtain ⟨s₁, hkept, ⟨-, heq⟩ | ⟨id, -, -, -, heq⟩⟩ :=
    revocationAdmit_cases (s := s) offer root sign hash m
  all_goals
    rw [heq]
    rcases hkept with rfl | ⟨ad, -, rfl⟩
    all_goals rfl

/-- A merge leaves the settings alone. -/
theorem sameSettings_mergedStore (m : Option ManifestState) (offers : List RevocationOffer) :
    SameSettings s (mergedStore s root sign hash m offers) := by
  refine mergedStore_induction (P := SameSettings s) (fun offer _ s' m' _ hs' => ?_) rfl
  have hstep : SameSettings s' (revocationAdmit s' offer root sign hash m').2.1 :=
    sameSettings_revocationAdmit offer m'
  unfold SameSettings at hs' hstep ⊢
  rw [hstep, hs']

/-- **A merge keeps one entry per triple.** -/
theorem oneEntry_mergedStore (h1 : OneEntryPerTriple s) (m : Option ManifestState)
    (offers : List RevocationOffer) :
    OneEntryPerTriple (mergedStore s root sign hash m offers) := by
  refine mergedStore_induction (fun offer _ s' m' _ hs' => ?_) h1
  obtain ⟨s₁, hkept, ⟨-, heq⟩ | ⟨id, -, -, -, heq⟩⟩ :=
    revocationAdmit_cases (s := s') offer root sign hash m'
  all_goals
    have h1' : OneEntryPerTriple s₁ := by
      rcases hkept with rfl | ⟨ad, -, rfl⟩
      · exact hs'
      · exact hs'
    rw [heq]
  · exact h1'
  · exact oneEntry_placed h1' _

end Merge

end

/-! ## What a refused revocation leaves behind

`fzn_revocation_admit` checks an admin's chain before the record itself is placed,
and `entitled_as_admin` keeps the admin it has checked: a row of its own, as
`fzn_revocation_admin_admit` keeps one for an admin that casts no vote.  The record
may be refused behind that, for a hash that fails, a full table or a target the store
does not hold, and the row stays.

A refused record itself leaves no trace: no entry is written
(`PlaceCase.entry_eq_none`).  So a refused call leaves the store as it was, or with
one admin more (`revocationAdmit_refused_store`), and which of the two it is shows in
the offer and the store before the call (`ShowsNewAdmin`). -/

variable {s : RevocationStore} {offer : RevocationOffer} {root : Key} {sign : SignOps}
  {hash : HashOps} {m : Option ManifestState}

/-- The offer shows a chain for the store's admin capability that checks out for the
record's issuer, an admin the store does not hold yet and has a row left for. -/
structure ShowsNewAdmin (s : RevocationStore) (offer : RevocationOffer) (root : Key)
    (sign : SignOps) (hash : HashOps) (ad : Admin) : Prop where
  signed : sign.verify offer.record.issuer offer.record.signedBytes offer.record.signature = true
  asAdmin : s.hasAdmin = true ∧ ∃ hop ∈ offer.hops.head?, hop.capability = s.adminCapability
  row : adminRow s offer.record.issuer offer.hops root sign (some hash) = .ok ad
  unheld : Lib.row Admin.key ad.key s.admins = none
  room : s.admins.length < s.adminCapacity

/-- The store with one admin more. -/
def withAdmin (s : RevocationStore) (ad : Admin) : RevocationStore :=
  bump { s with admins := s.admins ++ [ad] }

/-- **A placement that refuses writes no entry** and moves no generation. -/
theorem PlaceCase.entry_eq_none {r : RevocationRecord} {id : RecId} {room : Bool}
    {old : Option Revocation} {p : Placement} (hc : PlaceCase r id room old p)
    (hne : p.err ≠ .ok) : p.entry = none ∧ p.bump = false := by
  cases hc with
  | full _ | mismatch _ _ | unchained _ _ _ _ => exact ⟨rfl, rfl⟩
  | first _ | withdraw _ _ _ | stale _ _ _ | rerevoke _ _ _ _ | reissue _ _ _ _ | known _ _ _ =>
    exact absurd rfl hne

/-- Behind the gate a refusal leaves the store the gate left. -/
theorem admitRecord_refused (hne : (admitRecord s offer.record hash m).1 ≠ .ok) :
    (admitRecord s offer.record hash m).2.1 = s := by
  unfold admitRecord at hne ⊢
  by_cases hcap : s.capacity < s.entries.length
  · rw [if_pos hcap]
  rw [if_neg hcap] at hne ⊢
  cases hid : hash.hash offer.record.bytes with
  | none => rfl
  | some id =>
    rw [hid] at hne
    obtain ⟨hentry, hbump⟩ :=
      (place_cases (findEntry s offer.record.triple) offer.record id _).entry_eq_none hne
    show placed s (placementOf s offer.record id) = s
    unfold placed placementOf
    rw [hentry, hbump]
    rfl

/-- The gate keeps the admin the offer shows. -/
theorem admitGate_of_showsNewAdmin {ad : Admin} (h : ShowsNewAdmin s offer root sign hash ad) :
    admitGate s offer root sign hash = (.ok, withAdmin s ad) := by
  obtain ⟨hadmin, hop, hhop, hcap⟩ := h.asAdmin
  have hlen : offer.hops.length ≠ 0 := by
    intro hz
    rw [List.length_eq_zero_iff.1 hz] at hhop
    exact absurd hhop (by simp)
  unfold admitGate
  rw [if_neg fun hc => hlen hc.1, if_neg (by simp [h.signed]), Option.mem_def.1 hhop]
  show (if s.hasAdmin = true ∧ hop.capability = s.adminCapability then _ else _) = _
  rw [if_pos ⟨hadmin, hcap⟩, entitledAsAdmin, h.row]
  show keepAdmin s ad = _
  unfold keepAdmin
  rw [h.unheld]
  exact if_neg (Nat.not_le.2 h.room)

/-- **The gate moves the store for nothing else.** -/
theorem admitGate_store (h : ¬∃ ad, ShowsNewAdmin s offer root sign hash ad) :
    (admitGate s offer root sign hash).2 = s := by
  unfold admitGate
  split_ifs with hroot hsig
  · rfl
  · rfl
  cases hhead : offer.hops.head? with
  | none => rfl
  | some hop =>
    show (if s.hasAdmin = true ∧ hop.capability = s.adminCapability then
      entitledAsAdmin s offer.record.issuer offer.hops root sign (some hash)
      else (entitledByChain s offer root sign, s)).2 = s
    split_ifs with hadmin
    · unfold entitledAsAdmin
      cases hrow : adminRow s offer.record.issuer offer.hops root sign (some hash) with
      | error err => rfl
      | ok ad =>
        show (keepAdmin s ad).2 = s
        unfold keepAdmin
        cases hheld : Lib.row Admin.key ad.key s.admins with
        | some held => rfl
        | none =>
          show (if s.adminCapacity ≤ s.admins.length then (ChainErr.storeFull, s)
            else (ChainErr.ok, bump { s with admins := s.admins ++ [ad] })).2 = s
          split_ifs with hfull
          · rfl
          · exact absurd ⟨ad, by simpa using hsig, ⟨hadmin.1, hop, hhead, hadmin.2⟩, hrow,
              hheld, Nat.lt_of_not_le hfull⟩ h
    · rfl

/-- A refused call leaves the store its gate left. -/
theorem revocationAdmit_refused_gate (hne : (revocationAdmit s offer root sign hash m).1 ≠ .ok) :
    (revocationAdmit s offer root sign hash m).2.1 = (admitGate s offer root sign hash).2 := by
  cases hg : admitGate s offer root sign hash with
  | mk err s₁ =>
    by_cases herr : err = .ok
    · subst herr
      rw [revocationAdmit_of_gate_ok hg] at hne ⊢
      exact admitRecord_refused hne
    · rw [revocationAdmit_of_gate_ne herr hg]

/-- **A refused call leaves the store as it was, or with one admin more.** -/
theorem revocationAdmit_refused_store (hne : (revocationAdmit s offer root sign hash m).1 ≠ .ok) :
    ((¬∃ ad, ShowsNewAdmin s offer root sign hash ad) →
        (revocationAdmit s offer root sign hash m).2.1 = s) ∧
      ∀ ad, ShowsNewAdmin s offer root sign hash ad →
        (revocationAdmit s offer root sign hash m).2.1 = withAdmin s ad := by
  rw [revocationAdmit_refused_gate hne]
  refine ⟨admitGate_store, fun ad h => ?_⟩
  rw [admitGate_of_showsNewAdmin h]

/-- An admin kept where there was room leaves `fzn_revocation_covers` alone: a store
that can be read stays one, and one that cannot stays one too. -/
theorem covers_withAdmin {ad : Admin} (hroom : s.admins.length < s.adminCapacity) (issuer : Key)
    (capability : CapId) (grantee : Key) :
    covers (withAdmin s ad) issuer capability grantee = covers s issuer capability grantee := by
  have hsound : storeSound (withAdmin s ad) = storeSound s := by
    rw [Bool.eq_iff_iff, storeSound_iff, storeSound_iff]
    show s.entries.length ≤ s.capacity ∧ (s.admins ++ [ad]).length ≤ s.adminCapacity ∧
      s.confirms.length ≤ s.confirmCapacity ↔ _
    rw [List.length_append, List.length_singleton]
    omega
  unfold covers
  rw [hsound]
  rfl

/-- **A refused revocation changes no answer but through an admin it shows.**  Where
`fzn_revocation_admit` does not answer OK, `fzn_revocation_covers` answers as before.
Unless the offer shows a new admin, so do `fzn_revocation_covers_links`,
`fzn_revocation_admin_stands` and `fzn_revocation_current_epoch`; and if it does, the
store is the one before with that admin's row at its end. -/
theorem refused_revocation_answers (s : RevocationStore) (offer : RevocationOffer) (root : Key)
    (sign : SignOps) (hash : HashOps) (m : Option ManifestState) (s' : RevocationStore)
    (hs' : s' = (revocationAdmit s offer root sign hash m).2.1)
    (hne : (revocationAdmit s offer root sign hash m).1 ≠ .ok) :
    (∀ issuer capability grantee,
        covers s' issuer capability grantee = covers s issuer capability grantee) ∧
      ((¬∃ ad, ShowsNewAdmin s offer root sign hash ad) →
        (∀ links capability i, coversLinks s' links capability i = coversLinks s links capability i) ∧
        (∀ key, adminStands s' key = adminStands s key) ∧
        ∀ pin capability grantee,
          currentEpoch s' pin capability grantee = currentEpoch s pin capability grantee) ∧
      ∀ ad, ShowsNewAdmin s offer root sign hash ad → s' = withAdmin s ad := by
  obtain ⟨hsame, hkept⟩ := revocationAdmit_refused_store hne
  rw [← hs'] at hsame hkept
  refine ⟨fun issuer capability grantee => ?_, fun hnone => ?_, hkept⟩
  · by_cases hshow : ∃ ad, ShowsNewAdmin s offer root sign hash ad
    · obtain ⟨ad, hshow⟩ := hshow
      rw [hkept ad hshow]
      exact covers_withAdmin hshow.room issuer capability grantee
    · rw [hsame hshow]
  · rw [hsame hnone]
    exact ⟨fun _ _ _ => rfl, fun _ => rfl, fun _ _ _ => rfl⟩

/-- A full store with admins by capability `5`, in which key `2` has revoked `(7, 9)`. -/
def fullAdminStore : RevocationStore :=
  { emptyStore 1 with
    hasAdmin := true
    adminCapability := ⟨5⟩
    adminCapacity := 1
    entries := [⟨⟨7⟩, 9, 2, 12, false, 0, 12, 0⟩] }

/-- Key `2`'s revocation of `(7, 4)`, with a chain of one hop for `capability`. -/
def voteOf2 (capability : CapId) : RevocationOffer :=
  ⟨revocationBy 2 4 0 0 0 10, [⟨1, 2, capability, 0, 0, true, 0⟩]⟩

/-- Without an admin's chain the refused call leaves every answer. -/
theorem refused_revocation_answers_full :
    (revocationAdmit fullAdminStore (voteOf2 ⟨7⟩) 1 acceptingSign tailHash none).1 = .storeFull ∧
      ∀ key, adminStands
        (revocationAdmit fullAdminStore (voteOf2 ⟨7⟩) 1 acceptingSign tailHash none).2.1 key =
          adminStands fullAdminStore key := by
  refine ⟨by decide, ((refused_revocation_answers fullAdminStore (voteOf2 ⟨7⟩) 1
    acceptingSign tailHash none _ rfl (by decide)).2.1 ?_).2.1⟩
  rintro ⟨ad, h⟩
  obtain ⟨-, hop, hhop, hcap⟩ := h.asAdmin
  obtain rfl : hop = ⟨1, 2, ⟨7⟩, 0, 0, true, 0⟩ := (Option.some.inj hhop).symm
  exact absurd hcap (by decide)

/-- **With one, they move.**  The vote is refused for want of room; the admin stands
from then on, and a vote of its own that was held and did not count now revokes. -/
theorem refused_vote_moves_answers :
    storeSound fullAdminStore = true ∧
    (revocationAdmit fullAdminStore (voteOf2 ⟨5⟩) 1 acceptingSign tailHash none).1 = .storeFull ∧
    adminStands fullAdminStore 2 = false ∧
    adminStands (revocationAdmit fullAdminStore (voteOf2 ⟨5⟩) 1 acceptingSign tailHash none).2.1 2 =
      true ∧
    coversLinks fullAdminStore [⟨1, 3⟩, ⟨3, 9⟩] ⟨7⟩ 1 = false ∧
    coversLinks (revocationAdmit fullAdminStore (voteOf2 ⟨5⟩) 1 acceptingSign tailHash none).2.1
      [⟨1, 3⟩, ⟨3, 9⟩] ⟨7⟩ 1 = true :=
  ⟨by decide, by decide, by decide, by decide, by decide,
    by decide⟩

end Chain
end Fuzznet
