/-
# A revocation and its withdrawal, in either order

`chain/revocation.c`, `fzn_revocation_admit`: the revocation first goes through
the first entry and the withdrawal in place; the withdrawal first goes through
the tombstone and the stale copy.

Either way the entry is withdrawn, names the revocation, holds the withdrawal and
has their epoch.  The cut is what the two orders differ in: in place it is the
revocation's, on a tombstone it is none, and the stale copy that brings it
afterwards is not read.  So the two orders agree exactly when the revocation
draws no line (`revocation_withdrawal_commute`).
-/

import Fuzznet.Chain.Admit

namespace Fuzznet
namespace Chain

open Wire

/-! ### The admin table behind two admissions -/

/-- The admin row an offer that passes the gate stands on. -/
def offeredAdmin (s : RevocationStore) (offer : RevocationOffer) (root : Key) (sign : SignOps)
    (hash : HashOps) : Option Admin :=
  match offer.hops.head? with
  | none => none
  | some hop0 =>
    if s.hasAdmin ∧ hop0.capability = s.adminCapability then
      (adminRow s offer.record.issuer offer.hops root sign (some hash)).toOption
    else none

/-- A row is in the table already, or is the one added. -/
def RowKept (ad : Admin) (rows rows' : List Admin) : Prop :=
  (Lib.row Admin.key ad.key rows = some ad ∧ rows' = rows) ∨
    (Lib.row Admin.key ad.key rows = none ∧ rows' = rows ++ [ad])

/-- The admin table behind a gate that passed: the row offered is kept, if one is. -/
def RowsKept : Option Admin → List Admin → List Admin → Prop
  | none, rows, rows' => rows' = rows
  | some ad, rows, rows' => RowKept ad rows rows'

/-- Behind a gate that passed the row is in the table. -/
theorem RowKept.row_eq {ad : Admin} {rows rows' : List Admin} (h : RowKept ad rows rows') :
    Lib.row Admin.key ad.key rows' = some ad := by
  rcases h with ⟨h, rfl⟩ | ⟨h, rfl⟩
  · exact h
  · exact Lib.row_concat h

/-- The table a row leaves is settled by the table it met. -/
theorem RowKept.unique {ad : Admin} {rows r r' : List Admin} (h : RowKept ad rows r)
    (h' : RowKept ad rows r') : r = r' := by
  rcases h with ⟨h, rfl⟩ | ⟨h, rfl⟩ <;> rcases h' with ⟨h', rfl⟩ | ⟨h', rfl⟩
  · rfl
  · exact absurd (h.symm.trans h') (by simp)
  · exact absurd (h.symm.trans h') (by simp)
  · rfl

/-- A second row of a key that is held is the row held, and adds nothing. -/
theorem RowKept.eq_of_row {a b : Admin} {rows r : List Admin}
    (ha : Lib.row Admin.key b.key rows = some a) (h : RowKept b rows r) : a = b ∧ r = rows := by
  rcases h with ⟨h, rfl⟩ | ⟨h, rfl⟩
  · exact ⟨Option.some.inj (ha.symm.trans h), rfl⟩
  · exact absurd (ha.symm.trans h) (by simp)

/-- **Two offers of one issuer leave one admin table, whichever came first.** -/
theorem RowsKept.comm {key : Key} {oa ob : Option Admin} (ha : ∀ ad ∈ oa, ad.key = key)
    (hb : ∀ ad ∈ ob, ad.key = key) {rows r₁ r₂ r₁' r₂' : List Admin} (h₁ : RowsKept oa rows r₁)
    (h₂ : RowsKept ob r₁ r₂) (h₁' : RowsKept ob rows r₁') (h₂' : RowsKept oa r₁' r₂') : r₂ = r₂' := by
  cases oa with
  | none =>
    obtain rfl : r₁ = rows := h₁
    obtain rfl : r₂' = r₁' := h₂'
    cases ob with
    | none => exact Eq.trans h₂ (Eq.symm h₁')
    | some b => exact RowKept.unique h₂ h₁'
  | some a =>
    cases ob with
    | none =>
      obtain rfl : r₂ = r₁ := h₂
      obtain rfl : r₁' = rows := h₁'
      exact RowKept.unique h₁ h₂'
    | some b =>
      have hab : a.key = b.key := (ha a rfl).trans (hb b rfl).symm
      obtain ⟨rfl, rfl⟩ := RowKept.eq_of_row (hab ▸ RowKept.row_eq h₁) h₂
      obtain ⟨-, rfl⟩ := RowKept.eq_of_row (RowKept.row_eq h₁') h₂'
      exact RowKept.unique h₁ h₁'

section Gate

variable {s s' : RevocationStore} {root : Key} {sign : SignOps} {hash : HashOps}

theorem adminRow_key {issuer : Key} {hops : List Hop} {h : Option HashOps} {ad : Admin}
    (hrow : adminRow s issuer hops root sign h = .ok ad) : ad.key = issuer := by
  unfold adminRow at hrow
  split_ifs at hrow
  split at hrow
  · simp at hrow
  · split_ifs at hrow with hne
    split at hrow
    · obtain rfl := Except.ok.inj hrow
      simpa using hne
    · simp at hrow

theorem keepAdmin_ok {ad : Admin} (h : keepAdmin s ad = (.ok, s')) :
    s' = { s with admins := s'.admins, generation := s'.generation } ∧
      RowKept ad s.admins s'.admins := by
  unfold keepAdmin at h
  split at h
  · rename_i held hrow
    split_ifs at h with heq
    · obtain rfl : s = s' := (Prod.mk.inj h).2
      exact ⟨rfl, Or.inl ⟨heq ▸ hrow, rfl⟩⟩
    · simp at h
  · rename_i hrow
    split_ifs at h
    · simp at h
    · obtain rfl := (Prod.mk.inj h).2
      exact ⟨rfl, Or.inr ⟨hrow, rfl⟩⟩

theorem offeredAdmin_key {offer : RevocationOffer} :
    ∀ ad ∈ offeredAdmin s offer root sign hash, ad.key = offer.record.issuer := by
  intro ad had
  unfold offeredAdmin at had
  split at had
  · simp at had
  · split_ifs at had
    · cases hrow : adminRow s offer.record.issuer offer.hops root sign (some hash) with
      | error err => simp [hrow, Except.toOption] at had
      | ok row =>
        rw [hrow] at had
        obtain rfl : row = ad := Option.some.inj had
        exact adminRow_key hrow
    · simp at had

/-- A gate that passes keeps the row the offer stands on, and nothing else. -/
theorem admitGate_ok {offer : RevocationOffer}
    (h : admitGate s offer root sign hash = (.ok, s')) :
    s' = { s with admins := s'.admins, generation := s'.generation } ∧
      RowsKept (offeredAdmin s offer root sign hash) s.admins s'.admins := by
  have hsame : s = s' → s' = { s with admins := s'.admins, generation := s'.generation } ∧
      RowsKept none s.admins s'.admins := by
    rintro rfl
    exact ⟨rfl, rfl⟩
  unfold admitGate at h
  unfold offeredAdmin
  split_ifs at h
  · simp at h
  · simp at h
  · cases hhead : offer.hops.head? with
    | none =>
      simp only [hhead, Prod.mk.injEq, true_and] at h
      exact hsame h
    | some hop0 =>
      simp only [hhead] at h ⊢
      split_ifs at h ⊢ with hadm
      · unfold entitledAsAdmin at h
        cases hrow : adminRow s offer.record.issuer offer.hops root sign (some hash) with
        | error err =>
          simp only [hrow, Prod.mk.injEq] at h
          exact hsame h.2
        | ok ad =>
          simp only [hrow] at h
          exact keepAdmin_ok h
      · rw [Prod.mk.injEq] at h
        exact hsame h.2

end Gate

/-! ### The two orders -/

/-- What an admission that answers OK did: the gate passed, the record hashed, and
it was placed. -/
theorem revocationAdmit_ok {s : RevocationStore} {offer : RevocationOffer} {root : Key}
    {sign : SignOps} {hash : HashOps} {m : Option ManifestState}
    (h : (revocationAdmit s offer root sign hash m).1 = .ok) :
    ∃ s₁ id, admitGate s offer root sign hash = (.ok, s₁) ∧
      hash.hash offer.record.bytes = some id ∧
      (revocationAdmit s offer root sign hash m).2.1 = placed s₁ (placementOf s₁ offer.record id) := by
  obtain ⟨s₁, -, ⟨hne, -⟩ | ⟨id, hg, hid, -, heq⟩⟩ :=
    revocationAdmit_cases (s := s) offer root sign hash m
  · exact absurd h hne
  · exact ⟨s₁, id, hg, hid, by rw [heq]⟩

/-- `w` withdraws `r`: the same triple and epoch, naming `r` by its hash `id`. -/
structure Withdraws (hash : HashOps) (r w : RevocationRecord) (id : RecId) : Prop where
  revocation : r.withdrawal = false
  withdrawal : w.withdrawal = true
  triple : w.triple = r.triple
  epoch : w.epoch = r.epoch
  hashed : hash.hash r.bytes = some id
  names : w.supersedes = id

/-- Two offers, one behind the other. -/
def admitThen (s : RevocationStore) (a b : RevocationOffer) (root : Key) (sign : SignOps)
    (hash : HashOps) (m : Option ManifestState) :
    ChainErr × RevocationStore × Option ManifestState :=
  revocationAdmit (revocationAdmit s a root sign hash m).2.1 b root sign hash
    (revocationAdmit s a root sign hash m).2.2

section Orders

variable {s : RevocationStore} {r w : RevocationRecord} {idR : RecId} {hash : HashOps}

/-- The entry of the pair behind both, the revocation's cut being `cut`. -/
def withdrawnEntry (r : RevocationRecord) (idR idW cut : RecId) : Revocation :=
  { r.entry idR with withdrawn := true, held := idW, cut := cut }

/-- A first entry is added at the end. -/
theorem placed_first {id : RecId} (hnone : findEntry s r.triple = none)
    (hroom : s.entries.length < s.capacity) :
    placed s (placementOf s r id) =
      { s with entries := s.entries ++ [r.entry id], generation := s.generation + 1 } := by
  have hp : placementOf s r id = ⟨.ok, some (r.entry id), true, !r.withdrawal⟩ := by
    unfold placementOf
    rw [hnone]
    simp [place, hroom]
  rw [placed, hp]
  simp only [Option.elim_some, if_true]
  rw [Lib.writeRow_eq_append (a := r.entry id) hnone]

/-- The withdrawal over the revocation it names, the last entry: in place. -/
theorem placed_withdraw (hw : Withdraws hash r w idR) (idW : RecId) {es : List Revocation}
    (hs : s.entries = es ++ [r.entry idR])
    (hnone : Lib.row Revocation.triple r.triple es = none) :
    (placed s (placementOf s w idW)).entries = es ++ [withdrawnEntry r idR idW r.cut] := by
  have hfind : findEntry s w.triple = some (r.entry idR) := by
    rw [hw.triple, findEntry, hs]
    exact Lib.row_concat (a := r.entry idR) hnone
  have hp : (placementOf s w idW).entry = some (withdrawnEntry r idR idW r.cut) := by
    unfold placementOf
    rw [hfind]
    simp [place, hw.withdrawal, hw.names, hw.epoch, withdrawnEntry, RevocationRecord.entry,
      hw.revocation]
  rw [placed, hp]
  simp only [Option.elim_some, hs]
  exact Lib.writeRow_concat (a := withdrawnEntry r idR idW r.cut) (b := r.entry idR) hnone rfl

/-- The revocation behind the tombstone that names it, the last entry: a stale
copy, and nothing is written. -/
theorem placed_stale (hw : Withdraws hash r w idR) (idW : RecId) {es : List Revocation}
    (hs : s.entries = es ++ [w.entry idW])
    (hnone : Lib.row Revocation.triple r.triple es = none) :
    (placed s (placementOf s r idR)).entries = es ++ [withdrawnEntry r idR idW 0] := by
  have hwe : w.entry idW = withdrawnEntry r idR idW 0 := by
    have ht := hw.triple
    simp only [RevocationRecord.triple, Triple.mk.injEq] at ht
    simp [RevocationRecord.entry, withdrawnEntry, hw.withdrawal, hw.revocation, hw.names, hw.epoch, ht]
  have hfind : findEntry s r.triple = some (withdrawnEntry r idR idW 0) := by
    rw [findEntry, hs, hwe]
    exact Lib.row_concat (a := withdrawnEntry r idR idW 0) hnone
  have hp : (placementOf s r idR).entry = none := by
    unfold placementOf
    rw [hfind]
    simp [place, hw.revocation, withdrawnEntry, RevocationRecord.entry]
  rw [placed, hp, ← hwe]
  exact hs

end Orders

section Stores

variable {s : RevocationStore} {a b : RevocationOffer} {root : Key} {sign : SignOps}
  {hash : HashOps} {m : Option ManifestState}

/-- Two admissions that answer OK, the first of a triple's first entry: the first
record is at the end when the second is placed, and the admin table is as the two
gates leave it. -/
theorem admitThen_ok (hnone : findEntry s a.record.triple = none)
    (hroom : s.entries.length < s.capacity)
    (ha : (revocationAdmit s a root sign hash m).1 = .ok)
    (hb : (admitThen s a b root sign hash m).1 = .ok) {idA idB : RecId}
    (hidA : hash.hash a.record.bytes = some idA) (hidB : hash.hash b.record.bytes = some idB) :
    ∃ rows₁ rows₂ gen, RowsKept (offeredAdmin s a root sign hash) s.admins rows₁ ∧
      RowsKept (offeredAdmin s b root sign hash) rows₁ rows₂ ∧
      ∀ s₂, s₂ = { s with
          entries := s.entries ++ [a.record.entry idA], admins := rows₂, generation := gen } →
        (admitThen s a b root sign hash m).2.1 = placed s₂ (placementOf s₂ b.record idB) := by
  obtain ⟨s₁, id₁, hg₁, hid₁, hs₁⟩ := revocationAdmit_ok ha
  obtain rfl : idA = id₁ := Option.some.inj (hidA.symm.trans hid₁)
  obtain ⟨hrest₁, hkept₁⟩ := admitGate_ok hg₁
  have hfind₁ : findEntry s₁ a.record.triple = none := by
    rw [hrest₁]
    exact hnone
  have hroom₁ : s₁.entries.length < s₁.capacity := by
    rw [hrest₁]
    exact hroom
  rw [placed_first hfind₁ hroom₁] at hs₁
  unfold admitThen at hb ⊢
  rw [hs₁] at hb ⊢
  obtain ⟨s₂, id₂, hg₂, hid₂, hs₂⟩ := revocationAdmit_ok hb
  obtain rfl : idB = id₂ := Option.some.inj (hidB.symm.trans hid₂)
  obtain ⟨hrest₂, hkept₂⟩ := admitGate_ok hg₂
  refine ⟨s₁.admins, s₂.admins, s₂.generation, hkept₁, ?_, ?_⟩
  · rw [hrest₁] at hkept₂
    exact hkept₂
  · rintro _ rfl
    rw [hs₂, hrest₂, hrest₁]

end Stores

/-- The entry of a triple and the answers of the three questions agree in two
stores. -/
def SameAnswers (s s' : RevocationStore) (t : Triple) : Prop :=
  findEntry s t = findEntry s' t ∧
    (∀ issuer capability grantee,
      covers s issuer capability grantee = covers s' issuer capability grantee) ∧
    (∀ links capability i, coversLinks s links capability i = coversLinks s' links capability i) ∧
    ∀ links capability i act,
      actStands s links capability i act = actStands s' links capability i act

/-- The generation is no part of any answer. -/
theorem sameAnswers_generation (s : RevocationStore) (gen : ℕ) (t : Triple) :
    SameAnswers { s with generation := gen } s t :=
  ⟨rfl, fun _ _ _ => rfl, fun _ _ _ => rfl, fun _ _ _ _ => rfl⟩

/-- **A revocation and its withdrawal commute exactly when the revocation draws no
line.**  From a store with no entry for the triple and room for one, with every
call answering OK, the two orders leave one entry, and with it the same answers,
if and only if the revocation's cut is none. -/
theorem revocation_withdrawal_commute {s : RevocationStore} {oR oW : RevocationOffer} {root : Key}
    {sign : SignOps} {hash : HashOps} {m : Option ManifestState} {id : RecId}
    (hw : Withdraws hash oR.record oW.record id) (hnone : findEntry s oR.record.triple = none)
    (hroom : s.entries.length < s.capacity)
    (hR : (revocationAdmit s oR root sign hash m).1 = .ok)
    (hRW : (admitThen s oR oW root sign hash m).1 = .ok)
    (hW : (revocationAdmit s oW root sign hash m).1 = .ok)
    (hWR : (admitThen s oW oR root sign hash m).1 = .ok) :
    SameAnswers (admitThen s oR oW root sign hash m).2.1 (admitThen s oW oR root sign hash m).2.1
      oR.record.triple ↔ oR.record.cut = 0 := by
  obtain ⟨-, idW, -, hidW, -⟩ := revocationAdmit_ok hW
  obtain ⟨r₁, r₂, gen, h₁, h₂, hs⟩ := admitThen_ok hnone hroom hR hRW hw.hashed hidW
  obtain ⟨r₁', r₂', gen', h₁', h₂', hs'⟩ :=
    admitThen_ok (hw.triple ▸ hnone) hroom hW hWR hidW hw.hashed
  have hiss : oW.record.issuer = oR.record.issuer := congrArg Triple.issuer hw.triple
  obtain rfl : r₂ = r₂' := RowsKept.comm (fun ad had => offeredAdmin_key ad had)
    (fun ad had => (offeredAdmin_key ad had).trans hiss) h₁ h₂ h₁' h₂'
  have hRWs := placed_withdraw hw idW
    (s := { s with
      entries := s.entries ++ [oR.record.entry id], admins := r₂, generation := gen }) rfl hnone
  have hWRs := placed_stale hw idW
    (s := { s with
      entries := s.entries ++ [oW.record.entry idW], admins := r₂, generation := gen' }) rfl hnone
  rw [← hs _ rfl] at hRWs
  rw [← hs' _ rfl] at hWRs
  have hrest : (admitThen s oR oW root sign hash m).2.1 =
      { s with
        entries := s.entries ++ [withdrawnEntry oR.record id idW oR.record.cut]
        admins := r₂
        generation := (admitThen s oR oW root sign hash m).2.1.generation } := by
    rw [← hRWs, hs _ rfl]
    rfl
  have hrest' : (admitThen s oW oR root sign hash m).2.1 =
      { s with
        entries := s.entries ++ [withdrawnEntry oR.record id idW 0]
        admins := r₂
        generation := (admitThen s oW oR root sign hash m).2.1.generation } := by
    rw [← hWRs, hs' _ rfl]
    rfl
  constructor
  · rintro ⟨hentry, -⟩
    rw [findEntry, findEntry, hRWs, hWRs] at hentry
    have hcut := (Lib.row_concat (a := withdrawnEntry oR.record id idW oR.record.cut) hnone).symm.trans
      (hentry.trans (Lib.row_concat (a := withdrawnEntry oR.record id idW 0) hnone))
    exact congrArg Revocation.cut (Option.some.inj hcut)
  · intro hcut
    rw [hrest, hrest', hcut]
    exact sameAnswers_generation
      { s with
        entries := s.entries ++ [withdrawnEntry oR.record id idW 0]
        admins := r₂
        generation := (admitThen s oW oR root sign hash m).2.1.generation } _ _

/-- Key `2`, granted capability `7` by the root `1`, revokes `(7, 4)` in epoch 0
with a line at `cut`; the id is `10`. -/
def revocationOf2 (cut : RecId) : RevocationOffer where
  record := revocationBy 2 4 0 0 cut 10
  hops := [⟨1, 2, ⟨7⟩, 0, 0, true, 0⟩]

/-- Its withdrawal. -/
def withdrawalOf2 : RevocationOffer where
  record := withdrawalBy 2 4 10 0 11 (by decide)
  hops := [⟨1, 2, ⟨7⟩, 0, 0, true, 0⟩]

theorem withdraws_of2 (cut : RecId) :
    Withdraws tailHash (revocationOf2 cut).record withdrawalOf2.record 10 where
  revocation := rfl
  withdrawal := rfl
  triple := rfl
  epoch := rfl
  hashed := by
    rw [tailHash_bytes]
    show some (BitVec.ofNat 256 (getBe (putBe 64 (10 : Sig).toNat) 32 32)) = some 10
    decide +kernel
  names := rfl

/-- A store of quorum two in which key `3` has revoked `(7, 4)` with a line at `5`,
and an act log that has every act at or before every line. -/
def otherVoteStore : RevocationStore :=
  { emptyStore 2 with
    quorum := 2
    acts := some ⟨fun _ _ _ => true⟩
    entries := [⟨⟨7⟩, 4, 3, 12, false, 0, 12, 5⟩] }

/-- The hypotheses are satisfiable, for a revocation without a line. -/
theorem commute_of2 :
    SameAnswers
      (admitThen otherVoteStore (revocationOf2 0) withdrawalOf2 1 acceptingSign tailHash none).2.1
      (admitThen otherVoteStore withdrawalOf2 (revocationOf2 0) 1 acceptingSign tailHash none).2.1
      (revocationOf2 0).record.triple :=
  (revocation_withdrawal_commute (withdraws_of2 0) (by decide +kernel) (by decide +kernel)
    (by decide +kernel) (by decide +kernel) (by decide +kernel) (by decide +kernel)).2 rfl

/-- **With a line the two orders part.**  Each of the four calls answers OK; the
latch of epoch 0 holds the hop revoked in both stores, and an act behind both
lines stands in the first and not in the second, which has lost one of them. -/
theorem not_commute_of2 :
    Withdraws tailHash (revocationOf2 6).record withdrawalOf2.record 10 ∧
    storeSound otherVoteStore = true ∧
    findEntry otherVoteStore (revocationOf2 6).record.triple = none ∧
    otherVoteStore.entries.length < otherVoteStore.capacity ∧
    (revocationAdmit otherVoteStore (revocationOf2 6) 1 acceptingSign tailHash none).1 = .ok ∧
    (admitThen otherVoteStore (revocationOf2 6) withdrawalOf2 1 acceptingSign tailHash none).1 = .ok ∧
    (revocationAdmit otherVoteStore withdrawalOf2 1 acceptingSign tailHash none).1 = .ok ∧
    (admitThen otherVoteStore withdrawalOf2 (revocationOf2 6) 1 acceptingSign tailHash none).1 = .ok ∧
    (findEntry (admitThen otherVoteStore (revocationOf2 6) withdrawalOf2 1 acceptingSign tailHash
      none).2.1 (revocationOf2 6).record.triple).map Revocation.cut = some 6 ∧
    (findEntry (admitThen otherVoteStore withdrawalOf2 (revocationOf2 6) 1 acceptingSign tailHash
      none).2.1 (revocationOf2 6).record.triple).map Revocation.cut = some 0 ∧
    actStands (admitThen otherVoteStore (revocationOf2 6) withdrawalOf2 1 acceptingSign tailHash
      none).2.1 [⟨1, 2⟩, ⟨2, 3⟩, ⟨3, 4⟩] ⟨7⟩ 2 9 = true ∧
    actStands (admitThen otherVoteStore withdrawalOf2 (revocationOf2 6) 1 acceptingSign tailHash
      none).2.1 [⟨1, 2⟩, ⟨2, 3⟩, ⟨3, 4⟩] ⟨7⟩ 2 9 = false :=
  ⟨withdraws_of2 6, by decide +kernel, by decide +kernel, by decide +kernel, by decide +kernel,
    by decide +kernel, by decide +kernel, by decide +kernel, by decide +kernel, by decide +kernel,
    by decide +kernel, by decide +kernel⟩

end Chain
end Fuzznet
