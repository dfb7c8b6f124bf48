/-
# What the overflow flag is worth

`chain/manifest.c`: the end of `fzn_manifest_admit` and `fzn_manifest_overflowed`.

The flag goes up when a pair finds no room in the deficit table.  It goes down with a
manifest that names as many pairs as any before it and drops none.  While it is down,
every pair of every manifest recorded, that the host is behind about and that was not
satisfied since, is to be listed (`Trustworthy`).

The count is all the code compares.  Between two manifests of one size the state of a
pair may have moved, so an older one can lower the flag over a pair that only the
newer one finds the host behind about.  What keeps the flag true is that a manifest
which lowers it names again, as one the host is behind about, every pair that is
missing (`LedgerEvent.Renames`).
-/

import Fuzznet.Chain.Deficit

namespace Fuzznet
namespace Chain

open Wire

/-! ### The pairs of every manifest so far -/

/-- A ledger, and the entries of `issuer`'s manifests recorded so far whose triple was
not satisfied since. -/
structure Audit where
  ledger : Ledger
  unsettled : List ManifestEntry

/-- The audit behind an event. -/
def Audit.step (issuer : Key) (a : Audit) : LedgerEvent → Audit
  | .revoke offer root sign hash passed => {
      ledger := a.ledger.revoke offer root sign hash passed
      unsettled :=
        if passed = true ∧ drains a.ledger.store offer root sign hash = true then
          a.unsettled.filter fun e => e.triple issuer ≠ offer.record.triple
        else a.unsettled }
  | .manifest r sign => {
      ledger := a.ledger.step (.manifest r sign)
      unsettled :=
        if r.issuer = issuer ∧
            (manifestAdmit a.ledger.manifest (some a.ledger.store) r sign).1.recorded = true then
          a.unsettled ++ r.entries
        else a.unsettled }

/-- The audit behind a run. -/
def Audit.run (issuer : Key) (a : Audit) (events : List LedgerEvent) : Audit :=
  events.foldl (Audit.step issuer) a

/-- **While the flag is down, what the host is behind about is listed.** -/
def Trustworthy (issuer : Key) (a : Audit) : Prop :=
  overflowed a.ledger.manifest issuer = false → ∀ e ∈ a.unsettled,
    behind (some a.ledger.store) issuer e = true → e.triple issuer ∈ a.ledger.manifest.deficit

/-- The entries of a manifest the host is behind about and has not listed. -/
def unlisted (s : Option RevocationStore) (issuer : Key) (d : List Triple)
    (es : List ManifestEntry) : List ManifestEntry :=
  es.filter fun e => behind s issuer e && decide (e.triple issuer ∉ d)

/-- A manifest lowers the flag: it is up, the manifest is as large as any seen, and the
table has room for all it would list. -/
def Lowers (l : Ledger) (r : ManifestRecord) : Prop :=
  overflowed l.manifest r.issuer = true ∧
    (∀ row ∈ findIssuer l.manifest r.issuer, row.pairsSeen ≤ r.entries.length) ∧
    (unlisted (some l.store) r.issuer l.manifest.deficit r.entries).length +
      l.manifest.deficit.length ≤ l.manifest.deficitCapacity

/-- What keeps the flag true: a revocation that satisfies its triple is passed the
manifest state, and a manifest that lowers the flag names again, as one the host is
behind about, every unsettled pair that is missing. -/
def LedgerEvent.Renames (issuer : Key) (a : Audit) : LedgerEvent → Prop
  | .revoke offer root sign hash passed =>
    drains a.ledger.store offer root sign hash = true → passed = true
  | .manifest r _ => r.issuer = issuer → Lowers a.ledger r → ∀ e ∈ a.unsettled,
      behind (some a.ledger.store) issuer e = true → e.triple issuer ∉ a.ledger.manifest.deficit →
        ∃ e' ∈ r.entries, e'.triple issuer = e.triple issuer ∧
          behind (some a.ledger.store) issuer e' = true

/-! ### A revocation -/

section Revoke

variable {s : RevocationStore} {issuer : Key} {e : ManifestEntry}

/-- What is held is behind an entry of a manifest: another record, or the same one not
withdrawn where the manifest says it is. -/
def lags (e : ManifestEntry) (w : Revocation) : Bool :=
  w.id != e.id || (e.withdrawn && !w.withdrawn)

/-- In a store that can be read, what is held decides. -/
theorem behind_eq (hs : storeSound s = true) :
    behind (some s) issuer e = (findEntry s (e.triple issuer)).all (lags e) := by
  unfold behind lookup ManifestEntry.triple
  rw [Option.bind_some, if_neg (by simp [hs])]
  cases findEntry s ⟨issuer, e.capability, e.grantee⟩ with
  | none => rfl
  | some w => rfl

/-- A store that cannot be read is behind about everything. -/
theorem behind_of_not_sound (hs : storeSound s = false) : behind (some s) issuer e = true := by
  simp [behind, lookup, hs]

variable {l : Ledger} {offer : RevocationOffer} {root : Key} {sign : SignOps} {hash : HashOps}
  {passed : Bool}

/-- The entry a revocation leaves decides whether the host is behind. -/
theorem behind_of_revoke_entry
    (hentry : (findEntry (l.revoke offer root sign hash passed).store (e.triple issuer)).all
      (lags e) = true → (findEntry l.store (e.triple issuer)).all (lags e) = true)
    (hb : behind (some (l.revoke offer root sign hash passed).store) issuer e = true) :
    behind (some l.store) issuer e = true := by
  cases hs : storeSound l.store with
  | false => exact behind_of_not_sound hs
  | true =>
    have hs' : storeSound (l.revoke offer root sign hash passed).store = true :=
      storeSound_revocationAdmit hs offer root sign hash _
    rw [behind_eq hs'] at hb
    rw [behind_eq hs]
    exact hentry hb

/-- About another triple a revocation changes nothing. -/
theorem behind_of_revoke_ne (ht : e.triple issuer ≠ offer.record.triple)
    (hb : behind (some (l.revoke offer root sign hash passed).store) issuer e = true) :
    behind (some l.store) issuer e = true := by
  refine behind_of_revoke_entry (fun hlag => ?_) hb
  rcases l.revoke_cases offer root sign hash passed with
    ⟨hfind, -⟩ | ⟨id, room, -, -, -, hother, -⟩
  · rwa [hfind] at hlag
  · rwa [hother _ ht] at hlag

/-- **A revocation that drains nothing makes the host behind about nothing new.** -/
theorem behind_of_revoke (hd : drains l.store offer root sign hash = false)
    (hb : behind (some (l.revoke offer root sign hash passed).store) issuer e = true) :
    behind (some l.store) issuer e = true := by
  by_cases ht : e.triple issuer = offer.record.triple
  swap
  · exact behind_of_revoke_ne ht hb
  refine behind_of_revoke_entry (fun hlag => ?_) hb
  rcases l.revoke_cases offer root sign hash passed with
    ⟨hfind, -⟩ | ⟨id, room, -, -, hself, -, hdr⟩
  · rwa [hfind] at hlag
  rw [ht] at hlag ⊢
  rw [hself] at hlag
  rw [hd] at hdr
  have hc := place_cases (findEntry l.store offer.record.triple) offer.record id room
  generalize findEntry l.store offer.record.triple = old at hc hlag hdr ⊢
  generalize place old offer.record id room = p at hc hlag hdr
  cases hc with
  | full _ => rfl
  | first _ => rfl
  | mismatch _ _ => exact hlag
  | withdraw _ _ _ =>
    -- The id stays, and a withdrawn entry is behind about another id alone.
    simp only [Option.some_or, Option.all_some, lags, Bool.not_true, Bool.and_false,
      Bool.or_false] at hlag
    simp only [Option.all_some, lags, hlag, Bool.true_or]
  | stale _ _ _ => exact absurd hdr (by simp)
  | unchained _ _ _ _ => exact absurd hdr (by simp)
  | rerevoke _ _ _ _ => exact absurd hdr (by simp)
  | reissue _ _ _ _ => exact absurd hdr (by simp)
  | known _ _ _ => exact absurd hdr (by simp)

/-- A triple satisfied leaves the flags. -/
theorem overflowed_satisfy (m : ManifestState) (t : Triple) :
    overflowed (satisfy m t) issuer = overflowed m issuer := by
  cases hm : stateSound m with
  | false =>
    unfold satisfy
    rw [if_pos hm]
  | true =>
    have hrow : findIssuer (satisfy m t) issuer = findIssuer m issuer := by
      unfold satisfy
      rw [if_neg (by simp [hm])]
      rfl
    unfold overflowed
    rw [hm, stateSound_satisfy hm t, hrow]

end Revoke

/-! ### A manifest -/

section Manifest

/-- A manifest names a triple once. -/
theorem ManifestRecord.nodup_triples (r : ManifestRecord) :
    r.entries.Pairwise fun a b => a.triple r.issuer ≠ b.triple r.issuer := by
  refine r.ascending.imp fun {a b} hlt heq => ?_
  simp only [ManifestEntry.triple, Triple.mk.injEq, true_and] at heq
  have hkey : a.key = b.key := by
    unfold ManifestEntry.key
    rw [heq.1, heq.2]
  omega

/-- **A loop that dropped nothing had room for all it would list.** -/
theorem unlisted_fits {s : Option RevocationStore} {issuer : Key} {capacity : ℕ}
    {es : List ManifestEntry} {d : List Triple}
    (hn : es.Pairwise fun a b => a.triple issuer ≠ b.triple issuer) (hd : d.length ≤ capacity)
    (hnone : (recordDeficit s issuer capacity es d).2 = 0) :
    (unlisted s issuer d es).length + d.length ≤ capacity := by
  induction es generalizing d with
  | nil => simpa [unlisted] using hd
  | cons e es ih =>
    obtain ⟨hne, hn⟩ := List.pairwise_cons.1 hn
    by_cases h : behind s issuer e = false ∨ e.triple issuer ∈ d
    · rw [recordDeficit_skip es h] at hnone
      have hskip : unlisted s issuer d (e :: es) = unlisted s issuer d es := by
        refine List.filter_cons_of_neg ?_
        rcases h with h | h
        · simp [h]
        · simp [h]
      rw [hskip]
      exact ih hn hd hnone
    · by_cases hfull : capacity ≤ d.length
      · rw [recordDeficit_drop es h hfull] at hnone
        exact absurd hnone (by simp)
      · rw [recordDeficit_list es h hfull] at hnone
        -- The pairs behind this one are others, so listing it hides none of them.
        have hsame : unlisted s issuer (d ++ [e.triple issuer]) es = unlisted s issuer d es := by
          refine List.filter_congr fun c hc => ?_
          simp [(hne c hc).symm]
        have hlist : unlisted s issuer d (e :: es) = e :: unlisted s issuer d es := by
          refine List.filter_cons_of_pos ?_
          push Not at h
          simpa using h
        have hrest := ih hn (by rw [List.length_append, List.length_singleton]; omega) hnone
        rw [hsame, List.length_append, List.length_singleton] at hrest
        rw [hlist, List.length_cons]
        omega

variable {m : ManifestState} {row : ManifestIssuer} {issuer : Key} {count : ℕ}
  {d : List Triple × ℕ}

/-- Another issuer's flag does not move. -/
theorem overflowed_recorded_ne (hm : stateSound m = true)
    (hm' : stateSound (m.recorded row count d) = true) (hne : issuer ≠ row.issuer) :
    overflowed (m.recorded row count d) issuer = overflowed m issuer := by
  unfold overflowed
  rw [hm, hm']
  have hrow : findIssuer (m.recorded row count d) issuer = findIssuer m issuer :=
    Lib.row_writeRow_ne (by rwa [ManifestIssuer.admitted_issuer]) m.issuers
  rw [hrow]

/-- The issuer's own flag is its row's. -/
theorem overflowed_recorded_self (hm' : stateSound (m.recorded row count d) = true)
    (hissuer : row.issuer = issuer) :
    overflowed (m.recorded row count d) issuer = (row.admitted count d.2).overflowed := by
  subst hissuer
  unfold overflowed
  rw [hm']
  have hrow : findIssuer (m.recorded row count d) row.issuer = some (row.admitted count d.2) := by
    have hself : findIssuer (m.recorded row count d) (row.admitted count d.2).issuer =
        some (row.admitted count d.2) := Lib.row_writeRow_self _ m.issuers
    rwa [ManifestIssuer.admitted_issuer] at hself
  rw [hrow]
  rfl

/-- **A flag that is down saw no drop, and was down or is lowered.** -/
theorem ManifestIssuer.admitted_down {dropped : ℕ}
    (h : (row.admitted count dropped).overflowed = false) :
    dropped = 0 ∧ (row.overflowed = true → row.pairsSeen ≤ count) := by
  unfold ManifestIssuer.admitted at h
  split_ifs at h with hcount
  · exact ⟨by simpa using h, fun _ => hcount⟩
  · rw [Bool.or_eq_false_iff] at h
    exact ⟨by simpa using h.2, fun hup => absurd hup (by simp [h.1])⟩

end Manifest

/-! ### A run -/

section Run

variable {issuer : Key} {a : Audit}

/-- **A revocation keeps the flag true.** -/
theorem Trustworthy.revoke (h : Trustworthy issuer a) {offer : RevocationOffer} {root : Key}
    {sign : SignOps} {hash : HashOps} {passed : Bool}
    (hr : (LedgerEvent.revoke offer root sign hash passed).Renames issuer a) :
    Trustworthy issuer (a.step issuer (.revoke offer root sign hash passed)) := by
  intro hdown e he hb
  change overflowed (a.ledger.revoke offer root sign hash passed).manifest issuer = false at hdown
  change behind (some (a.ledger.revoke offer root sign hash passed).store) issuer e = true at hb
  show e.triple issuer ∈ (a.ledger.revoke offer root sign hash passed).manifest.deficit
  change e ∈ (if passed = true ∧ drains a.ledger.store offer root sign hash = true then
    a.unsettled.filter fun e => e.triple issuer ≠ offer.record.triple else a.unsettled) at he
  rw [a.ledger.revoke_manifest] at hdown ⊢
  by_cases hd : drains a.ledger.store offer root sign hash = true
  · have hpassed : passed = true := hr hd
    rw [if_pos ⟨hpassed, hd⟩] at hdown he ⊢
    rw [overflowed_satisfy] at hdown
    obtain ⟨he, hne⟩ := List.mem_filter.1 he
    have hne : e.triple issuer ≠ offer.record.triple := by simpa using hne
    exact mem_satisfy hne (h hdown e he (behind_of_revoke_ne hne hb))
  · rw [if_neg fun hand => hd hand.2] at hdown he ⊢
    exact h hdown e he (behind_of_revoke (by simpa using hd) hb)

/-- **So does a manifest**, if one that lowers the flag names again what is missing. -/
theorem Trustworthy.manifest (h : Trustworthy issuer a) {r : ManifestRecord} {sign : SignOps}
    (hr : (LedgerEvent.manifest r sign).Renames issuer a) :
    Trustworthy issuer (a.step issuer (.manifest r sign)) := by
  intro hdown e he hb
  change overflowed (manifestAdmit a.ledger.manifest (some a.ledger.store) r sign).2 issuer =
    false at hdown
  change behind (some a.ledger.store) issuer e = true at hb
  show e.triple issuer ∈ (manifestAdmit a.ledger.manifest (some a.ledger.store) r sign).2.deficit
  change e ∈ (if r.issuer = issuer ∧
      (manifestAdmit a.ledger.manifest (some a.ledger.store) r sign).1.recorded = true then
    a.unsettled ++ r.entries else a.unsettled) at he
  rcases manifestAdmit_cases a.ledger.manifest (some a.ledger.store) r sign with
    ⟨heq, hrefused⟩ | ⟨row, hm, -, hrow, -, heq⟩
  · rw [heq] at hdown ⊢
    rw [hrefused, if_neg (by simp)] at he
    exact h hdown e he hb
  have hm' : stateSound (manifestAdmit a.ledger.manifest (some a.ledger.store) r sign).2 = true :=
    stateSound_manifestAdmit hm
  have hissuer : row.issuer = r.issuer := findIssuer_issuer hrow
  rw [heq] at hm' hdown he ⊢
  by_cases hself : r.issuer = issuer
  swap
  · rw [if_neg fun hand => hself hand.1] at he
    rw [overflowed_recorded_ne hm hm' fun heq => hself (by rw [heq, hissuer])] at hdown
    exact mem_recordDeficit_of_mem _ (h hdown e he hb)
  subst hself
  rw [overflowed_recorded_self hm' hissuer] at hdown
  obtain ⟨hnone, hseen⟩ := ManifestIssuer.admitted_down hdown
  rw [if_pos hnone, if_pos ⟨rfl, rfl⟩] at he
  rcases List.mem_append.1 he with he | he
  swap
  · exact mem_recordDeficit hnone he hb
  by_cases hlisted : e.triple r.issuer ∈ a.ledger.manifest.deficit
  · exact mem_recordDeficit_of_mem _ hlisted
  -- Not listed, so the flag was up before and this manifest lowers it.
  have hup : overflowed a.ledger.manifest r.issuer = true := by
    by_contra hflag
    exact hlisted (h (by simpa using hflag) e he hb)
  have hrowup : row.overflowed = true := by
    unfold overflowed at hup
    rw [if_neg (by simp [hm]), hrow] at hup
    exact hup
  have hlowers : Lowers a.ledger r := by
    refine ⟨hup, fun row' hrow' => ?_, unlisted_fits r.nodup_triples ?_ hnone⟩
    · obtain rfl : row = row' := Option.some.inj (hrow.symm.trans hrow')
      exact hseen hrowup
    · simp only [stateSound, Bool.and_eq_true, decide_eq_true_eq] at hm
      exact hm.2
  obtain ⟨e', he', htriple, hb'⟩ := hr rfl hlowers e he hb hlisted
  rw [← htriple]
  exact mem_recordDeficit hnone he' hb'

end Run

/-- **The flag can be trusted along a run** in which every manifest that lowers it names
again what is missing: from any ledger, with no manifest recorded yet. -/
theorem overflow_trustworthy {issuer : Key} {l : Ledger} {events : List LedgerEvent}
    (hrun : ∀ pre event, pre ++ [event] <+: events →
      event.Renames issuer ((Audit.mk l []).run issuer pre)) :
    Trustworthy issuer ((Audit.mk l []).run issuer events) := by
  refine Lib.foldl_induction (P := Trustworthy issuer) (fun pre event hle h => ?_)
    fun _ e he => absurd he List.not_mem_nil
  have hr := hrun pre event hle
  cases event with
  | revoke offer root sign hash passed => exact h.revoke hr
  | manifest r sign => exact h.manifest hr

/-- Key `1` revokes `grantee`, its signature being the record's id. -/
def revokeOf (grantee : Key) (signature : Sig) : RevocationOffer :=
  ⟨revocationBy 1 grantee 0 0 0 signature, []⟩

/-- Key `1` takes back its revocation `19` of `9`. -/
def restoreOf9 : RevocationOffer := ⟨withdrawalBy 1 9 19 0 29 (by decide), []⟩

/-- Key `1`'s own store, behind the records it issued. -/
def issuerStore (offers : List RevocationOffer) : RevocationStore :=
  mergedStore (emptyStore 2) 1 acceptingSign tailHash none offers

/-- A manifest of key `1`: `8` is revoked, and `9` revoked or taken back. -/
def twoPairManifest (restored : Bool) : ManifestRecord where
  issuer := 1
  entries := [⟨⟨7⟩, 8, 18, false⟩, ⟨⟨7⟩, 9, 19, restored⟩]
  signature := 0
  ascending := by cases restored <;> decide
  bounded := by cases restored <;> decide

/-- A host that follows key `1`, with room in its deficit table for one pair. -/
def narrowHost : Ledger := ⟨emptyStore 2, ⟨[⟨1, 0, false⟩], 1, [], 1⟩⟩

/-- The record arrives. -/
def arrives (offer : RevocationOffer) : LedgerEvent := .revoke offer 1 acceptingSign tailHash true

/-- The manifest is admitted. -/
def manifestArrives (restored : Bool) : LedgerEvent :=
  .manifest (twoPairManifest restored) acceptingSign

instance (issuer : Key) (a : Audit) : Decidable (Trustworthy issuer a) :=
  inferInstanceAs (Decidable (_ → _))

instance (l : Ledger) (r : ManifestRecord) : Decidable (Lowers l r) :=
  inferInstanceAs (Decidable (_ ∧ _))

instance (issuer : Key) (a : Audit) : (event : LedgerEvent) → Decidable (event.Renames issuer a)
  | .revoke _ _ _ _ _ => inferInstanceAs (Decidable (_ → _))
  | .manifest _ _ => inferInstanceAs (Decidable (_ → _))

/-- The hypotheses are satisfiable: a manifest overflows the table, a record arrives and
makes room, and the same manifest lowers the flag. -/
theorem overflow_trustworthy_narrowHost :
    overflowed (narrowHost.run [arrives (revokeOf 9 19), manifestArrives true]).manifest 1 = true ∧
    Trustworthy 1 ((Audit.mk narrowHost []).run 1
      [arrives (revokeOf 9 19), manifestArrives true, arrives (revokeOf 8 18),
        manifestArrives true]) := by
  refine ⟨by decide +kernel, overflow_trustworthy (Lib.forall_prefix ?_)⟩
  decide +kernel

/-- **An older manifest of the same size lowers the flag.**  Both manifests are the
issuer's own.  The newer finds the host behind about `8` and `9`, with room for `8`
alone; the older, replayed, finds it behind about `8` alone, which is listed. -/
theorem not_trustworthy_narrowHost :
    manifestIssue 1 (some (issuerStore [revokeOf 8 18, revokeOf 9 19])) acceptingSign 1000 =
      .ok (twoPairManifest false) ∧
    manifestIssue 1 (some (issuerStore [revokeOf 8 18, revokeOf 9 19, restoreOf9])) acceptingSign
      1000 = .ok (twoPairManifest true) ∧
    ¬Trustworthy 1 ((Audit.mk narrowHost []).run 1
      [arrives (revokeOf 9 19), manifestArrives true, manifestArrives false]) :=
  ⟨by decide +kernel, by decide +kernel, by decide +kernel⟩

end Chain
end Fuzznet
