/-
# What a manifest leaves in the deficit table

`chain/manifest.c`: the loop of `fzn_manifest_admit`, `fzn_manifest_satisfy` and
`fzn_manifest_pending`.

An admission adds pairs of its own issuer at the end of the table, each of them one
the host is behind about; it drops what finds no room, and says so.  A pair leaves
the table only when its own triple is satisfied.
-/

import Fuzznet.Chain.Admit

namespace Fuzznet
namespace Chain

open Wire

/-! ### The loop -/

section Loop

variable {s : Option RevocationStore} {issuer : Key} {capacity : ℕ}
variable {d : List Triple} {e : ManifestEntry} {issuer : Key}

/-- One pair the host is not behind about, or that is listed already. -/
theorem recordDeficit_skip (es : List ManifestEntry)
    (h : behind s issuer e = false ∨ e.triple issuer ∈ d) :
    recordDeficit s issuer capacity (e :: es) d = recordDeficit s issuer capacity es d := by
  rw [recordDeficit, if_pos h]

/-- One pair that finds no room. -/
theorem recordDeficit_drop (es : List ManifestEntry)
    (h : ¬(behind s issuer e = false ∨ e.triple issuer ∈ d)) (hfull : capacity ≤ d.length) :
    recordDeficit s issuer capacity (e :: es) d =
      ((recordDeficit s issuer capacity es d).1, (recordDeficit s issuer capacity es d).2 + 1) := by
  rw [recordDeficit, if_neg h, if_pos hfull]

/-- One pair that is listed. -/
theorem recordDeficit_list (es : List ManifestEntry)
    (h : ¬(behind s issuer e = false ∨ e.triple issuer ∈ d)) (hroom : ¬capacity ≤ d.length) :
    recordDeficit s issuer capacity (e :: es) d =
      recordDeficit s issuer capacity es (d ++ [e.triple issuer]) := by
  rw [recordDeficit, if_neg h, if_neg hroom]

/-- **The loop lists at the end pairs of the issuer's that the host is behind about.** -/
theorem recordDeficit_new (s : Option RevocationStore) (issuer : Key) (capacity : ℕ)
    (es : List ManifestEntry) (d : List Triple) :
    ∃ new, (recordDeficit s issuer capacity es d).1 = d ++ new ∧
      ∀ t ∈ new, ∃ e ∈ es, behind s issuer e = true ∧ t = e.triple issuer := by
  induction es generalizing d with
  | nil => exact ⟨[], by simp [recordDeficit], nofun⟩
  | cons e es ih =>
    by_cases h : behind s issuer e = false ∨ e.triple issuer ∈ d
    · obtain ⟨new, heq, hnew⟩ := ih d
      rw [recordDeficit_skip es h]
      refine ⟨new, heq, fun t ht => ?_⟩
      obtain ⟨c, hc, hrest⟩ := hnew t ht
      exact ⟨c, List.mem_cons_of_mem _ hc, hrest⟩
    · by_cases hfull : capacity ≤ d.length
      · obtain ⟨new, heq, hnew⟩ := ih d
        rw [recordDeficit_drop es h hfull]
        refine ⟨new, heq, fun t ht => ?_⟩
        obtain ⟨c, hc, hrest⟩ := hnew t ht
        exact ⟨c, List.mem_cons_of_mem _ hc, hrest⟩
      · obtain ⟨new, heq, hnew⟩ := ih (d ++ [e.triple issuer])
        rw [recordDeficit_list es h hfull]
        refine ⟨e.triple issuer :: new, by rw [heq, List.append_assoc]; rfl, fun t ht => ?_⟩
        rcases List.mem_cons.1 ht with rfl | ht
        · push Not at h
          exact ⟨e, List.mem_cons_self, by simpa using h.1, rfl⟩
        · obtain ⟨c, hc, hrest⟩ := hnew t ht
          exact ⟨c, List.mem_cons_of_mem _ hc, hrest⟩

theorem mem_recordDeficit_of_mem (es : List ManifestEntry) {t : Triple} (ht : t ∈ d) :
    t ∈ (recordDeficit s issuer capacity es d).1 := by
  obtain ⟨new, heq, -⟩ := recordDeficit_new s issuer capacity es d
  rw [heq]
  exact List.mem_append_left _ ht

/-- The table keeps its bound. -/
theorem length_recordDeficit_le (es : List ManifestEntry) (hd : d.length ≤ capacity) :
    (recordDeficit s issuer capacity es d).1.length ≤ capacity := by
  induction es generalizing d with
  | nil => exact hd
  | cons e es ih =>
    by_cases h : behind s issuer e = false ∨ e.triple issuer ∈ d
    · rw [recordDeficit_skip es h]
      exact ih hd
    · by_cases hfull : capacity ≤ d.length
      · rw [recordDeficit_drop es h hfull]
        exact ih hd
      · rw [recordDeficit_list es h hfull]
        refine ih ?_
        rw [List.length_append, List.length_singleton]
        omega

/-- A full table takes nothing more. -/
theorem recordDeficit_full (es : List ManifestEntry) (hfull : capacity ≤ d.length) :
    (recordDeficit s issuer capacity es d).1 = d := by
  induction es with
  | nil => rfl
  | cons e es ih =>
    by_cases h : behind s issuer e = false ∨ e.triple issuer ∈ d
    · rw [recordDeficit_skip es h, ih]
    · rw [recordDeficit_drop es h hfull, ih]

/-- **A manifest that dropped nothing listed every pair the host is behind about.** -/
theorem mem_recordDeficit {es : List ManifestEntry}
    (hnone : (recordDeficit s issuer capacity es d).2 = 0) (he : e ∈ es)
    (hb : behind s issuer e = true) :
    e.triple issuer ∈ (recordDeficit s issuer capacity es d).1 := by
  induction es generalizing d with
  | nil => simp at he
  | cons c es ih =>
    by_cases h : behind s issuer c = false ∨ c.triple issuer ∈ d
    · rw [recordDeficit_skip es h] at hnone ⊢
      rcases List.mem_cons.1 he with rfl | he
      · refine mem_recordDeficit_of_mem es ?_
        rcases h with h | h
        · exact absurd hb (by simp [h])
        · exact h
      · exact ih hnone he
    · by_cases hfull : capacity ≤ d.length
      · rw [recordDeficit_drop es h hfull] at hnone
        simp at hnone
      · rw [recordDeficit_list es h hfull] at hnone ⊢
        rcases List.mem_cons.1 he with rfl | he
        · exact mem_recordDeficit_of_mem es (by simp)
        · exact ih hnone he

end Loop

/-! ### An admission -/

section Admission

variable {m : ManifestState} {s : Option RevocationStore} {r : ManifestRecord} {sign : SignOps}

/-- The manifest is listened to: its issuer is followed, and signed it. -/
def Heeded (m : ManifestState) (r : ManifestRecord) (sign : SignOps) : Prop :=
  (findIssuer m r.issuer).isSome = true ∧ sign.verify r.issuer r.signedBytes r.signature = true

/-- **What an admission of a manifest can do:** refuse and leave the state, or record
the deficit of a manifest that is heeded. -/
theorem manifestAdmit_cases (m : ManifestState) (s : Option RevocationStore) (r : ManifestRecord)
    (sign : SignOps) :
    ((manifestAdmit m s r sign).2 = m ∧ (manifestAdmit m s r sign).1.recorded = false) ∨
      ∃ row, stateSound m = true ∧ Heeded m r sign ∧ findIssuer m r.issuer = some row ∧
        (s.any fun s => !storeSound s) = false ∧
        manifestAdmit m s r sign =
          (if (recordDeficit s r.issuer m.deficitCapacity r.entries m.deficit).2 = 0 then .ok
            else .deficitFull,
          m.recorded row r.entries.length
            (recordDeficit s r.issuer m.deficitCapacity r.entries m.deficit)) := by
  unfold manifestAdmit
  by_cases hsound : stateSound m = false
  · rw [if_pos hsound]
    exact Or.inl ⟨rfl, rfl⟩
  rw [if_neg hsound]
  cases hrow : findIssuer m r.issuer with
  | none => exact Or.inl ⟨rfl, rfl⟩
  | some row =>
    simp only
    by_cases hstore : (s.any fun s => !storeSound s) = true
    · rw [if_pos hstore]
      exact Or.inl ⟨rfl, rfl⟩
    rw [if_neg hstore]
    by_cases hsig : sign.verify r.issuer r.signedBytes r.signature = false
    · rw [if_pos hsig]
      exact Or.inl ⟨rfl, rfl⟩
    rw [if_neg hsig]
    exact Or.inr ⟨row, by simpa using hsound, ⟨by simp [hrow], by simpa using hsig⟩, rfl,
      by simpa using hstore, rfl⟩

theorem findIssuer_issuer {row : ManifestIssuer} (h : findIssuer m issuer = some row) :
    row.issuer = issuer :=
  Lib.row_key h

theorem ManifestIssuer.admitted_issuer (row : ManifestIssuer) (count dropped : ℕ) :
    (row.admitted count dropped).issuer = row.issuer := by
  unfold ManifestIssuer.admitted
  split_ifs
  · rfl
  · rfl

/-- The state an admission leaves is sound if it was. -/
theorem stateSound_recorded {row : ManifestIssuer} {count : ℕ} {d : List Triple × ℕ}
    (hm : stateSound m = true) (hrow : findIssuer m issuer = some row)
    (hd : d.1.length ≤ m.deficitCapacity) : stateSound (m.recorded row count d) = true := by
  have hkey : Lib.row ManifestIssuer.issuer (row.admitted count d.2).issuer m.issuers = some row := by
    rw [ManifestIssuer.admitted_issuer, findIssuer_issuer hrow]
    exact hrow
  simp only [stateSound, Bool.and_eq_true, decide_eq_true_eq] at hm
  simp [stateSound, ManifestState.recorded, Lib.length_writeRow hkey, hm.1, hd]

theorem stateSound_manifestAdmit (hm : stateSound m = true) :
    stateSound (manifestAdmit m s r sign).2 = true := by
  rcases manifestAdmit_cases m s r sign with ⟨heq, -⟩ | ⟨row, -, -, hrow, -, heq⟩
  · rw [heq]
    exact hm
  · rw [heq]
    refine stateSound_recorded hm hrow (length_recordDeficit_le _ ?_)
    simp only [stateSound, Bool.and_eq_true, decide_eq_true_eq] at hm
    exact hm.2

/-- **Another issuer's deficit does not move.** -/
theorem pending_manifestAdmit_ne (hne : issuer ≠ r.issuer) :
    pending (manifestAdmit m s r sign).2 issuer = pending m issuer := by
  rcases manifestAdmit_cases m s r sign with ⟨heq, -⟩ | ⟨row, hm, -, -, -, heq⟩
  · rw [heq]
  · obtain ⟨new, hd, hnew⟩ := recordDeficit_new s r.issuer m.deficitCapacity r.entries m.deficit
    have hsound : stateSound (manifestAdmit m s r sign).2 = true := stateSound_manifestAdmit hm
    have hzero : new.countP (fun d => d.issuer = issuer) = 0 := by
      refine List.countP_eq_zero.2 fun t ht => ?_
      obtain ⟨e, -, -, rfl⟩ := hnew t ht
      simp [ManifestEntry.triple, hne.symm]
    have hdeficit : (manifestAdmit m s r sign).2.deficit = m.deficit ++ new := by
      rw [heq]
      exact hd
    unfold pending
    rw [hsound, hm, hdeficit, List.countP_append, hzero, Nat.add_zero]

/-- **Where a heeded manifest finds the host nowhere behind, or the table full, no
deficit moves.** -/
theorem pending_manifestAdmit_eq
    (h : Heeded m r sign → (∀ e ∈ r.entries, behind s r.issuer e = false) ∨
      m.deficitCapacity ≤ m.deficit.length) (issuer : Key) :
    pending (manifestAdmit m s r sign).2 issuer = pending m issuer := by
  rcases manifestAdmit_cases m s r sign with ⟨heq, -⟩ | ⟨row, hm, hheed, -, -, heq⟩
  · rw [heq]
  · have hsound : stateSound (manifestAdmit m s r sign).2 = true := stateSound_manifestAdmit hm
    have hdeficit : (manifestAdmit m s r sign).2.deficit = m.deficit := by
      rw [heq]
      show (recordDeficit s r.issuer m.deficitCapacity r.entries m.deficit).1 = m.deficit
      rcases h hheed with hnone | hfull
      · obtain ⟨new, hd, hnew⟩ := recordDeficit_new s r.issuer m.deficitCapacity r.entries m.deficit
        have hnil : new = [] := by
          refine List.eq_nil_iff_forall_not_mem.2 fun t ht => ?_
          obtain ⟨e, he, hb, -⟩ := hnew t ht
          exact absurd hb (by simp [hnone e he])
        rw [hd, hnil, List.append_nil]
      · exact recordDeficit_full _ hfull
    unfold pending
    rw [hsound, hm, hdeficit]

/-! ### Satisfying a triple -/

theorem stateSound_satisfy (hm : stateSound m = true) (t : Triple) :
    stateSound (satisfy m t) = true := by
  unfold satisfy
  rw [if_neg (by simp [hm])]
  simp only [stateSound, Bool.and_eq_true, decide_eq_true_eq] at hm ⊢
  exact ⟨hm.1, (List.length_filter_le _ _).trans hm.2⟩

/-- A triple satisfied lengthens no deficit. -/
theorem pending_satisfy_le (t : Triple) (issuer : Key) : pending (satisfy m t) issuer ≤ pending m issuer := by
  by_cases hm : stateSound m = true
  · unfold pending
    rw [if_neg (by simp [stateSound_satisfy hm]), if_neg (by simp [hm])]
    unfold satisfy
    rw [if_neg (by simp [hm])]
    exact List.Sublist.countP_le (List.filter_sublist)
  · unfold satisfy
    rw [if_pos (by simpa using hm)]

/-- Every other triple stays listed. -/
theorem mem_satisfy {t t' : Triple} (hne : t' ≠ t) (ht : t' ∈ m.deficit) :
    t' ∈ (satisfy m t).deficit := by
  unfold satisfy
  split_ifs
  · exact ht
  · exact List.mem_filter.2 ⟨ht, by simpa using hne⟩

end Admission

/-! ### A store and a manifest state, side by side -/

/-- What a host keeps of other issuers: the revocation store and the manifest state. -/
structure Ledger where
  store : RevocationStore
  manifest : ManifestState

/-- A revocation is offered, with the manifest state passed or not, or a manifest is
admitted against the store. -/
inductive LedgerEvent
  | revoke (offer : RevocationOffer) (root : Key) (sign : SignOps) (hash : HashOps) (passed : Bool)
  | manifest (record : ManifestRecord) (sign : SignOps)

/-- The manifest state an admission is passed. -/
def Ledger.given (l : Ledger) (passed : Bool) : Option ManifestState :=
  if passed then some l.manifest else none

/-- The ledger behind a revocation. -/
def Ledger.revoke (l : Ledger) (offer : RevocationOffer) (root : Key) (sign : SignOps)
    (hash : HashOps) (passed : Bool) : Ledger where
  store := (revocationAdmit l.store offer root sign hash (l.given passed)).2.1
  manifest := (revocationAdmit l.store offer root sign hash (l.given passed)).2.2.getD l.manifest

/-- The ledger behind an event. -/
def Ledger.step (l : Ledger) : LedgerEvent → Ledger
  | .revoke offer root sign hash passed => l.revoke offer root sign hash passed
  | .manifest r sign => { l with manifest := (manifestAdmit l.manifest (some l.store) r sign).2 }

/-- The ledger behind a run. -/
def Ledger.run (l : Ledger) (events : List LedgerEvent) : Ledger := events.foldl Ledger.step l

/-- `fzn_revocation_admit` calls `fzn_manifest_satisfy` for the offer's triple: the
record passed the gate, and its placement drains. -/
def drains (s : RevocationStore) (offer : RevocationOffer) (root : Key) (sign : SignOps)
    (hash : HashOps) : Bool :=
  match admitGate s offer root sign hash with
  | (.ok, s') => decide (s'.entries.length ≤ s'.capacity) &&
      (hash.hash offer.record.bytes).any fun id => (placementOf s' offer.record id).drain
  | _ => false

theorem drains_of_gate_ok {s s₁ : RevocationStore} {offer : RevocationOffer} {root : Key}
    {sign : SignOps} {hash : HashOps} (hg : admitGate s offer root sign hash = (.ok, s₁)) :
    drains s offer root sign hash = (decide (s₁.entries.length ≤ s₁.capacity) &&
      (hash.hash offer.record.bytes).any fun id => (placementOf s₁ offer.record id).drain) := by
  rw [drains, hg]

theorem drains_of_gate_ne {s s₁ : RevocationStore} {err : ChainErr} {offer : RevocationOffer}
    {root : Key} {sign : SignOps} {hash : HashOps} (hne : err ≠ .ok)
    (hg : admitGate s offer root sign hash = (err, s₁)) :
    drains s offer root sign hash = false := by
  rw [drains, hg]
  cases err <;> first | rfl | exact absurd rfl hne

/-- The manifest state behind a revocation: the triple satisfied, where the offer drains
and the state is passed. -/
theorem Ledger.revoke_manifest (l : Ledger) (offer : RevocationOffer) (root : Key) (sign : SignOps)
    (hash : HashOps) (passed : Bool) :
    (l.revoke offer root sign hash passed).manifest =
      if passed = true ∧ drains l.store offer root sign hash = true then
        satisfy l.manifest offer.record.triple
      else l.manifest := by
  unfold Ledger.revoke
  cases hg : admitGate l.store offer root sign hash with
  | mk err s₁ =>
    by_cases herr : err = .ok
    swap
    · rw [revocationAdmit_of_gate_ne herr hg, drains_of_gate_ne herr hg]
      cases passed with
      | false => rfl
      | true => rfl
    subst herr
    rw [revocationAdmit_of_gate_ok hg, drains_of_gate_ok hg, admitRecord]
    by_cases hcap : s₁.capacity < s₁.entries.length
    · rw [if_pos hcap, decide_eq_false (by omega)]
      cases passed with
      | false => rfl
      | true => rfl
    rw [if_neg hcap, decide_eq_true (by omega)]
    cases hash.hash offer.record.bytes with
    | none =>
      cases passed with
      | false => rfl
      | true => rfl
    | some id =>
      by_cases hdrain : (placementOf s₁ offer.record id).drain = true
      · cases passed with
        | false => simp [Ledger.given, hdrain]
        | true => simp [Ledger.given, hdrain]
      · cases passed with
        | false => simp [Ledger.given, hdrain]
        | true => simp [Ledger.given, hdrain]

/-- **What a revocation does to the entries of a ledger:** nothing, and it drains
nothing; or its triple's entry is what the placement says. -/
theorem Ledger.revoke_cases (l : Ledger) (offer : RevocationOffer) (root : Key) (sign : SignOps)
    (hash : HashOps) (passed : Bool) :
    ((∀ t, findEntry (l.revoke offer root sign hash passed).store t = findEntry l.store t) ∧
        drains l.store offer root sign hash = false) ∨
      ∃ id room, hash.hash offer.record.bytes = some id ∧
        (revocationAdmit l.store offer root sign hash (l.given passed)).1 =
          (place (findEntry l.store offer.record.triple) offer.record id room).err ∧
        findEntry (l.revoke offer root sign hash passed).store offer.record.triple =
          (place (findEntry l.store offer.record.triple) offer.record id room).entry.or
            (findEntry l.store offer.record.triple) ∧
        (∀ t, t ≠ offer.record.triple →
          findEntry (l.revoke offer root sign hash passed).store t = findEntry l.store t) ∧
        drains l.store offer root sign hash =
          (place (findEntry l.store offer.record.triple) offer.record id room).drain := by
  unfold Ledger.revoke
  have hkept := keptAdmin_admitGate (s := l.store) offer root sign hash
  cases hg : admitGate l.store offer root sign hash with
  | mk err s₁ =>
    rw [hg] at hkept
    by_cases herr : err = .ok
    swap
    · rw [revocationAdmit_of_gate_ne herr hg]
      exact Or.inl ⟨hkept.findEntry_eq, drains_of_gate_ne herr hg⟩
    subst herr
    rw [revocationAdmit_of_gate_ok hg, drains_of_gate_ok hg, admitRecord]
    by_cases hcap : s₁.capacity < s₁.entries.length
    · rw [if_pos hcap, decide_eq_false (by omega)]
      exact Or.inl ⟨hkept.findEntry_eq, rfl⟩
    rw [if_neg hcap, decide_eq_true (by omega)]
    cases hash.hash offer.record.bytes with
    | none => exact Or.inl ⟨hkept.findEntry_eq, rfl⟩
    | some id =>
      right
      have hplace : placementOf s₁ offer.record id =
          place (findEntry l.store offer.record.triple) offer.record id
            (decide (s₁.entries.length < s₁.capacity)) := by
        rw [← hkept.findEntry_eq]
        rfl
      refine ⟨id, decide (s₁.entries.length < s₁.capacity), rfl, ?_, ?_, fun t ht => ?_, ?_⟩
      · rw [← hplace]
      · rw [← hplace, ← hkept.findEntry_eq]
        exact findEntry_placed_self offer.record id
      · rw [← hkept.findEntry_eq]
        exact findEntry_placed_ne ht
      · rw [← hplace]
        rfl

/-- A manifest of key `1` naming one pair, `(7, 9)`, as revoked by record `5`. -/
def onePairManifest : ManifestRecord where
  issuer := 1
  entries := [⟨⟨7⟩, 9, 5, false⟩]
  signature := 0
  ascending := by simp
  bounded := by decide

end Chain
end Fuzznet
