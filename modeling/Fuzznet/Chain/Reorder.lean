/-
# A history delivered out of order

`chain/revocation.c`, `fzn_revocation_admit`, and `chain/revocation.h`,
`FZN_REV_OFF_SUPERSEDES`: what one issuer says about one pair is a chain,
revocation, withdrawal, revocation, and so on, each revocation naming the one
before it.  Records arrive in any order, more than once or never.

Once the entry is the last revocation, live, no record of the history moves it
(`History.ends_place`).  The last revocation gets there from an empty triple,
from any withdrawn entry, and over the live entry it names; over a live entry
further back the call answers OK and stores nothing, and the withdrawal of that
older entry still applies.  So the pair stays revoked when the acknowledged call
met none of those (`History.covers_of_last_stored`).
-/

import Fuzznet.Chain.Admit

namespace Fuzznet
namespace Chain

open Wire

/-- A well-formed history of one issuer about one pair: revocations `0` to `last`,
each but the first naming the one before it, and a withdrawal of each but the
last, in its epoch.  The hash tells the revocations apart, and none of them is
the all-zero id that names nothing. -/
structure History (hash : HashOps) where
  triple : Triple
  last : ℕ
  rev : ℕ → RevocationRecord
  wd : ℕ → RevocationRecord
  id : ℕ → RecId
  rev_triple : ∀ i ≤ last, (rev i).triple = triple
  wd_triple : ∀ i < last, (wd i).triple = triple
  rev_revokes : ∀ i ≤ last, (rev i).withdrawal = false
  wd_withdraws : ∀ i < last, (wd i).withdrawal = true
  hashed : ∀ i ≤ last, hash.hash (rev i).bytes = some (id i)
  first : (rev 0).supersedes = 0
  chained : ∀ i < last, (rev (i + 1)).supersedes = id i
  undoes : ∀ i < last, (wd i).supersedes = id i
  sameEpoch : ∀ i < last, (wd i).epoch = (rev i).epoch
  distinct : ∀ i ≤ last, ∀ j ≤ last, id i = id j → i = j
  nonzero : ∀ i ≤ last, id i ≠ 0

namespace History

variable {hash : HashOps} (h : History hash)

/-- A record of the history. -/
def Signed (r : RevocationRecord) : Prop :=
  (∃ i ≤ h.last, r = h.rev i) ∨ ∃ i < h.last, r = h.wd i

/-- An offer a delivery may hold: a record of the history, or one about another
triple. -/
def Delivered (o : RevocationOffer) : Prop :=
  h.Signed o.record ∨ o.record.triple ≠ h.triple

/-- The entry is of the history: it has the id of one of its revocations, and is
withdrawn only if that one is. -/
def Fits (old : Option Revocation) : Prop :=
  ∀ e ∈ old, ∃ i ≤ h.last, e.id = h.id i ∧ (e.withdrawn = true → i < h.last)

/-- The entry is the last revocation, live. -/
def Ends (old : Option Revocation) : Prop :=
  ∃ e, old = some e ∧ e.id = h.id h.last ∧ e.withdrawn = false

/-- A live entry is the last revocation, or the one it names: no older one. -/
def Recent (old : Option Revocation) : Prop :=
  ∀ e ∈ old, e.withdrawn = false → e.id = h.id h.last ∨ e.id = (h.rev h.last).supersedes

variable {h}

/-- A revocation of the history, and the id its hash gives it. -/
theorem Signed.revocation {r : RevocationRecord} {id : RecId} (hr : h.Signed r)
    (hw : r.withdrawal = false) (hid : hash.hash r.bytes = some id) :
    ∃ i ≤ h.last, r = h.rev i ∧ id = h.id i := by
  rcases hr with ⟨i, hi, rfl⟩ | ⟨i, hi, rfl⟩
  · exact ⟨i, hi, rfl, Option.some.inj (hid.symm.trans (h.hashed i hi))⟩
  · exact absurd (h.wd_withdraws i hi) (by simp [hw])

/-- A withdrawal of the history names a revocation that is not the last. -/
theorem Signed.withdrawal {r : RevocationRecord} (hr : h.Signed r) (hw : r.withdrawal = true) :
    ∃ i < h.last, r.supersedes = h.id i := by
  rcases hr with ⟨i, hi, rfl⟩ | ⟨i, hi, rfl⟩
  · exact absurd (h.rev_revokes i hi) (by simp [hw])
  · exact ⟨i, hi, h.undoes i hi⟩

/-- No revocation of the history names the last. -/
theorem supersedes_ne_last {i : ℕ} (hi : i ≤ h.last) : (h.rev i).supersedes ≠ h.id h.last := by
  intro heq
  cases i with
  | zero => exact h.nonzero h.last le_rfl (heq.symm.trans h.first)
  | succ i =>
    have hlast : i = h.last :=
      h.distinct i (by omega) h.last le_rfl ((h.chained i (by omega)).symm.trans heq)
    omega

/-! ### One admission -/

variable {r : RevocationRecord} {id : RecId} {old : Option Revocation} {room : Bool}

/-- **The entry stays one of the history.** -/
theorem fits_place (hr : h.Signed r) (hid : hash.hash r.bytes = some id) (hold : h.Fits old) :
    h.Fits ((place old r id room).entry.or old) := by
  have hc := place_cases old r id room
  generalize place old r id room = p at hc
  cases hc with
  | full _ => exact hold
  | first _ =>
    rintro e ⟨⟩
    cases hw : r.withdrawal with
    | true =>
      obtain ⟨i, hi, hs⟩ := hr.withdrawal hw
      exact ⟨i, hi.le, by simpa [RevocationRecord.entry, hw] using hs, fun _ => hi⟩
    | false =>
      obtain ⟨i, hi, -, rfl⟩ := hr.revocation hw hid
      exact ⟨i, hi, by simp [RevocationRecord.entry, hw],
        fun hew => absurd hew (by simp [RevocationRecord.entry, hw])⟩
  | mismatch _ _ => exact hold
  | withdraw hw hname _ =>
    rintro e ⟨⟩
    obtain ⟨i, hi, hs⟩ := hr.withdrawal hw
    exact ⟨i, hi.le, hname.trans hs, fun _ => hi⟩
  | stale _ _ _ => exact hold
  | unchained _ _ _ _ => exact hold
  | rerevoke hw _ _ _ =>
    rintro e ⟨⟩
    obtain ⟨i, hi, -, rfl⟩ := hr.revocation hw hid
    exact ⟨i, hi, rfl, fun hew => absurd hew (by simp)⟩
  | reissue hw hew _ _ =>
    rintro e ⟨⟩
    obtain ⟨i, hi, -, rfl⟩ := hr.revocation hw hid
    exact ⟨i, hi, rfl, fun hew' => absurd hew' (by simp [hew])⟩
  | known _ _ _ => exact hold

/-- **Once the entry is the last revocation it stays so**, whatever of the history
is offered behind it. -/
theorem ends_place (hr : h.Signed r) (hid : hash.hash r.bytes = some id) (hold : h.Ends old) :
    h.Ends ((place old r id room).entry.or old) := by
  obtain ⟨e, rfl, heid, hew⟩ := hold
  have hc := place_cases (some e) r id room
  generalize place (some e) r id room = p at hc
  cases hc with
  | mismatch _ _ => exact ⟨e, rfl, heid, hew⟩
  | withdraw hw hname _ =>
    obtain ⟨i, hi, hs⟩ := hr.withdrawal hw
    have hlast : h.last = i :=
      h.distinct _ le_rfl i hi.le (heid.symm.trans (hname.trans hs))
    omega
  | stale _ hew' _ => exact absurd hew' (by simp [hew])
  | unchained _ hew' _ _ => exact absurd hew' (by simp [hew])
  | rerevoke _ hew' _ _ => exact absurd hew' (by simp [hew])
  | reissue hw _ _ hs =>
    obtain ⟨i, hi, rfl, -⟩ := hr.revocation hw hid
    exact absurd (hs.trans heid) (supersedes_ne_last hi)
  | known _ _ _ => exact ⟨e, rfl, heid, hew⟩

/-- **The last revocation is stored**, if the call that offers it answers OK and
met no live entry older than the one it names. -/
theorem ends_place_last (hold : h.Fits old) (hrecent : h.Recent old)
    (hok : (place old (h.rev h.last) (h.id h.last) room).err = .ok) :
    h.Ends ((place old (h.rev h.last) (h.id h.last) room).entry.or old) := by
  have hrev := h.rev_revokes h.last le_rfl
  have hc := place_cases old (h.rev h.last) (h.id h.last) room
  generalize place old (h.rev h.last) (h.id h.last) room = p at hc hok
  cases hc with
  | full _ => simp at hok
  | first _ => exact ⟨_, rfl, by simp [RevocationRecord.entry, hrev],
      by simp [RevocationRecord.entry, hrev]⟩
  | mismatch hw _ => exact absurd hw (by simp [hrev])
  | withdraw hw _ _ => exact absurd hw (by simp [hrev])
  | @stale e _ hew hid =>
    -- The last revocation has no withdrawal in the history.
    obtain ⟨i, hi, heid, hlt⟩ := hold e rfl
    have hlast : h.last = i := h.distinct _ le_rfl i hi (hid.trans heid)
    have := hlt hew
    omega
  | unchained _ _ _ _ => simp at hok
  | rerevoke _ _ _ _ => exact ⟨_, rfl, rfl, rfl⟩
  | reissue _ hew _ _ => exact ⟨_, rfl, rfl, hew⟩
  | @known e _ hew hk =>
    refine ⟨e, rfl, ?_, hew⟩
    rcases hrecent e rfl hew with heid | heid
    · exact heid
    · rcases hk with hk | hk
      · exact hk.symm
      · exact absurd heid.symm hk

/-! ### The delivery -/

variable {s : RevocationStore} {root : Key} {sign : SignOps} {m : Option ManifestState}

/-- An admission of the delivery keeps what a placement of a record of the history
keeps of the entry. -/
theorem Delivered.findEntry {P : Option Revocation → Prop} {o : RevocationOffer}
    (ho : h.Delivered o)
    (hplace : ∀ old id room, h.Signed o.record → hash.hash o.record.bytes = some id → P old →
      P ((place old o.record id room).entry.or old))
    (hs : P (findEntry s h.triple)) :
    P (Chain.findEntry (revocationAdmit s o root sign hash m).2.1 h.triple) := by
  rcases findEntry_revocationAdmit (s := s) o root sign hash m h.triple with
    ⟨heq, -⟩ | ⟨id, room, hid, ht, -, heq⟩
  · rw [heq]
    exact hs
  · rcases ho with hr | hne
    · rw [heq]
      exact hplace _ _ _ hr hid hs
    · exact absurd ht.symm hne

/-- **An acknowledged revocation stays, whatever order the history came in.**  If a
call that offers the last revocation answers OK, and the triple's entry before it
is absent, withdrawn, the last revocation or the one the last revocation names,
then behind the whole delivery the pair is revoked. -/
theorem covers_of_last_stored {pre post : List RevocationOffer} {o : RevocationOffer}
    (hs : h.Fits (findEntry s h.triple)) (hpre : ∀ x ∈ pre, h.Delivered x)
    (hpost : ∀ x ∈ post, h.Delivered x) (ho : o.record = h.rev h.last)
    (hok : (revocationAdmit (mergedStore s root sign hash m pre) o root sign hash
      (mergedManifest s root sign hash m pre)).1 = .ok)
    (hrecent : h.Recent (findEntry (mergedStore s root sign hash m pre) h.triple)) :
    covers (mergedStore s root sign hash m (pre ++ o :: post)) h.triple.issuer h.triple.capability
      h.triple.grantee = true := by
  have hfits : h.Fits (findEntry (mergedStore s root sign hash m pre) h.triple) :=
    mergedStore_induction (P := fun s => h.Fits (findEntry s h.triple))
      (fun x hx _ _ _ => (hpre x hx).findEntry fun _ _ _ hr hid => fits_place hr hid) hs
  have hends : h.Ends (findEntry (revocationAdmit (mergedStore s root sign hash m pre) o root sign
      hash (mergedManifest s root sign hash m pre)).2.1 h.triple) := by
    have ht : h.triple = o.record.triple := by rw [ho, h.rev_triple _ le_rfl]
    rcases findEntry_revocationAdmit (s := mergedStore s root sign hash m pre) o root sign hash
      (mergedManifest s root sign hash m pre) h.triple with ⟨-, hne⟩ | ⟨id, room, hid, -, herr, heq⟩
    · exact absurd ht (hne hok)
    · rw [ho, h.hashed _ le_rfl] at hid
      obtain rfl := Option.some.inj hid
      rw [heq, ho]
      rw [hok, ho] at herr
      exact ends_place_last hfits hrecent herr.symm
  have hall : h.Ends (findEntry (mergedStore s root sign hash m (pre ++ o :: post)) h.triple) := by
    rw [mergedStore_append, mergedStore_cons]
    exact mergedStore_induction (P := fun s => h.Ends (findEntry s h.triple))
      (fun x hx _ _ _ => (hpost x hx).findEntry fun _ _ _ hr hid => ends_place hr hid) hends
  obtain ⟨e, he, -, hew⟩ := hall
  unfold covers
  split_ifs
  · rfl
  · simp [he, hew]

end History

theorem tailHash_three : tailHash.hash (revocationBy 1 3 0 0 0 30).bytes = some 30 ∧
    tailHash.hash (revocationBy 1 3 30 0 0 31).bytes = some 31 ∧
    tailHash.hash (revocationBy 1 3 31 0 0 32).bytes = some 32 := by
  decide +kernel

/-- The root `1` revokes `(7, 3)` three times, withdrawing twice in between; the ids
are `30`, `31` and `32`. -/
def threeRevocations : History tailHash where
  triple := ⟨1, ⟨7⟩, 3⟩
  last := 2
  rev
    | 0 => revocationBy 1 3 0 0 0 30
    | 1 => revocationBy 1 3 30 0 0 31
    | _ => revocationBy 1 3 31 0 0 32
  wd
    | 0 => withdrawalBy 1 3 30 0 40 (by decide)
    | _ => withdrawalBy 1 3 31 0 41 (by decide)
  id
    | 0 => 30
    | 1 => 31
    | _ => 32
  rev_triple := by decide
  wd_triple := by decide
  rev_revokes := by decide
  wd_withdraws := by decide
  hashed := by
    rintro (_ | _ | _ | i) hi
    · simpa only using tailHash_three.1
    · simpa only using tailHash_three.2.1
    · simpa only using tailHash_three.2.2
    · exact absurd (Nat.le_of_succ_le_succ (Nat.le_of_succ_le_succ hi)) (Nat.not_succ_le_zero i)
  first := rfl
  chained := by decide
  undoes := by decide
  sameEpoch := by decide
  distinct := by decide
  nonzero := by decide

/-- The root's own record, which needs no chain. -/
def RevocationRecord.offered (r : RevocationRecord) : RevocationOffer := ⟨r, []⟩

/-- The hypotheses are satisfiable: the last revocation over the withdrawal of the
first, then the second and its withdrawal. -/
theorem covers_threeRevocations :
    covers (mergedStore (emptyStore 1) 1 acceptingSign tailHash none
      ([(threeRevocations.wd 0).offered] ++ (threeRevocations.rev 2).offered ::
        [(threeRevocations.rev 1).offered, (threeRevocations.wd 1).offered])) 1 ⟨7⟩ 3 = true := by
  refine History.covers_of_last_stored (h := threeRevocations) nofun ?_ ?_ rfl
    (by decide +kernel) fun e he hew => ?_
  · intro x hx
    rcases List.mem_singleton.1 hx with rfl
    exact Or.inl (Or.inr ⟨0, by decide, rfl⟩)
  · intro x hx
    rcases List.mem_pair.1 hx with rfl | rfl
    · exact Or.inl (Or.inl ⟨1, by decide, rfl⟩)
    · exact Or.inl (Or.inr ⟨1, by decide, rfl⟩)
  · have hwithdrawn : (findEntry (mergedStore (emptyStore 1) 1 acceptingSign tailHash none
        [(threeRevocations.wd 0).offered]) threeRevocations.triple).map Revocation.withdrawn =
        some true := by decide +kernel
    rw [Option.mem_def.1 he, Option.map_some, hew] at hwithdrawn
    simp at hwithdrawn

/-- **An acknowledged revocation is lost:** over the live first revocation the third
answers OK and is dropped, and the first's withdrawal then frees the pair. -/
theorem not_covers_threeRevocations :
    (revocationAdmit (mergedStore (emptyStore 1) 1 acceptingSign tailHash none
        [(threeRevocations.rev 0).offered]) (threeRevocations.rev 2).offered 1 acceptingSign tailHash
      none).1 = .ok ∧
    covers (mergedStore (emptyStore 1) 1 acceptingSign tailHash none
      [(threeRevocations.rev 0).offered, (threeRevocations.rev 2).offered,
        (threeRevocations.wd 0).offered]) 1 ⟨7⟩ 3 = false :=
  ⟨by decide +kernel, by decide +kernel⟩

end Chain
end Fuzznet
