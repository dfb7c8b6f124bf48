/-
# The notes converge

Two hosts that take the notes of the same writers are offered the same records, each in
its own order and as often as it likes.  Where no writer signed two records of a note at
one sequence number, each keeps the latest of each claim (`Index`), which is a fact of the
set offered (`Lib.Latest`): one put moves the index from a set to the set with the record
in it (`index_put`), so both end with the same rows (`notes_converge`).

The room is part of it.  A store that holds as many claims as it takes refuses the next,
so which claims it holds is then a matter of the order (`notes_room_short`).

One put, on a disk whose loads answer, is `put_keeps`: no claim's sequence falls, no other
claim's row moves, and `*wrote` says whether the bytes stored changed.
-/

import Fuzznet.Lib.Latest
import Fuzznet.Lib.Runs
import Fuzznet.Notes.Store

namespace Fuzznet
namespace Notes

open Wire Record Lib
open Session (bytes32 bytes32_append_inj bytes32_inj)

/-- A claim: a note and a writer of it. -/
abbrev Claim := Bytes32 × Key

/-- The claim a record makes. -/
def claimOf (r : RecordView) : Claim := (recordSubject r, r.issuer)

/-- What is hashed for some claims. -/
def claimInputs (claims : Set Claim) : Set Bytes := {x | ∃ c ∈ claims, x = claimInput c.1 c.2}

theorem claimInput_inj {id id' issuer issuer' : Bytes32} :
    claimInput id issuer = claimInput id' issuer' ↔ id = id' ∧ issuer = issuer' := by
  unfold claimInput
  rw [List.append_assoc, List.append_assoc, List.append_right_inj, bytes32_append_inj,
    bytes32_inj]

/-- **Claims under one key are one claim**, the hash being injective on them. -/
theorem claimKey_inj {st : NotesStore} {claims : Set Claim} {c c' : Claim} {key : Bytes32}
    (hinj : st.hash.InjOn (claimInputs claims)) (hc : c ∈ claims) (hc' : c' ∈ claims)
    (hkey : claimKey st c.1 c.2 = some key) (hkey' : claimKey st c'.1 c'.2 = some key) :
    c = c' := by
  have hinput := hinj _ ⟨c, hc, rfl⟩ _ ⟨c', hc', rfl⟩ key hkey hkey'
  obtain ⟨hid, hissuer⟩ := claimInput_inj.1 hinput
  exact Prod.ext hid hissuer

/-! ## One put -/

section Put

variable {st : NotesStore} {policy : NotesPolicy} {sign : SignOps} {x : Bytes} {d : NotesDisk}

/-- The notes' rows are as they were. -/
def SameNotes (d d' : NotesDisk) : Prop := ∀ key, d'.load (.note, key) = d.load (.note, key)

/-- What one put keeps. -/
structure PutKeeps (st : NotesStore) (policy : NotesPolicy) (sign : SignOps) (x : Bytes)
    (d : NotesDisk) : Prop where
  rises : ∀ key held, loadKey d key = .ok held →
    ∃ held', loadKey (notesPut st policy sign x d).2 key = .ok held' ∧ held.seq ≤ held'.seq
  others : ∀ claims : Set Claim, st.hash.InjOn (claimInputs claims) → ∀ c ∈ claims,
    (∀ r, notesAdmit policy x sign = .ok r → claimOf r ∈ claims ∧ claimOf r ≠ c) →
    ∀ key, claimKey st c.1 c.2 = some key →
      (notesPut st policy sign x d).2.load (.note, key) = d.load (.note, key)
  wrote : Outcome.unanswered ∉ d.outcomes →
    ((notesPut st policy sign x d).1.wrote = true ↔
      ¬ SameNotes d (notesPut st policy sign x d).2)

variable {key : Bytes32} {p : PutAnswer × NotesDisk} {r : RecordView}

theorem loadKey_congr {d' : NotesDisk} (h : d'.load (.note, key) = d.load (.note, key)) :
    loadKey d' key = loadKey d key := by
  unfold loadKey
  rw [h]

theorem putWrite_disk (r : RecordView) (key : Bytes32) (d : NotesDisk) :
    (putWrite r key d).2 = (d.save (.note, key) (noteBlob r.bytes)).2 ∧
      (putWrite r key d).1.wrote = (d.save (.note, key) (noteBlob r.bytes)).1 := by
  unfold putWrite
  split
  · next h => exact ⟨rfl, h.symm⟩
  · next h => exact ⟨rfl, (Bool.eq_false_iff.2 h).symm⟩

theorem Unwritten.sameNotes (h : Unwritten d p) : SameNotes d p.2 := by
  intro key
  rw [Disk.load, h.2.1, Disk.load]

/-- A put that comes to its write changes no note's row but the record's. -/
theorem Written.load_ne (h : Written st r d p)
    (hne : claimKey st (recordSubject r) r.issuer ≠ some key) :
    p.2.load (.note, key) = d.load (.note, key) := by
  obtain ⟨key', d₁, hkey', -, hkept, rfl⟩ := h
  rw [(putWrite_disk r key' d₁).1, Disk.load_save_ne, hkept.other _ (by simp)]
  rintro heq
  obtain rfl := (Prod.mk.inj heq).2
  exact hne hkey'

/-- Where the record goes over another, that one's sequence number is lower. -/
theorem Written.rises (h : Written st r d p) {held : RecordView}
    (hheld : loadKey d key = .ok held) :
    ∃ held', loadKey p.2 key = .ok held' ∧ held.seq ≤ held'.seq := by
  by_cases hkey : claimKey st (recordSubject r) r.issuer = some key
  · obtain ⟨key', d₁, hkey', hlt, hkept, rfl⟩ := h
    obtain rfl := Option.some.inj (hkey'.symm.trans hkey)
    have hsame := loadKey_congr (hkept.other (.note, key') (by simp))
    rw [(putWrite_disk r key' d₁).1]
    rcases Disk.load_save_self d₁ (.note, key') (noteBlob r.bytes) with hself | ⟨-, hself⟩
    · exact ⟨r, loadKey_noteBlob hself, UInt64.le_of_lt (hlt held hheld)⟩
    · refine ⟨held, ?_, UInt64.le_refl _⟩
      rw [loadKey_congr hself, hsame, hheld]
  · exact ⟨held, (loadKey_congr (h.load_ne hkey)).trans hheld, UInt64.le_refl _⟩

theorem Written.wrote (h : Written st r d p) (hanswers : Outcome.unanswered ∉ d.outcomes) :
    p.1.wrote = true ↔ ¬ SameNotes d p.2 := by
  obtain ⟨key, d₁, hkey, hlt, hkept, rfl⟩ := h
  obtain ⟨hdisk, hwrote⟩ := putWrite_disk r key d₁
  have hother : ∀ k, d₁.load (.note, k) = d.load (.note, k) := fun k => hkept.other _ (by simp)
  rw [hwrote, hdisk]
  constructor
  · intro hsave hsame
    -- the row written is not the one that was there: that one is nothing, damage, or older
    have hrow := (hsame key).symm.trans (Disk.load_of_save hsave)
    exact absurd (hlt r (loadKey_noteBlob hrow)) (UInt64.lt_irrefl _)
  · intro hchanged
    rcases Disk.save_answer (k := (.note, key)) (b := noteBlob r.bytes)
      (fun hmem => hanswers (hkept.behind.subset hmem)) with hsave | hrows
    · exact hsave
    · refine absurd (fun k => ?_) hchanged
      rw [Disk.load, hrows, ← Disk.load, hother]

/-- **One put, whatever the disk's saves and listings do.**  No claim's sequence falls, no
other claim is touched, and where no save goes unanswered `*wrote` is whether the bytes
stored changed. -/
theorem put_keeps (st : NotesStore) (policy : NotesPolicy) (sign : SignOps) (x : Bytes)
    (d : NotesDisk) : PutKeeps st policy sign x d := by
  rcases notesPut_cases st policy sign x d with h | ⟨r, hadm, -, h⟩
  · refine ⟨fun key held hheld => ?_, fun _ _ _ _ _ key _ => h.sameNotes key, fun _ => ?_⟩
    · exact ⟨held, (loadKey_congr (h.sameNotes key)).trans hheld, UInt64.le_refl _⟩
    · rw [h.1]
      exact ⟨fun hfalse => absurd hfalse (by simp), fun hne => absurd h.sameNotes hne⟩
  · refine ⟨fun key held hheld => h.rises hheld, fun claims hinj c hc hne key hkey => ?_,
      fun hanswers => h.wrote hanswers⟩
    obtain ⟨hr, hrc⟩ := hne r hadm
    exact h.load_ne fun hkey' => hrc (claimKey_inj hinj hr hc hkey' hkey)

end Put

/-! ## The index -/

/-- What a host takes: records admitted, of notes not purged. -/
def Takes (policy : NotesPolicy) (sign : SignOps) (gone : Bytes32 → Bool) (r : RecordView) :
    Prop :=
  notesAdmit policy r.bytes sign = .ok r ∧ gone (recordSubject r) = false

/-- Of some offers, the records taken. -/
def takenOf (policy : NotesPolicy) (sign : SignOps) (gone : Bytes32 → Bool)
    (offers : List Bytes) : Set RecordView :=
  {r | r.bytes ∈ offers ∧ Takes policy sign gone r}

/-- The latest record of its claim: the one with the highest sequence number. -/
abbrev LatestOf (A : Set RecordView) (r : RecordView) : Prop :=
  Latest claimOf (fun q => q.seq.toNat) A r

/-- No writer signed two records of one note at one sequence number. -/
abbrev NoEquivocation (A : Set RecordView) : Prop :=
  OneAtRank claimOf (fun q => q.seq.toNat) A

/-- **The notes' rows are the latest of each claim**, and nothing else. -/
def Index (st : NotesStore) (A : Set RecordView) (d : NotesDisk) : Prop :=
  ∀ key b, d.load (.note, key) = some b ↔ ∃ r, LatestOf A r ∧
    claimKey st (recordSubject r) r.issuer = some key ∧ b = noteBlob r.bytes

/-- A host before the first offer: no note, some purged, a disk that answers. -/
structure Fresh (gone : Bytes32 → Bool) (d : NotesDisk) : Prop where
  empty : ∀ key, d.load (.note, key) = none
  purged : ∀ id, notesPurged d id = gone id
  answers : d.outcomes = []

/-- Room for every claim. -/
structure Room (st : NotesStore) (claims : Finset Claim) : Prop where
  bound : claims.card ≤ claimBound st
  max : claims.card ≤ notesMax

/-- A hash that answers for the claims, and for no two alike. -/
structure Keyed (st : NotesStore) (claims : Finset Claim) : Prop where
  inj : st.hash.InjOn (claimInputs claims)
  answers : ∀ c ∈ claims, ∃ key, claimKey st c.1 c.2 = some key

/-- The offers put one after another. -/
def offerAll (st : NotesStore) (policy : NotesPolicy) (sign : SignOps) (offers : List Bytes)
    (d : NotesDisk) : NotesDisk :=
  offers.foldl (fun d x => (notesPut st policy sign x d).2) d

section Index

variable {st : NotesStore} {policy : NotesPolicy} {sign : SignOps} {gone : Bytes32 → Bool}
variable {claims : Finset Claim} {A : Set RecordView} {d d' : NotesDisk} {r : RecordView}

theorem takenOf_append (offers : List Bytes) (x : Bytes) :
    takenOf policy sign gone (offers ++ [x]) =
      takenOf policy sign gone offers ∪ {r | r.bytes = x ∧ Takes policy sign gone r} := by
  ext r
  simp only [takenOf, List.mem_append, List.mem_singleton, Set.mem_ofPred_eq, Set.mem_union]
  tauto

theorem notesAdmit_bytes {x : Bytes} (h : notesAdmit policy x sign = .ok r) : r.bytes = x := by
  unfold notesAdmit at h
  split at h
  · cases h
  split at h
  · cases h
  next r' hopen =>
    split at h
    · cases h
    split at h
    · cases h
    split at h
    · obtain rfl := Except.ok.inj h
      exact recordOpen_bytes hopen
    · cases h

/-- An offer that is not taken adds nothing. -/
theorem taken_union_none {x : Bytes}
    (h : ∀ r, notesAdmit policy x sign = .ok r → gone (recordSubject r) = true) :
    A ∪ {r | r.bytes = x ∧ Takes policy sign gone r} = A := by
  refine Set.union_eq_left.2 ?_
  rintro r ⟨rfl, hadm, hgone⟩
  rw [h r hadm] at hgone
  exact absurd hgone (by simp)

/-- An offer that is taken adds its record. -/
theorem taken_union_one {x : Bytes} (h : notesAdmit policy x sign = .ok r)
    (hgone : gone (recordSubject r) = false) :
    A ∪ {r | r.bytes = x ∧ Takes policy sign gone r} = insert r A := by
  have hone : {q | q.bytes = x ∧ Takes policy sign gone q} = {r} := by
    ext q
    constructor
    · rintro ⟨hq, -, -⟩
      exact RecordView.ext (hq.trans (notesAdmit_bytes h).symm)
    · rintro rfl
      obtain rfl := notesAdmit_bytes h
      exact ⟨rfl, h, hgone⟩
  rw [hone, Set.union_singleton]

variable {key : Bytes32} {p : PutAnswer × NotesDisk}

section

variable (hindex : Index st A d)
include hindex

/-- The record an index has under a claim's key is of that claim. -/
theorem Index.claim (hkeyed : Keyed st claims) (hA : ∀ q ∈ A, claimOf q ∈ claims)
    (hr : claimOf r ∈ claims) (hkey : claimKey st (recordSubject r) r.issuer = some key) {b : Bytes}
    (hb : d.load (.note, key) = some b) :
    ∃ q, LatestOf A q ∧ claimOf q = claimOf r ∧ b = noteBlob q.bytes := by
  obtain ⟨q, hq, hqkey, hbq⟩ := (hindex key b).1 hb
  exact ⟨q, hq, claimKey_inj hkeyed.inj (hA q hq.mem) hr hqkey hkey, hbq⟩

/-- **Fewer claims are held than there are**, while one of them is not. -/
theorem Index.count_lt (hA : ∀ q ∈ A, claimOf q ∈ claims) (hr : claimOf r ∈ claims)
    (hnone : ∀ q ∈ A, claimOf q ≠ claimOf r) :
    (d.rows.keys.filterMap (subjectOf .note)).length < claims.card := by
  have hnodup : (d.rows.keys.filterMap (subjectOf .note)).Nodup := by
    refine List.Nodup.filterMap ?_ d.rows.keys_nodup
    intro a a' key ha ha'
    rw [Option.mem_def, subjectOf_some] at ha ha'
    exact ha.trans ha'.symm
  have hsub : (d.rows.keys.filterMap (subjectOf .note)).toFinset ⊆
      (claims.erase (claimOf r)).image fun c => (claimKey st c.1 c.2).getD 0 := by
    intro key hkey
    rw [List.mem_toFinset, List.mem_filterMap] at hkey
    obtain ⟨k, hk, hks⟩ := hkey
    obtain rfl := subjectOf_some.1 hks
    obtain ⟨b, hb⟩ := Disk.mem_keys_iff.1 hk
    obtain ⟨q, hq, hqkey, -⟩ := (hindex key b).1 hb
    refine Finset.mem_image.2 ⟨claimOf q, Finset.mem_erase.2 ⟨hnone q hq.mem, hA q hq.mem⟩, ?_⟩
    exact congrArg (Option.getD · 0) hqkey
  calc (d.rows.keys.filterMap (subjectOf .note)).length
      = (d.rows.keys.filterMap (subjectOf .note)).toFinset.card :=
        (List.toFinset_card_of_nodup hnodup).symm
    _ ≤ _ := Finset.card_le_card hsub
    _ ≤ (claims.erase (claimOf r)).card := Finset.card_image_le
    _ < claims.card := Finset.card_erase_lt_of_mem hr

/-- A record written over what its claim held is the latest of it. -/
theorem index_write (hkeyed : Keyed st claims) (hone : NoEquivocation (insert r A))
    (hA : ∀ q ∈ insert r A, claimOf q ∈ claims)
    (hkey : claimKey st (recordSubject r) r.issuer = some key) (hlatest : LatestOf (insert r A) r)
    (hrows : SameNotes d d') (hanswers : d'.outcomes = []) :
    Index st (insert r A) (putWrite r key d').2 := by
  intro key' b
  rw [(putWrite_disk r key d').1]
  by_cases heq : key' = key
  · obtain rfl := heq
    rw [Disk.load_of_save (by rw [Disk.save_of_nil hanswers])]
    constructor
    · intro hb
      exact ⟨r, hlatest, hkey, (Option.some.inj hb).symm⟩
    · rintro ⟨q, hq, hqkey, rfl⟩
      have hclaim := claimKey_inj hkeyed.inj (hA q hq.mem) (hA r hlatest.mem) hqkey hkey
      rw [hq.eq hone hlatest hclaim]
  · rw [Disk.load_save_ne (by simpa using heq), hrows key', hindex key' b]
    have hother : ∀ q, claimKey st (recordSubject q) q.issuer = some key' →
        claimOf q ≠ claimOf r := by
      intro q hqkey hclaim
      obtain ⟨hsubject, hissuer⟩ := Prod.mk.inj hclaim
      rw [hsubject, hissuer, hkey] at hqkey
      exact heq (Option.some.inj hqkey).symm
    refine exists_congr fun q => ?_
    constructor
    · rintro ⟨hq, hqkey, hb⟩
      exact ⟨(latest_insert_ne (hother q hqkey)).2 hq, hqkey, hb⟩
    · rintro ⟨hq, hqkey, hb⟩
      exact ⟨(latest_insert_ne (hother q hqkey)).1 hq, hqkey, hb⟩

/-- A record no later than what its claim holds changes nothing. -/
theorem index_keep {q : RecordView} (hone : NoEquivocation (insert r A)) (hq : LatestOf A q)
    (hclaim : claimOf q = claimOf r) (hle : r.seq ≤ q.seq) : Index st (insert r A) d := by
  intro key b
  rw [hindex key b]
  refine exists_congr fun a => and_congr_left fun _ => ?_
  exact (latest_insert_iff hone hq hclaim (UInt64.le_iff_toNat_le.1 hle)).symm

theorem putOver_index {q : RecordView} (hkeyed : Keyed st claims)
    (hone : NoEquivocation (insert r A)) (hA : ∀ q ∈ insert r A, claimOf q ∈ claims)
    (hkey : claimKey st (recordSubject r) r.issuer = some key) (hq : LatestOf A q)
    (hclaim : claimOf q = claimOf r) (hanswers : d.outcomes = []) :
    Index st (insert r A) (putOver st q r key d).2 := by
  unfold putOver
  split
  · next h => exact index_keep hindex hone hq hclaim (by rw [h.1]; exact UInt64.le_refl _)
  split
  · next h => exact index_keep hindex hone hq hclaim h
  next h =>
    have hlt : q.seq.toNat < r.seq.toNat := UInt64.lt_iff_toNat_lt.1 (UInt64.not_le.1 h)
    have hlatest : LatestOf (insert r A) r := latest_insert_gt hq hclaim hlt
    split
    · have hkept : Kept (fun _ => True) d (historyKeep st q.bytes d) :=
        kept_historyKeep st trivial d
      refine index_write hindex hkeyed hone hA hkey hlatest (fun k => hkept.other _ (by simp)) ?_
      exact List.eq_nil_of_suffix_nil (hanswers ▸ hkept.behind)
    · exact index_write hindex hkeyed hone hA hkey hlatest (fun k => rfl) hanswers

theorem putNew_index (hkeyed : Keyed st claims) (hroom : Room st claims)
    (hone : NoEquivocation (insert r A)) (hA : ∀ q ∈ insert r A, claimOf q ∈ claims)
    (hkey : claimKey st (recordSubject r) r.issuer = some key)
    (hnone : ∀ q ∈ A, claimOf q ≠ claimOf r) (hanswers : d.outcomes = []) :
    Index st (insert r A) (putNew st r key d).2 := by
  have hlatest : LatestOf (insert r A) r :=
    latest_insert_self fun q hq hclaim => absurd hclaim (hnone q hq)
  have hcount := hindex.count_lt (fun q hq => hA q (Set.mem_insert_of_mem r hq))
    (hA r hlatest.mem) hnone
  have hlist : (notesClaims d).1 = some (d.rows.keys.filterMap (subjectOf .note)) :=
    Disk.list_of_nil hanswers (hcount.le.trans hroom.max)
  have hrows : SameNotes d (notesClaims d).2 := fun k => Disk.load_list d _ notesMax _
  have hbehind : (notesClaims d).2.Behind d := Disk.list_behind d _ notesMax
  unfold putNew
  split
  · exact index_write hindex hkeyed hone hA hkey hlatest (fun k => rfl) hanswers
  split
  · next heq =>
      rw [heq] at hlist
      exact absurd hlist (by simp)
  · next keys d' heq =>
      rw [heq] at hlist hrows hbehind
      obtain rfl := Option.some.inj hlist
      rw [if_neg (Nat.not_le.2 (hcount.trans_le hroom.bound))]
      exact index_write hindex hkeyed hone hA hkey hlatest hrows
        (List.eq_nil_of_suffix_nil (hanswers ▸ hbehind))

theorem putAdmitted_index (hfin : A.Finite) (hkeyed : Keyed st claims) (hroom : Room st claims)
    (hone : NoEquivocation (insert r A)) (hA : ∀ q ∈ insert r A, claimOf q ∈ claims)
    (hanswers : d.outcomes = []) : Index st (insert r A) (putAdmitted st r d).2 := by
  have hr := hA r (Set.mem_insert r A)
  have hA' : ∀ q ∈ A, claimOf q ∈ claims := fun q hq => hA q (Set.mem_insert_of_mem r hq)
  obtain ⟨key, hkey⟩ := hkeyed.answers _ hr
  unfold putAdmitted
  rw [show claimKey st (recordSubject r) r.issuer = some key from hkey]
  cases hload : d.load (.note, key) with
  | none =>
    have hnone : ∀ q ∈ A, claimOf q ≠ claimOf r := by
      intro q hq hclaim
      -- a claim held has its row
      obtain ⟨q', hq', hq'q⟩ : ∃ q', LatestOf A q' ∧ claimOf q' = claimOf q :=
        exists_latest hfin hq
      have hkey' : claimKey st (claimOf q').1 (claimOf q').2 = some key := by
        rw [hq'q, hclaim]
        exact hkey
      have hrow := (hindex key _).2 ⟨q', hq', hkey', rfl⟩
      exact absurd (hload.symm.trans hrow) (by simp)
    simp only [loadKey_absent.2 hload]
    exact putNew_index hindex hkeyed hroom hone hA hkey hnone hanswers
  | some b =>
    obtain ⟨q, hq, hclaim, rfl⟩ := hindex.claim hkeyed hA' hr hkey hload
    simp only [loadKey_noteBlob hload]
    exact putOver_index hindex hkeyed hone hA hkey hq hclaim hanswers

/-- **One put moves the index** to the set with what it offers in it. -/
theorem index_put {x : Bytes} (hfin : A.Finite) (hkeyed : Keyed st claims) (hroom : Room st claims)
    (hpurged : ∀ id, notesPurged d id = gone id) (hanswers : d.outcomes = [])
    (hone : NoEquivocation (A ∪ {r | r.bytes = x ∧ Takes policy sign gone r}))
    (hA : ∀ q ∈ A ∪ {r | r.bytes = x ∧ Takes policy sign gone r}, claimOf q ∈ claims) :
    Index st (A ∪ {r | r.bytes = x ∧ Takes policy sign gone r})
      (notesPut st policy sign x d).2 := by
  cases hadm : notesAdmit policy x sign with
  | error why =>
    rw [taken_union_none fun r hr => absurd (hadm.symm.trans hr) (by simp)]
    unfold notesPut
    rw [hadm]
    split <;> exact hindex
  | ok r =>
    have hlen : ¬ x.length > recordMaxLen := by
      have := length_of_open r
      rw [notesAdmit_bytes hadm] at this
      exact Nat.not_lt.2 this
    unfold notesPut
    rw [if_neg hlen, hadm]
    cases hgone : gone (recordSubject r) with
    | true =>
      rw [taken_union_none fun q hq => (Except.ok.inj (hadm.symm.trans hq)) ▸ hgone]
      simp only [hpurged, hgone, if_true]
      exact hindex
    | false =>
      rw [taken_union_one hadm hgone] at hone hA ⊢
      simp only [hpurged, hgone, Bool.false_eq_true, if_false]
      exact putAdmitted_index hindex hfin hkeyed hroom hone hA hanswers

end

theorem Unwritten.purged (h : Unwritten d p) (id : Bytes32) :
    notesPurged p.2 id = notesPurged d id := by
  unfold notesPurged
  rw [Disk.load, h.2.1, Disk.load]

theorem Written.purged (h : Written st r d p) (id : Bytes32) :
    notesPurged p.2 id = notesPurged d id := by
  obtain ⟨key, d₁, -, -, hkept, rfl⟩ := h
  unfold notesPurged
  rw [(putWrite_disk r key d₁).1, Disk.load_save_ne (by simp), hkept.other _ (by simp)]

theorem Written.behind (h : Written st r d p) : p.2.Behind d := by
  obtain ⟨key, d₁, -, -, hkept, rfl⟩ := h
  rw [(putWrite_disk r key d₁).1]
  exact (Disk.save_behind _ _ _).trans hkept.behind

/-- A put leaves the marks, and the disk at the operations behind it. -/
theorem put_marks (st : NotesStore) (policy : NotesPolicy) (sign : SignOps) (x : Bytes)
    (d : NotesDisk) : (∀ id, notesPurged (notesPut st policy sign x d).2 id = notesPurged d id) ∧
      (notesPut st policy sign x d).2.Behind d := by
  rcases notesPut_cases st policy sign x d with h | ⟨_, -, -, h⟩
  · exact ⟨h.purged, h.2.2⟩
  · exact ⟨h.purged, h.behind⟩

theorem takenOf_finite (policy : NotesPolicy) (sign : SignOps) (gone : Bytes32 → Bool)
    (offers : List Bytes) : (takenOf policy sign gone offers).Finite := by
  refine Set.Finite.subset (Set.Finite.preimage (f := RecordView.bytes) ?_
    (List.finite_toSet offers)) fun _ hr => hr.1
  exact fun _ _ _ _ h => RecordView.ext h

theorem takenOf_mono {offers offers' : List Bytes} (h : ∀ x ∈ offers, x ∈ offers') :
    takenOf policy sign gone offers ⊆ takenOf policy sign gone offers' :=
  fun _ hr => ⟨h _ hr.1, hr.2⟩

/-- **A host offered records in any order, with any repetition, ends with the latest of each
claim.** -/
theorem offerAll_index {offers : List Bytes} (hkeyed : Keyed st claims) (hroom : Room st claims)
    (hfresh : Fresh gone d) (hone : NoEquivocation (takenOf policy sign gone offers))
    (hA : ∀ r ∈ takenOf policy sign gone offers, claimOf r ∈ claims) :
    Index st (takenOf policy sign gone offers) (offerAll st policy sign offers d) := by
  suffices h : Index st (takenOf policy sign gone offers) (offerAll st policy sign offers d) ∧
      (∀ id, notesPurged (offerAll st policy sign offers d) id = gone id) ∧
      (offerAll st policy sign offers d).outcomes = [] from h.1
  refine prefix_induction (P := fun pre =>
    Index st (takenOf policy sign gone pre) (offerAll st policy sign pre d) ∧
      (∀ id, notesPurged (offerAll st policy sign pre d) id = gone id) ∧
      (offerAll st policy sign pre d).outcomes = []) ?_ ?_
  · refine ⟨fun key b => ?_, hfresh.purged, hfresh.answers⟩
    constructor
    · intro hb
      exact absurd ((hfresh.empty key).symm.trans hb) (by simp)
    · rintro ⟨r, hr, -⟩
      exact absurd hr.mem.1 List.not_mem_nil
  · rintro pre x hle ⟨hindex, hpurged, hanswers⟩
    have hsub : takenOf policy sign gone (pre ++ [x]) ⊆ takenOf policy sign gone offers :=
      takenOf_mono fun y hy => hle.subset hy
    have hput := put_marks st policy sign x (offerAll st policy sign pre d)
    have hstep : offerAll st policy sign (pre ++ [x]) d =
        (notesPut st policy sign x (offerAll st policy sign pre d)).2 := by
      unfold offerAll
      rw [List.foldl_append, List.foldl_cons, List.foldl_nil]
    rw [hstep]
    rw [takenOf_append] at hsub ⊢
    refine ⟨index_put hindex (takenOf_finite policy sign gone pre) hkeyed hroom hpurged hanswers
      (hone.mono hsub) fun q hq => hA q (hsub hq), fun id => ?_, ?_⟩
    · rw [hput.1 id, hpurged id]
    · exact List.eq_nil_of_suffix_nil (hanswers ▸ hput.2)

end Index

/-! ## Two hosts -/

/-- **A host holds exactly the latest of each claim:** of every claim made there is a latest
record, the host has it under the claim's key and reads it back, and has no other row. -/
structure Holds (st : NotesStore) (A : Set RecordView) (d : NotesDisk) : Prop where
  held : ∀ r ∈ A, ∃ best key, LatestOf A best ∧ claimOf best = claimOf r ∧
    claimKey st (recordSubject r) r.issuer = some key ∧
    d.load (.note, key) = some (noteBlob best.bytes) ∧ notesGetKey st d key = .ok best
  only : ∀ key b, d.load (.note, key) = some b → ∃ best, LatestOf A best ∧
    claimKey st (recordSubject best) best.issuer = some key ∧ b = noteBlob best.bytes

theorem Index.holds {st : NotesStore} {claims : Finset Claim} {A : Set RecordView}
    {d : NotesDisk} (hindex : Index st A d) (hfin : A.Finite) (hkeyed : Keyed st claims)
    (hA : ∀ r ∈ A, claimOf r ∈ claims) : Holds st A d := by
  refine ⟨fun r hr => ?_, fun key b hb => (hindex key b).1 hb⟩
  obtain ⟨best, hbest, hclaim⟩ : ∃ best, LatestOf A best ∧ claimOf best = claimOf r :=
    exists_latest hfin hr
  obtain ⟨key, hkey⟩ := hkeyed.answers _ (hA r hr)
  have hkey' : claimKey st (recordSubject best) best.issuer = some key := by
    have hbest' : claimKey st (claimOf best).1 (claimOf best).2 = some key := by
      rw [hclaim]
      exact hkey
    exact hbest'
  have hrow := (hindex key _).2 ⟨best, hbest, hkey', rfl⟩
  refine ⟨best, key, hbest, hclaim, hkey, hrow, ?_⟩
  unfold notesGetKey
  simp only [loadKey_noteBlob hrow, hkey', if_true]

/-- **The notes converge.**  Two hosts with one policy, the same marks and room for every
claim, offered the same records in any two orders with any repetitions: both end holding
exactly the latest record of each claim, in the same rows.  And every put, whatever the
disk's saves and listings do, lowers no claim's sequence, touches no other claim, and says
by `*wrote` whether the bytes stored changed. -/
theorem notes_converge {policy : NotesPolicy} {sign : SignOps} {gone : Bytes32 → Bool}
    {stA stB : NotesStore} {claims : Finset Claim} {dA dB : NotesDisk}
    {offersA offersB : List Bytes} (hhash : stB.hash = stA.hash) (hkeyed : Keyed stA claims)
    (hroomA : Room stA claims) (hroomB : Room stB claims) (hA : Fresh gone dA)
    (hB : Fresh gone dB) (hsame : ∀ x, x ∈ offersA ↔ x ∈ offersB)
    (hone : NoEquivocation (takenOf policy sign gone offersA))
    (hclaims : ∀ r ∈ takenOf policy sign gone offersA, claimOf r ∈ claims) :
    Holds stA (takenOf policy sign gone offersA) (offerAll stA policy sign offersA dA) ∧
      Holds stB (takenOf policy sign gone offersA) (offerAll stB policy sign offersB dB) ∧
      SameNotes (offerAll stA policy sign offersA dA) (offerAll stB policy sign offersB dB) ∧
      ∀ st policy sign x d, PutKeeps st policy sign x d := by
  have htaken : takenOf policy sign gone offersB = takenOf policy sign gone offersA :=
    Set.Subset.antisymm (takenOf_mono fun x hx => (hsame x).2 hx)
      (takenOf_mono fun x hx => (hsame x).1 hx)
  have hkey : ∀ id issuer, claimKey stB id issuer = claimKey stA id issuer := by
    intro id issuer
    unfold claimKey
    rw [hhash]
  have hkeyedB : Keyed stB claims := by
    refine ⟨hhash ▸ hkeyed.inj, fun c hc => ?_⟩
    obtain ⟨key, hc'⟩ := hkeyed.answers c hc
    exact ⟨key, (hkey c.1 c.2).trans hc'⟩
  have hfin := takenOf_finite policy sign gone offersA
  have hindexA := offerAll_index hkeyed hroomA hA hone hclaims
  have hindexB : Index stB (takenOf policy sign gone offersA)
      (offerAll stB policy sign offersB dB) := by
    rw [← htaken] at hone hclaims ⊢
    exact offerAll_index hkeyedB hroomB hB hone hclaims
  refine ⟨hindexA.holds hfin hkeyed hclaims, hindexB.holds hfin hkeyedB hclaims, fun key => ?_,
    put_keeps⟩
  refine Option.ext fun b => ?_
  rw [hindexA key b, hindexB key b]
  simp only [hkey]

/-! ## Room for one claim of two -/

/-- A note's first record of an issuer, without a body. -/
def firstNote (id issuer : ℕ) : Bytes :=
  [1, 130] ++ putBe 32 issuer ++ putBe 32 id ++ putBe 4 0 ++ putBe 4 noteKind ++ putBe 8 1 ++
    putBe 32 0 ++ putBe 8 0 ++ putBe 2 0 ++ putBe 64 9

/-- A store of two writers' notes, with room for `bound` claims. -/
def smallStore (bound : ℕ) : NotesStore := ⟨tailHash, true, bound, fun _ => none, false, false⟩

/-- The policy that admits both. -/
def bothWriters : NotesPolicy := ⟨true, [1, 2]⟩

/-- A disk without a row. -/
def emptyDisk : NotesDisk := ⟨∅, []⟩

theorem fresh_emptyDisk : Fresh (fun _ => false) emptyDisk := ⟨fun _ => rfl, fun _ => rfl, rfl⟩

/-- The two offers are two claims. -/
theorem claims_of_firstNotes {offers : List Bytes}
    (h : ∀ x ∈ offers, x = firstNote 5 1 ∨ x = firstNote 6 2) {r : RecordView}
    (hr : r ∈ takenOf bothWriters acceptingSign (fun _ => false) offers) :
    (r.bytes = firstNote 5 1 ∧ claimOf r = (5, 1)) ∨
      (r.bytes = firstNote 6 2 ∧ claimOf r = (6, 2)) := by
  have hclaim : claimOf r = (BitVec.ofNat 256 (getBe r.bytes 34 32),
      BitVec.ofNat 256 (getBe r.bytes 2 32)) := rfl
  rcases h r.bytes hr.1 with hbytes | hbytes
  · refine Or.inl ⟨hbytes, ?_⟩
    rw [hclaim, hbytes]
    decide
  · refine Or.inr ⟨hbytes, ?_⟩
    rw [hclaim, hbytes]
    decide

theorem noEquivocation_firstNotes {offers : List Bytes}
    (h : ∀ x ∈ offers, x = firstNote 5 1 ∨ x = firstNote 6 2) :
    NoEquivocation (takenOf bothWriters acceptingSign (fun _ => false) offers) := by
  intro r hr q hq hclaim _
  rcases claims_of_firstNotes h hr with ⟨hr', hrc⟩ | ⟨hr', hrc⟩ <;>
    rcases claims_of_firstNotes h hq with ⟨hq', hqc⟩ | ⟨hq', hqc⟩
  · exact RecordView.ext (hr'.trans hq'.symm)
  · exact absurd (hrc.symm.trans (hclaim.trans hqc)) (by decide)
  · exact absurd (hrc.symm.trans (hclaim.trans hqc)) (by decide)
  · exact RecordView.ext (hr'.trans hq'.symm)

theorem keyed_smallStore (bound : ℕ) : Keyed (smallStore bound) {(5, 1), (6, 2)} := by
  have hfirst : claimKey (smallStore bound) 5 1 = some 1 :=
    show tailHash.hash (claimInput 5 1) = some 1 by decide
  have hsecond : claimKey (smallStore bound) 6 2 = some 2 :=
    show tailHash.hash (claimInput 6 2) = some 2 by decide
  refine ⟨?_, ?_⟩
  · rintro x ⟨c, hc, rfl⟩ y ⟨c', hc', rfl⟩ d hx hy
    simp only [Finset.coe_insert, Finset.coe_singleton, Set.mem_insert_iff,
      Set.mem_singleton_iff] at hc hc'
    rcases hc with rfl | rfl <;> rcases hc' with rfl | rfl
    · rfl
    · exact absurd (hfirst.symm.trans (hx.trans (hy.symm.trans hsecond))) (by decide)
    · exact absurd (hsecond.symm.trans (hx.trans (hy.symm.trans hfirst))) (by decide)
    · rfl
  · intro c hc
    simp only [Finset.mem_insert, Finset.mem_singleton] at hc
    rcases hc with rfl | rfl
    · exact ⟨1, hfirst⟩
    · exact ⟨2, hsecond⟩

theorem mem_pair (a b x : Bytes) : x ∈ [a, b] ↔ x = a ∨ x = b := by simp

/-- Two claims in two orders, and room for both. -/
theorem notes_converge_two :
    SameNotes (offerAll (smallStore 2) bothWriters acceptingSign [firstNote 5 1, firstNote 6 2]
        emptyDisk)
      (offerAll (smallStore 0) bothWriters acceptingSign
        [firstNote 6 2, firstNote 5 1] emptyDisk) := by
  have hoffers : ∀ x ∈ [firstNote 5 1, firstNote 6 2], x = firstNote 5 1 ∨ x = firstNote 6 2 :=
    fun x => (mem_pair _ _ x).1
  have hhash : (smallStore 0).hash = (smallStore 2).hash := rfl
  have hroom : Room (smallStore 2) {(5, 1), (6, 2)} := ⟨by decide, by decide⟩
  have hroom' : Room (smallStore 0) {(5, 1), (6, 2)} := ⟨by decide, by decide⟩
  have hsame : ∀ x, x ∈ [firstNote 5 1, firstNote 6 2] ↔ x ∈ [firstNote 6 2, firstNote 5 1] := by
    intro x
    rw [mem_pair, mem_pair, or_comm]
  have hclaims : ∀ r ∈ takenOf bothWriters acceptingSign (fun _ => false)
      [firstNote 5 1, firstNote 6 2], claimOf r ∈ ({(5, 1), (6, 2)} : Finset Claim) := by
    intro r hr
    rcases claims_of_firstNotes hoffers hr with ⟨-, hr'⟩ | ⟨-, hr'⟩ <;> rw [hr'] <;> decide
  exact (notes_converge hhash (keyed_smallStore 2) hroom hroom' fresh_emptyDisk fresh_emptyDisk
    hsame (noEquivocation_firstNotes hoffers) hclaims).2.2.1

/-- **With room for one claim the order decides** which one a host holds: the same records,
none signed twice at one number, the same policy, marks and room, and different rows. -/
theorem notes_room_short :
    Keyed (smallStore 1) {(5, 1), (6, 2)} ∧ Fresh (fun _ => false) emptyDisk ∧
      (∀ x, x ∈ [firstNote 5 1, firstNote 6 2] ↔ x ∈ [firstNote 6 2, firstNote 5 1]) ∧
      NoEquivocation (takenOf bothWriters acceptingSign (fun _ => false)
        [firstNote 5 1, firstNote 6 2]) ∧
      ¬ SameNotes
        (offerAll (smallStore 1) bothWriters acceptingSign [firstNote 5 1, firstNote 6 2] emptyDisk)
        (offerAll (smallStore 1) bothWriters acceptingSign [firstNote 6 2, firstNote 5 1]
          emptyDisk) := by
  have hoffers : ∀ x ∈ [firstNote 5 1, firstNote 6 2], x = firstNote 5 1 ∨ x = firstNote 6 2 :=
    fun x => (mem_pair _ _ x).1
  refine ⟨keyed_smallStore 1, fresh_emptyDisk, fun x => ?_, noEquivocation_firstNotes hoffers,
    fun hsame => ?_⟩
  · rw [mem_pair, mem_pair, or_comm]
  · have hA : ((offerAll (smallStore 1) bothWriters acceptingSign [firstNote 5 1, firstNote 6 2]
        emptyDisk).load (.note, 1)).isSome = true := by decide +kernel
    have hB : ((offerAll (smallStore 1) bothWriters acceptingSign [firstNote 6 2, firstNote 5 1]
        emptyDisk).load (.note, 1)).isSome = false := by decide +kernel
    rw [hsame 1] at hB
    exact absurd (hA.symm.trans hB) (by decide)

end Notes
end Fuzznet
