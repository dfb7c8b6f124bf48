/-
# A purge, through failures

`notes/purge.c` and the marks and wrap keys of `notes/store.c`: `fzn_notes_erase_note`
marks a note purged, then removes its wrap key and every claim on it.  Its history goes
with the mark, and the hook is told then, so that a note whose claims are still to go is
one nothing more is filed of.

The mark is also what says that all this was done: a second call finds it and goes on.
So a first call that writes the mark and then fails, at the listing of the history, at
one of its removals or at the answer to the mark itself, leaves versions no later call
removes and a hook no later call tells (`purge_half_done`).  In a run where no call stops
there (`MarkTaken`), a purge once answered is complete and stays so (`purge_final`).

One operation is `Tidy`: it writes nothing of a note that is marked before it.  What is
left of a note after its erasure is then `Gone` in every state behind.
-/

import Fuzznet.Notes.Converge

namespace Fuzznet
namespace Notes

open Wire Record Lib
open Session (bytes32)

/-- A host's notes: the disk, and the purges told to `store->purged`, in order. -/
structure Host where
  disk : NotesDisk
  told : List Bytes32

/-! ## The wrap keys -/

/-- `fzn_notes_wrap_get`. -/
def wrapGet (d : NotesDisk) (id : Bytes32) : Except NotesErr Bytes :=
  match d.load (.wrap, id) with
  | none => .error .absent
  | some blob => if headCheck blob 32 wrapTag then .ok (blob.drop 2) else .error .shape

/-- `fzn_notes_wrap_put`: the first key held stands. -/
def wrapPut (id key : Bytes32) (d : NotesDisk) : NotesErr × NotesDisk :=
  if notesPurged d id then (.purged, d)
  else match wrapGet d id with
    | .ok held => (if held = bytes32 key then .ok else .equivocation, d)
    | .error .absent =>
      (if (d.save (.wrap, id) (head wrapTag ++ bytes32 key)).1 then .ok else .backend,
        (d.save (.wrap, id) (head wrapTag ++ bytes32 key)).2)
    | .error err => (err, d)

section Store

variable (st : NotesStore)

/-- `fzn_notes_wrap_erase`. -/
def wrapErase (id : Bytes32) (d : NotesDisk) : NotesErr × NotesDisk :=
  match wrapGet d id with
  | .error .absent => (.ok, d)
  | _ => if st.canRemove = false then (.unsupported, d)
      else (if (d.remove (.wrap, id)).1 then .ok else .backend, (d.remove (.wrap, id)).2)

/-! ## The mark -/

/-- The loop of `fzn_notes_history_forget`, which the first failure ends. -/
def forgetRows : List Bytes32 → NotesDisk → NotesErr × NotesDisk
  | [], d => (.ok, d)
  | row :: rows, d =>
    match historyRemove st row d with
    | (.ok, d) => forgetRows rows d
    | (err, d) => (err, d)

/-- `fzn_notes_history_forget`: the versions of a note. -/
def historyForget (id : Bytes32) (d : NotesDisk) : NotesErr × NotesDisk :=
  match historyEach d with
  | (none, d) => (.backend, d)
  | (some vs, d) =>
    forgetRows st ((vs.filter fun v => decide (recordSubject v.2 = id)).map Prod.fst) d

/-- A mark. -/
def purgedBlob : Bytes := head purgedTag ++ [1]

/-- `fzn_notes_mark_purged`: once; the history goes with the mark, and then it is told. -/
def markPurged (id : Bytes32) (w : Host) : NotesErr × Host :=
  if notesPurged w.disk id then (.ok, w)
  else if (w.disk.save (.purged, id) purgedBlob).1 = false then
    (.backend, ⟨(w.disk.save (.purged, id) purgedBlob).2, w.told⟩)
  else match historyForget st id (w.disk.save (.purged, id) purgedBlob).2 with
    | (.ok, d) => (.ok, ⟨d, if st.hook then w.told ++ [id] else w.told⟩)
    | (_, d) => (.backend, ⟨d, w.told⟩)

/-! ## The erasure -/

/-- The loop of `fzn_notes_erase_note` over the claims: the error, how many went. -/
def eraseClaims (id : Bytes32) : List Bytes32 → ℕ → NotesDisk → NotesErr × ℕ × NotesDisk
  | [], gone, d => (.ok, gone, d)
  | key :: keys, gone, d =>
    match notesGetKey st d key with
    | .error _ => eraseClaims id keys gone d
    | .ok r =>
      if recordSubject r ≠ id then eraseClaims id keys gone d
      else if (d.remove (.note, key)).1 then
        eraseClaims id keys (gone + 1) (d.remove (.note, key)).2
      else (.backend, 0, (d.remove (.note, key)).2)

/-- `fzn_notes_erase_note` behind the mark: the wrap key, then every claim. -/
def eraseMarked (id : Bytes32) (d : NotesDisk) : NotesErr × ℕ × NotesDisk :=
  match wrapErase st id d with
  | (.ok, d) => match notesClaims d with
    | (none, d) => (.backend, 0, d)
    | (some keys, d) => eraseClaims st id keys 0 d
  | (err, d) => (err, 0, d)

/-- `fzn_notes_erase_note`: the error, and `*erased`. -/
def eraseNote (id : Bytes32) (w : Host) : NotesErr × ℕ × Host :=
  if st.canRemove = false then (.unsupported, 0, w)
  else match markPurged st id w with
    | (.ok, w) => ((eraseMarked st id w.disk).1, (eraseMarked st id w.disk).2.1,
        ⟨(eraseMarked st id w.disk).2.2, w.told⟩)
    | (err, w) => (err, 0, w)

/-- `fzn_notes_purge_finish`: the entry last. -/
def purgeFinish (id : Bytes32) (w : Host) : NotesErr × Host :=
  match eraseNote st id w with
  | (.ok, _, w) => (if (w.disk.remove (.purge, id)).1 then .ok else .backend,
      ⟨(w.disk.remove (.purge, id)).2, w.told⟩)
  | (err, _, w) => (err, w)

/-- `fzn_notes_erase`: one claim. -/
def eraseClaim (id : Bytes32) (issuer : Key) (d : NotesDisk) : NotesErr × NotesDisk :=
  match claimKey st id issuer with
  | none => (.backend, d)
  | some key => if st.canRemove = false then (.unsupported, d)
      else (if (d.remove (.note, key)).1 then .ok else .backend, (d.remove (.note, key)).2)

/-! ## The operations on one host -/

/-- What is called on a host: the puts a user or a pull makes, the wrap keys, the
versions and claims let go one at a time, the purges, and what their queue writes
(`entry`) and lists. -/
inductive NotesOp
  | put (policy : NotesPolicy) (sign : SignOps) (record : Bytes)
  | wrapPut (id key : Bytes32)
  | wrapErase (id : Bytes32)
  | historyRemove (row : Bytes32)
  | eraseClaim (id : Bytes32) (issuer : Key)
  | eraseNote (id : Bytes32)
  | purgeFinish (id : Bytes32)
  | entry (id : Bytes32) (blob : Bytes)
  | list (slot : Slot) (max : ℕ)

/-- One operation. -/
def notesStep (w : Host) : NotesOp → Host
  | .put policy sign record => ⟨(notesPut st policy sign record w.disk).2, w.told⟩
  | .wrapPut id key => ⟨(wrapPut id key w.disk).2, w.told⟩
  | .wrapErase id => ⟨(wrapErase st id w.disk).2, w.told⟩
  | .historyRemove row => ⟨(historyRemove st row w.disk).2, w.told⟩
  | .eraseClaim id issuer => ⟨(eraseClaim st id issuer w.disk).2, w.told⟩
  | .eraseNote id => (eraseNote st id w).2.2
  | .purgeFinish id => (purgeFinish st id w).2
  | .entry id blob => ⟨(w.disk.save (.purge, id) blob).2, w.told⟩
  | .list slot max => ⟨(w.disk.list (subjectOf slot) max).2, w.told⟩

/-- The note an operation erases, by `fzn_notes_erase_note` or through
`fzn_notes_purge_finish`. -/
def NotesOp.erases : NotesOp → Option Bytes32
  | .eraseNote id => some id
  | .purgeFinish id => some id
  | _ => none

/-- A run from an empty disk, whose operations end as `outcomes` say. -/
def notesRun (outcomes : List Outcome) (ops : List NotesOp) : Host :=
  ops.foldl (notesStep st) ⟨⟨∅, outcomes⟩, []⟩

end Store

/-! ## What an operation writes -/

section Writes

variable {st : NotesStore} {d d₁ d₂ d' : NotesDisk} {id : Bytes32} {w : Host}

/-- Rows only go, and no mark does. -/
structure Removes (d d' : NotesDisk) : Prop where
  rows : ∀ k b, d'.load k = some b → d.load k = some b
  marks : ∀ id, d'.load (.purged, id) = d.load (.purged, id)

theorem Removes.refl (d : NotesDisk) : Removes d d := ⟨fun _ _ h => h, fun _ => rfl⟩

theorem Removes.trans (h : Removes d d₁) (h' : Removes d₁ d₂) : Removes d d₂ :=
  ⟨fun k b hb => h.rows k b (h'.rows k b hb), fun id => (h'.marks id).trans (h.marks id)⟩

theorem removes_list (d : NotesDisk) (s : Slot) (max : ℕ) :
    Removes d (d.list (subjectOf s) max).2 :=
  ⟨fun k b h => by rwa [Disk.load_list] at h, fun id => Disk.load_list d _ max _⟩

theorem removes_remove (d : NotesDisk) {k : Slot × Bytes32} (h : k.1 ≠ .purged) :
    Removes d (d.remove k).2 := by
  refine ⟨fun k' b hb => Disk.load_remove_imp hb, fun id => Disk.load_remove_ne ?_⟩
  rintro rfl
  exact h rfl

theorem Kept.removes (h : Kept (fun _ => False) d d') : Removes d d' := by
  refine ⟨fun k b hb => ?_, fun id => h.other _ (by simp)⟩
  obtain ⟨s, row⟩ := k
  by_cases hs : s = .history
  · obtain rfl := hs
    rcases h.version row b hb with hb | ⟨_, hfalse, -⟩
    · exact hb
    · exact hfalse.elim
  · rwa [h.other (s, row) hs] at hb

theorem removes_forgetRows (st : NotesStore) (rows : List Bytes32) (d : NotesDisk) :
    Removes d (forgetRows st rows d).2 := by
  induction rows generalizing d with
  | nil => exact Removes.refl d
  | cons row rows ih =>
    have hrow := (kept_historyRemove st (fun _ => False) row d).removes
    unfold forgetRows
    split
    · next heq =>
        rw [heq] at hrow
        exact hrow.trans (ih _)
    · next heq =>
        rw [heq] at hrow
        exact hrow

section

variable (st : NotesStore) (id : Bytes32)

theorem removes_historyForget (d : NotesDisk) : Removes d (historyForget st id d).2 := by
  have heach := (kept_historyEach (fun _ => False) d).removes
  unfold historyForget
  split
  · next heq => rwa [heq] at heach
  · next heq =>
      rw [heq] at heach
      exact heach.trans (removes_forgetRows st _ _)

theorem removes_wrapErase (d : NotesDisk) : Removes d (wrapErase st id d).2 := by
  unfold wrapErase
  split
  · exact Removes.refl d
  · split
    · exact Removes.refl d
    · exact removes_remove d (by simp)

theorem removes_eraseClaims (keys : List Bytes32) (gone : ℕ) (d : NotesDisk) :
    Removes d (eraseClaims st id keys gone d).2.2 := by
  induction keys generalizing gone d with
  | nil => exact Removes.refl d
  | cons key keys ih =>
    unfold eraseClaims
    split
    · exact ih gone d
    split
    · exact ih gone d
    · have hkey : Removes d (d.remove (.note, key)).2 := removes_remove d (by simp)
      split
      · exact hkey.trans (ih _ _)
      · exact hkey

theorem removes_eraseMarked (d : NotesDisk) : Removes d (eraseMarked st id d).2.2 := by
  have hwrap := removes_wrapErase st id d
  unfold eraseMarked
  split
  · next d₁ heq =>
      rw [heq] at hwrap
      have hclaims := removes_list d₁ .note notesMax
      split
      · next heq' =>
          rw [notesClaims] at heq'
          rw [heq'] at hclaims
          exact hwrap.trans hclaims
      · next heq' =>
          rw [notesClaims] at heq'
          rw [heq'] at hclaims
          exact (hwrap.trans hclaims).trans (removes_eraseClaims st id _ 0 _)
  · next heq =>
      rw [heq] at hwrap
      exact hwrap

theorem removes_eraseClaim (issuer : Key) (d : NotesDisk) :
    Removes d (eraseClaim st id issuer d).2 := by
  unfold eraseClaim
  split
  · exact Removes.refl d
  split
  · exact Removes.refl d
  · exact removes_remove d (by simp)

end

/-- Every note's row is of a record, under the key of its claim. -/
def Filed (st : NotesStore) (claims : Set Claim) (d : NotesDisk) : Prop :=
  ∀ key b, d.load (.note, key) = some b → ∃ r, b = noteBlob r.bytes ∧
    claimKey st (recordSubject r) r.issuer = some key ∧ claimOf r ∈ claims

/-- Nothing new is of a note marked before, and no mark goes. -/
structure Tidy (st : NotesStore) (claims : Set Claim) (d d' : NotesDisk) : Prop where
  marks : ∀ id, notesPurged d id = true → notesPurged d' id = true
  notes : ∀ key b, d'.load (.note, key) = some b → d.load (.note, key) = some b ∨
    ∃ r, b = noteBlob r.bytes ∧ claimKey st (recordSubject r) r.issuer = some key ∧
      claimOf r ∈ claims ∧ notesPurged d (recordSubject r) = false
  versions : ∀ row b, d'.load (.history, row) = some b → d.load (.history, row) = some b ∨
    ∃ r, b = noteBlob r.bytes ∧ notesPurged d (recordSubject r) = false
  wraps : ∀ id b, d'.load (.wrap, id) = some b → d.load (.wrap, id) = some b ∨
    notesPurged d id = false

variable {claims : Set Claim}

theorem Removes.tidy (h : Removes d d') : Tidy st claims d d' := by
  refine ⟨fun id hid => ?_, fun key b hb => Or.inl (h.rows _ b hb),
    fun row b hb => Or.inl (h.rows _ b hb), fun id b hb => Or.inl (h.rows _ b hb)⟩
  unfold notesPurged at hid ⊢
  rwa [h.marks]

/-- A row saved in a slot that is none of the notes', versions' and wrap keys'. -/
theorem tidy_save (d : NotesDisk) {k : Slot × Bytes32} (b : Bytes) (hnote : k.1 ≠ .note)
    (hversion : k.1 ≠ .history) (hwrap : k.1 ≠ .wrap) : Tidy st claims d (d.save k b).2 := by
  have hne : ∀ k' : Slot × Bytes32, k'.1 ≠ k.1 → (d.save k b).2.load k' = d.load k' :=
    fun k' hk' => Disk.load_save_ne fun heq => hk' (congrArg Prod.fst heq)
  refine ⟨fun id hid => ?_, fun key c hc => ?_, fun row c hc => ?_, fun id c hc => ?_⟩
  · by_cases hk : (Slot.purged, id) = k
    · obtain rfl := hk
      unfold notesPurged at hid ⊢
      rcases Disk.load_save_self d (.purged, id) b with hsome | ⟨-, hsame⟩
      · rw [hsome]
        rfl
      · rwa [hsame]
    · unfold notesPurged at hid ⊢
      rwa [Disk.load_save_ne hk]
  · rw [hne _ hnote.symm] at hc
    exact Or.inl hc
  · rw [hne _ hversion.symm] at hc
    exact Or.inl hc
  · rw [hne _ hwrap.symm] at hc
    exact Or.inl hc

theorem Tidy.trans_removes (h : Tidy st claims d d₁) (h' : Removes d₁ d₂) :
    Tidy st claims d d₂ := by
  refine ⟨fun id hid => ?_, fun key b hb => h.notes key b (h'.rows _ b hb),
    fun row b hb => h.versions row b (h'.rows _ b hb),
    fun id b hb => h.wraps id b (h'.rows _ b hb)⟩
  have hmark := h.marks id hid
  unfold notesPurged at hmark ⊢
  rwa [h'.marks]

theorem tidy_put {policy : NotesPolicy} {sign : SignOps} {x : Bytes}
    (hinj : st.hash.InjOn (claimInputs claims)) (hfiled : Filed st claims d)
    (hclaims : ∀ r, notesAdmit policy x sign = .ok r → claimOf r ∈ claims) :
    Tidy st claims d (notesPut st policy sign x d).2 := by
  rcases notesPut_cases st policy sign x d with h | ⟨r, hadm, hpurged, h⟩
  · have hsame : ∀ k, (notesPut st policy sign x d).2.load k = d.load k := by
      intro k
      rw [Disk.load, h.2.1, Disk.load]
    exact Removes.tidy ⟨fun k b hb => by rwa [hsame] at hb, fun id => hsame _⟩
  · have hmarks := h.purged
    obtain ⟨key, d₁, hkey, -, hkept, heq⟩ := h
    rw [heq] at hmarks ⊢
    have hdisk := (putWrite_disk r key d₁).1
    refine ⟨fun id hid => (hmarks id).trans hid, fun key' b hb => ?_, fun row b hb => ?_,
      fun id b hb => ?_⟩
    · by_cases hk : key' = key
      · obtain rfl := hk
        rw [hdisk] at hb
        rcases Disk.load_save_self d₁ (.note, key') (noteBlob r.bytes) with hself | ⟨-, hself⟩
        · exact Or.inr ⟨r, Option.some.inj (hb.symm.trans hself), hkey, hclaims r hadm, hpurged⟩
        · rw [hself, hkept.other _ (by simp)] at hb
          exact Or.inl hb
      · rw [hdisk, Disk.load_save_ne (by simpa using hk), hkept.other _ (by simp)] at hb
        exact Or.inl hb
    · rw [hdisk, Disk.load_save_ne (by simp)] at hb
      rcases hkept.version row b hb with hb | ⟨bytes, ⟨held, hheld, rfl⟩, rfl⟩
      · exact Or.inl hb
      · -- the version is what the claim held, a record of the same note
        refine Or.inr ⟨held, rfl, ?_⟩
        cases hload : d.load (.note, key) with
        | none => exact absurd (hheld.symm.trans (loadKey_absent.2 hload)) (by simp)
        | some b =>
          obtain ⟨q, rfl, hqkey, hq⟩ := hfiled key b hload
          obtain rfl := Except.ok.inj (hheld.symm.trans (loadKey_noteBlob hload))
          have hclaim := claimKey_inj hinj hq (hclaims r hadm) hqkey hkey
          rwa [show recordSubject held = recordSubject r from (Prod.mk.inj hclaim).1]
    · rw [hdisk, Disk.load_save_ne (by simp), hkept.other _ (by simp)] at hb
      exact Or.inl hb

theorem tidy_wrapPut (id key : Bytes32) (d : NotesDisk) :
    Tidy st claims d (wrapPut id key d).2 := by
  have hrefl : Tidy st claims d d := (Removes.refl d).tidy
  unfold wrapPut
  split
  · exact hrefl
  next hpurged =>
    split
    · exact hrefl
    · refine ⟨fun id' hid => ?_, fun key' b hb => Or.inl ?_, fun row b hb => Or.inl ?_,
        fun id' b hb => ?_⟩
      · unfold notesPurged at hid ⊢
        rwa [Disk.load_save_ne (by simp)]
      · rwa [Disk.load_save_ne (by simp)] at hb
      · rwa [Disk.load_save_ne (by simp)] at hb
      · by_cases hid : id' = id
        · exact Or.inr (by rw [hid]; exact Bool.eq_false_iff.2 hpurged)
        · rw [Disk.load_save_ne (by simpa using hid)] at hb
          exact Or.inl hb
    · exact hrefl

/-! ## The mark and what goes with it -/

/-- No version of a note is held. -/
def NoVersion (id : Bytes32) (d : NotesDisk) : Prop :=
  ∀ row b r, d.load (.history, row) = some b → blobRecord b = some r → recordSubject r ≠ id

/-- What a mark written leaves: a change of that note's mark, and rows that go. -/
theorem markPurged_disk (st : NotesStore) (claims : Set Claim) (id : Bytes32) (w : Host) :
    Tidy st claims w.disk (markPurged st id w).2.disk ∧
      (∀ id', id' ≠ id → notesPurged (markPurged st id w).2.disk id' = notesPurged w.disk id') ∧
      ∀ id' ∈ w.told, id' ∈ (markPurged st id w).2.told := by
  have hsave : Tidy st claims w.disk (w.disk.save (.purged, id) purgedBlob).2 :=
    tidy_save w.disk purgedBlob (by simp) (by simp) (by simp)
  have hother : ∀ id', id' ≠ id →
      (w.disk.save (.purged, id) purgedBlob).2.load (.purged, id') = w.disk.load (.purged, id') :=
    fun id' hid' => Disk.load_save_ne (by simpa using hid')
  have hforget := removes_historyForget st id (w.disk.save (.purged, id) purgedBlob).2
  unfold markPurged
  split
  · exact ⟨(Removes.refl _).tidy, fun _ _ => rfl, fun _ h => h⟩
  split
  · refine ⟨hsave, fun id' hid' => ?_, fun _ h => h⟩
    unfold notesPurged
    rw [hother id' hid']
  · have hmarks : ∀ id', id' ≠ id →
        notesPurged (historyForget st id (w.disk.save (.purged, id) purgedBlob).2).2 id' =
          notesPurged w.disk id' := by
      intro id' hid'
      unfold notesPurged
      rw [hforget.marks, hother id' hid']
    split
    · next heq =>
        rw [heq] at hmarks hforget
        refine ⟨hsave.trans_removes hforget, hmarks, fun id' hid' => ?_⟩
        show id' ∈ if st.hook then w.told ++ [id] else w.told
        split
        · exact List.mem_append_left _ hid'
        · exact hid'
    · next heq =>
        rw [heq] at hmarks hforget
        exact ⟨hsave.trans_removes hforget, hmarks, fun _ h => h⟩

theorem forgetRows_ok {rows : List Bytes32} (h : (forgetRows st rows d).1 = .ok) :
    ∀ row ∈ rows, (forgetRows st rows d).2.load (.history, row) = none := by
  induction rows generalizing d with
  | nil => exact fun _ h => absurd h List.not_mem_nil
  | cons row rows ih =>
    unfold forgetRows at h ⊢
    split at h
    · next d₁ heq =>
        intro row' hrow'
        rcases List.mem_cons.1 hrow' with rfl | hrow'
        · -- gone in its turn, and no later turn adds a row
          have hgone : d₁.load (.history, row') = none := by
            unfold historyRemove at heq
            obtain ⟨-, heq⟩ := past_check heq nofun
            obtain ⟨herr, rfl⟩ := Prod.mk.inj heq
            split at herr
            · next hremoved => exact Disk.load_of_remove hremoved
            · cases herr
          cases hload : (forgetRows st rows d₁).2.load (.history, row') with
          | none => rfl
          | some b =>
            have := (removes_forgetRows st rows d₁).rows _ b hload
            exact absurd (hgone.symm.trans this) (by simp)
        · exact ih h row' hrow'
    · next hne heq => exact (hne h).elim

/-- The rows of a note's versions. -/
def versionsOf (d : NotesDisk) (id : Bytes32) : List Bytes32 :=
  (((d.rows.keys.filterMap (subjectOf .history)).filterMap fun row =>
    ((d.load (.history, row)).bind blobRecord).map fun r => (row, r)).filter
      fun v => decide (recordSubject v.2 = id)).map Prod.fst

theorem mem_versionsOf {row : Bytes32} : row ∈ versionsOf d id ↔
    ∃ b r, d.load (.history, row) = some b ∧ blobRecord b = some r ∧ recordSubject r = id := by
  unfold versionsOf
  simp only [List.mem_map, List.mem_filter, List.mem_filterMap, Option.map_eq_some_iff,
    Option.bind_eq_some_iff, decide_eq_true_eq]
  constructor
  · rintro ⟨v, ⟨⟨row', -, r, ⟨b, hb, hr⟩, rfl⟩, hid⟩, rfl⟩
    exact ⟨b, r, hb, hr, hid⟩
  · rintro ⟨b, r, hb, hr, hid⟩
    exact ⟨(row, r), ⟨⟨row, ⟨(.history, row), Disk.mem_keys_iff.2 ⟨b, hb⟩, if_pos rfl⟩, r,
      ⟨b, hb, hr⟩, rfl⟩, hid⟩, rfl⟩

theorem noVersion_iff : NoVersion id d ↔ versionsOf d id = [] := by
  rw [List.eq_nil_iff_forall_not_mem]
  constructor
  · intro h row hrow
    obtain ⟨b, r, hb, hr, hid⟩ := mem_versionsOf.1 hrow
    exact h row b r hb hr hid
  · intro h row b r hb hr hid
    exact h row (mem_versionsOf.2 ⟨b, r, hb, hr, hid⟩)

/-- The history is forgotten row by row, where the listing is answered. -/
theorem historyForget_eq (st : NotesStore) (id : Bytes32) (d : NotesDisk) :
    historyForget st id d = match (d.list (subjectOf .history) historyMax).1 with
      | none => (.backend, (d.list (subjectOf .history) historyMax).2)
      | some _ =>
        forgetRows st (versionsOf d id) (d.list (subjectOf .history) historyMax).2 := by
  have hload := Disk.load_list d (subjectOf .history) historyMax
  have heq : ∀ xs, (d.list (subjectOf .history) historyMax).1 = some xs →
      xs = d.rows.keys.filterMap (subjectOf .history) := fun xs => Disk.eq_of_list
  unfold historyForget historyEach versionsOf
  rcases hlist : d.list (subjectOf .history) historyMax with ⟨_ | rows, d'⟩
  · rfl
  · rw [hlist] at hload heq
    obtain rfl := heq rows rfl
    simp only [hload]

/-- **A history forgotten is gone.** -/
theorem historyForget_ok (h : (historyForget st id d).1 = .ok) :
    NoVersion id (historyForget st id d).2 := by
  intro row b r hb hr hid
  have hbefore := (removes_historyForget st id d).rows _ b hb
  have hlisted : row ∈ versionsOf d id := mem_versionsOf.2 ⟨b, r, hbefore, hr, hid⟩
  rw [historyForget_eq] at h hb
  split at h
  · cases h
  · next heq =>
      simp only [heq] at hb
      exact absurd ((forgetRows_ok h row hlisted).symm.trans hb) (by simp)

theorem forgetRows_answers {rows : List Bytes32} (hcan : st.canRemove = true)
    (h : d.Answers rows.length) : (forgetRows st rows d).1 = .ok := by
  induction rows generalizing d with
  | nil => rfl
  | cons row rows ih =>
    rw [List.length_cons] at h
    obtain ⟨hremoved, hrest⟩ := h.remove (.history, row)
    have hstep : historyRemove st row d = (.ok, (d.remove (.history, row)).2) := by
      unfold historyRemove
      rw [if_neg (by simp [hcan])]
      exact congrArg (·, _) (if_pos hremoved)
    unfold forgetRows
    rw [hstep]
    exact ih hrest

/-- A history whose operations are answered is forgotten. -/
theorem historyForget_answers (hcan : st.canRemove = true)
    (hmax : (d.rows.keys.filterMap (subjectOf .history)).length ≤ historyMax)
    (h : d.Answers ((versionsOf d id).length + 1)) : (historyForget st id d).1 = .ok := by
  obtain ⟨hlist, hrest⟩ := h.list hmax
  rw [historyForget_eq, hlist]
  exact forgetRows_answers hcan hrest

/-- **How a call that finds no mark leaves none half done:** the host cannot erase at all;
or the mark is not written; or it is, answered, and the listing of at most
`FZN_NOTES_HISTORY_MAX` versions and every removal behind it are done; or there is neither a
version nor anyone to tell. -/
def MarkTaken (st : NotesStore) (id : Bytes32) (d : NotesDisk) : Prop :=
  st.canRemove = false ∨ notesPurged d id = true ∨ d.next = .refused ∨
    ((d.rows.keys.filterMap (subjectOf .history)).length ≤ historyMax ∧
      d.Answers ((versionsOf d id).length + 2)) ∨
    (st.hook = false ∧ versionsOf d id = [])

theorem versionsOf_save {k : Slot × Bytes32} {b : Bytes} (hk : k.1 ≠ .history) :
    versionsOf (d.save k b).2 id = versionsOf d id := by
  have hkeys : (d.save k b).2.rows.keys.filterMap (subjectOf .history) =
      d.rows.keys.filterMap (subjectOf .history) := Disk.filterMap_save (if_neg hk)
  have hload : ∀ row, (d.save k b).2.load (.history, row) = d.load (.history, row) := by
    intro row
    refine Disk.load_save_ne ?_
    rintro rfl
    exact hk rfl
  unfold versionsOf
  simp only [hkeys, hload]

/-- What a mark half done is not: its history is gone, and its purge is told. -/
def Told (st : NotesStore) (id : Bytes32) (w : Host) : Prop :=
  NoVersion id w.disk ∧ (st.hook = true → id ∈ w.told)

/-- **A mark taken is told**, and its history gone. -/
theorem markPurged_taken (hcan : st.canRemove = true) (htaken : MarkTaken st id w.disk)
    (hbefore : notesPurged w.disk id = false)
    (hafter : notesPurged (markPurged st id w).2.disk id = true) :
    Told st id (markPurged st id w).2 := by
  have hforgets : ∀ d, versionsOf d id = [] → NoVersion id (historyForget st id d).2 := by
    intro d hnone row b r hb hr
    exact noVersion_iff.2 hnone row b r ((removes_historyForget st id d).rows _ b hb) hr
  have hversions : versionsOf (w.disk.save (.purged, id) purgedBlob).2 id = versionsOf w.disk id :=
    versionsOf_save (by simp)
  have hkeys : (w.disk.save (.purged, id) purgedBlob).2.rows.keys.filterMap (subjectOf .history) =
      w.disk.rows.keys.filterMap (subjectOf .history) := Disk.filterMap_save (if_neg (by simp))
  unfold markPurged at hafter ⊢
  rw [if_neg (by simp [hbefore])] at hafter ⊢
  rcases htaken with hno | hmarked | hrefused | ⟨hmax, hanswers⟩ | ⟨hhook, hnone⟩
  · exact absurd (hcan.symm.trans hno) (by simp)
  · exact absurd (hbefore.symm.trans hmarked) (by simp)
  · obtain ⟨hsaved, hrows⟩ := Disk.save_of_refused hrefused (.purged, id) purgedBlob
    rw [if_pos hsaved] at hafter
    unfold notesPurged at hafter hbefore
    rw [Disk.load, hrows] at hafter
    exact absurd (hbefore.symm.trans hafter) (by simp)
  · obtain ⟨hsaved, hrest⟩ := hanswers.save (.purged, id) purgedBlob
    have hok : (historyForget st id (w.disk.save (.purged, id) purgedBlob).2).1 = .ok := by
      refine historyForget_answers hcan ?_ ?_
      · rw [hkeys]
        exact hmax
      · rw [hversions]
        exact hrest
    have hgone := historyForget_ok hok
    rw [if_neg (by simp [hsaved])]
    split
    · next heq =>
        rw [heq] at hgone
        refine ⟨hgone, fun hhook => ?_⟩
        show id ∈ if st.hook then w.told ++ [id] else w.told
        rw [if_pos hhook]
        exact List.mem_append_right _ List.mem_cons_self
    · next hne heq =>
        rw [heq] at hok
        exact (hne hok).elim
  · have hquiet : st.hook = true → id ∈ w.told := fun h => absurd (hhook.symm.trans h) (by simp)
    have hgone := hforgets _ (hversions.trans hnone)
    split
    · exact ⟨noVersion_iff.2 (hversions.trans hnone), hquiet⟩
    split
    · next heq =>
        rw [heq] at hgone
        exact ⟨hgone, fun h => absurd (hhook.symm.trans h) (by simp)⟩
    · next heq =>
        rw [heq] at hgone
        exact ⟨hgone, hquiet⟩

/-! ## An erasure answered -/

/-- No claim on a note is held. -/
def NoClaim (id : Bytes32) (d : NotesDisk) : Prop :=
  ∀ key b r, d.load (.note, key) = some b → blobRecord b = some r → recordSubject r ≠ id

/-- **Nothing of a note is held**, its mark is, and the purge is told. -/
structure Gone (st : NotesStore) (id : Bytes32) (w : Host) : Prop where
  marked : notesPurged w.disk id = true
  claims : NoClaim id w.disk
  wrap : w.disk.load (.wrap, id) = none
  told : Told st id w

theorem NoVersion.removes (h : NoVersion id d) (h' : Removes d d') : NoVersion id d' :=
  fun row b r hb hr => h row b r (h'.rows _ b hb) hr

theorem Filed.tidy (h : Filed st claims d) (h' : Tidy st claims d d') : Filed st claims d' := by
  intro key b hb
  rcases h'.notes key b hb with hb | ⟨r, hb, hkey, hr, -⟩
  · exact h key b hb
  · exact ⟨r, hb, hkey, hr⟩

/-- A row that is filed is read back under its key. -/
theorem Filed.notesGetKey (h : Filed st claims d) {key : Bytes32} {b : Bytes}
    (hb : d.load (.note, key) = some b) :
    ∃ r, blobRecord b = some r ∧ notesGetKey st d key = .ok r := by
  obtain ⟨r, rfl, hkey, -⟩ := h key b hb
  refine ⟨r, blobRecord_noteBlob r, ?_⟩
  unfold Notes.notesGetKey
  simp only [loadKey_noteBlob hb, hkey, if_true]

theorem eraseClaims_ok {keys : List Bytes32} {gone : ℕ} (hfiled : Filed st claims d)
    (h : (eraseClaims st id keys gone d).1 = .ok) :
    ∀ key ∈ keys, ∀ b r, (eraseClaims st id keys gone d).2.2.load (.note, key) = some b →
      blobRecord b = some r → recordSubject r ≠ id := by
  induction keys generalizing gone d with
  | nil => exact fun _ h => absurd h List.not_mem_nil
  | cons key keys ih =>
    -- a row of the head that is left was there before its turn
    have hleft : ∀ gone' d₁, Removes d d₁ → ∀ b r,
        (eraseClaims st id keys gone' d₁).2.2.load (.note, key) = some b →
        blobRecord b = some r →
        d₁.load (.note, key) = some b ∧ notesGetKey st d key = .ok r := by
      intro gone' d₁ hrem b r hb hr
      have hb₁ := (removes_eraseClaims st id keys gone' d₁).rows _ b hb
      obtain ⟨q, hq, hget⟩ := hfiled.notesGetKey (hrem.rows _ b hb₁)
      obtain rfl := Option.some.inj (hr.symm.trans hq)
      exact ⟨hb₁, hget⟩
    unfold eraseClaims at h ⊢
    split at h
    · next err herr =>
        intro key' hkey' b r hb hr
        rcases List.mem_cons.1 hkey' with rfl | hkey'
        · have := (hleft gone d (Removes.refl d) b r hb hr).2
          exact absurd (herr.symm.trans this) (by simp)
        · exact ih hfiled h key' hkey' b r hb hr
    next q hq =>
      split at h
      · next hsubject =>
          rw [if_pos hsubject]
          intro key' hkey' b r hb hr
          rcases List.mem_cons.1 hkey' with rfl | hkey'
          · have := (hleft gone d (Removes.refl d) b r hb hr).2
            obtain rfl := Except.ok.inj (hq.symm.trans this)
            exact hsubject
          · exact ih hfiled h key' hkey' b r hb hr
      next hsubject =>
        rw [if_neg hsubject]
        split at h
        · next hremoved =>
            have hrem : Removes d (d.remove (.note, key)).2 := removes_remove d (by simp)
            rw [if_pos hremoved]
            intro key' hkey' b r hb hr
            rcases List.mem_cons.1 hkey' with rfl | hkey'
            · have := (hleft (gone + 1) _ hrem b r hb hr).1
              exact absurd ((Disk.load_of_remove hremoved).symm.trans this) (by simp)
            · exact ih (hfiled.tidy hrem.tidy) h key' hkey' b r hb hr
        · cases h

theorem wrapErase_ok (h : (wrapErase st id d).1 = .ok) :
    (wrapErase st id d).2.load (.wrap, id) = none := by
  unfold wrapErase at h ⊢
  split at h
  · next habsent =>
      unfold wrapGet at habsent
      split at habsent
      · assumption
      · split at habsent <;> cases habsent
  · split at h
    · cases h
    · next hcan =>
        rw [if_neg hcan]
        refine Disk.load_of_remove ?_
        by_contra hno
        rw [if_neg hno] at h
        cases h

theorem eraseMarked_ok (hfiled : Filed st claims d) (h : (eraseMarked st id d).1 = .ok) :
    NoClaim id (eraseMarked st id d).2.2 ∧
      (eraseMarked st id d).2.2.load (.wrap, id) = none := by
  have hwrap := removes_wrapErase st id d
  have hgone := @wrapErase_ok st d id
  have hafter := removes_eraseMarked st id d
  unfold eraseMarked at h hafter ⊢
  split at h
  · next d₁ heq =>
      rw [heq] at hwrap hgone
      have hclaims := removes_list d₁ .note notesMax
      split at h
      · cases h
      · next keys d₂ hkeys =>
          have hlist : (d₁.list (subjectOf .note) notesMax).1 = some keys := congrArg Prod.fst hkeys
          rw [notesClaims] at hkeys
          rw [hkeys] at hclaims
          have hfiled₂ : Filed st claims d₂ := hfiled.tidy (hwrap.trans hclaims).tidy
          have hrest := removes_eraseClaims st id keys 0 d₂
          refine ⟨fun key b r hb hr => ?_, ?_⟩
          · have hmem : key ∈ keys := (Disk.mem_of_list hlist).2 ⟨(.note, key), b, if_pos rfl,
              (hclaims.trans hrest).rows _ b hb⟩
            exact eraseClaims_ok hfiled₂ h key hmem b r hb hr
          · cases hload : (eraseClaims st id keys 0 d₂).2.2.load (.wrap, id) with
            | none => rfl
            | some b =>
              have := (hclaims.trans hrest).rows _ b hload
              exact absurd ((hgone rfl).symm.trans this) (by simp)
  · next hne heq => exact (hne h).elim

theorem markPurged_ok (h : (markPurged st id w).1 = .ok) :
    notesPurged (markPurged st id w).2.disk id = true := by
  have hmarks := (removes_historyForget st id (w.disk.save (.purged, id) purgedBlob).2).marks id
  unfold markPurged at h ⊢
  by_cases hmark : notesPurged w.disk id = true
  · rw [if_pos hmark]
    exact hmark
  rw [if_neg hmark] at h ⊢
  by_cases hsaved : (w.disk.save (.purged, id) purgedBlob).1 = false
  · rw [if_pos hsaved] at h
    cases h
  rw [if_neg hsaved] at h ⊢
  rw [Disk.load_of_save (Bool.eq_true_of_not_eq_false hsaved)] at hmarks
  split at h
  · next d₁ heq =>
      rw [heq] at hmarks
      show (d₁.load (.purged, id)).isSome = true
      rw [show d₁.load (.purged, id) = some purgedBlob from hmarks]
      rfl
  · cases h

theorem Tidy.noVersion (h : Tidy st claims d d') (hmark : notesPurged d id = true)
    (hno : NoVersion id d) : NoVersion id d' := by
  intro row b r hb hr hid
  rcases h.versions row b hb with hb | ⟨q, rfl, hq⟩
  · exact hno row b r hb hr hid
  · obtain rfl := Option.some.inj (hr.symm.trans (blobRecord_noteBlob q))
    rw [hid, hmark] at hq
    exact absurd hq (by simp)

/-- **What is gone stays gone**, whatever is tidy. -/
theorem Gone.tidy {w' : Host} (h : Gone st id w) (htidy : Tidy st claims w.disk w'.disk)
    (htold : ∀ id ∈ w.told, id ∈ w'.told) : Gone st id w' := by
  refine ⟨htidy.marks id h.marked, fun key b r hb hr hid => ?_, ?_,
    htidy.noVersion h.marked h.told.1, fun hhook => htold id (h.told.2 hhook)⟩
  · rcases htidy.notes key b hb with hb | ⟨q, rfl, -, -, hq⟩
    · exact h.claims key b r hb hr hid
    · obtain rfl := Option.some.inj (hr.symm.trans (blobRecord_noteBlob q))
      rw [hid, h.marked] at hq
      exact absurd hq (by simp)
  · cases hload : w'.disk.load (.wrap, id) with
    | none => rfl
    | some b =>
      rcases htidy.wraps id b hload with hb | hq
      · exact absurd (h.wrap.symm.trans hb) (by simp)
      · exact absurd (h.marked.symm.trans hq) (by simp)

/-! ## One operation -/

theorem eraseNote_disk (st : NotesStore) (claims : Set Claim) (id : Bytes32) (w : Host) :
    Tidy st claims w.disk (eraseNote st id w).2.2.disk ∧
      (∀ id', id' ≠ id → notesPurged (eraseNote st id w).2.2.disk id' = notesPurged w.disk id') ∧
      ∀ id' ∈ w.told, id' ∈ (eraseNote st id w).2.2.told := by
  obtain ⟨htidy, hmarks, htold⟩ := markPurged_disk st claims id w
  unfold eraseNote
  split
  · exact ⟨(Removes.refl _).tidy, fun _ _ => rfl, fun _ h => h⟩
  split
  · next w₁ heq =>
      rw [heq] at htidy hmarks htold
      have hrest := removes_eraseMarked st id w₁.disk
      refine ⟨htidy.trans_removes hrest, fun id' hid' => ?_, htold⟩
      rw [← hmarks id' hid']
      unfold notesPurged
      rw [hrest.marks]
  · next heq =>
      rw [heq] at htidy hmarks htold
      exact ⟨htidy, hmarks, htold⟩

/-- A purge whose mark this call writes is told, where the mark is taken. -/
theorem eraseNote_taken (htaken : MarkTaken st id w.disk)
    (hbefore : notesPurged w.disk id = false)
    (hafter : notesPurged (eraseNote st id w).2.2.disk id = true) :
    Told st id (eraseNote st id w).2.2 := by
  have hmark := @markPurged_taken st id w
  unfold eraseNote at hafter ⊢
  by_cases hcan : st.canRemove = false
  · rw [if_pos hcan] at hafter
    exact absurd (hbefore.symm.trans hafter) (by simp)
  rw [if_neg hcan] at hafter ⊢
  have hmark := hmark (Bool.eq_true_of_not_eq_false hcan) htaken hbefore
  split at hafter
  · next w₁ heq =>
      rw [heq] at hmark
      have hrest := removes_eraseMarked st id w₁.disk
      have hmarked : notesPurged w₁.disk id = true := by
        unfold notesPurged at hafter ⊢
        rwa [hrest.marks] at hafter
      exact ⟨(hmark hmarked).1.removes hrest, (hmark hmarked).2⟩
  · next heq =>
      rw [heq] at hmark
      exact hmark hafter

/-- **An erasure answered has left nothing of the note**, if what was marked was told. -/
theorem eraseNote_ok (hfiled : Filed st claims w.disk)
    (htold : notesPurged w.disk id = true → Told st id w) (htaken : MarkTaken st id w.disk)
    (h : (eraseNote st id w).1 = .ok) : Gone st id (eraseNote st id w).2.2 := by
  obtain ⟨htidy, -, hall⟩ := eraseNote_disk st claims id w
  have hparts : notesPurged (eraseNote st id w).2.2.disk id = true ∧
      NoClaim id (eraseNote st id w).2.2.disk ∧
      (eraseNote st id w).2.2.disk.load (.wrap, id) = none := by
    have hmark := @markPurged_ok st id w
    have hfiled' := hfiled.tidy (markPurged_disk st claims id w).1
    unfold eraseNote at h ⊢
    by_cases hcan : st.canRemove = false
    · rw [if_pos hcan] at h
      cases h
    rw [if_neg hcan] at h ⊢
    split at h
    · next w₁ heq =>
        rw [heq] at hmark hfiled'
        obtain ⟨hclaims, hwrap⟩ := eraseMarked_ok hfiled' h
        refine ⟨?_, hclaims, hwrap⟩
        have hmarked := hmark rfl
        unfold notesPurged at hmarked ⊢
        rwa [(removes_eraseMarked st id w₁.disk).marks]
    · next hne heq => exact (hne h).elim
  refine ⟨hparts.1, hparts.2.1, hparts.2.2, ?_⟩
  cases hbefore : notesPurged w.disk id with
  | true =>
    obtain ⟨hversions, hhook⟩ := htold hbefore
    exact ⟨htidy.noVersion hbefore hversions, fun hh => hall id (hhook hh)⟩
  | false => exact eraseNote_taken htaken hbefore hparts.1

theorem purgeFinish_disk (st : NotesStore) (id : Bytes32) (w : Host) :
    Removes (eraseNote st id w).2.2.disk (purgeFinish st id w).2.disk ∧
      (purgeFinish st id w).2.told = (eraseNote st id w).2.2.told := by
  unfold purgeFinish
  split
  · next heq =>
      rw [heq]
      exact ⟨removes_remove _ (by simp), rfl⟩
  · next heq =>
      rw [heq]
      exact ⟨Removes.refl _, rfl⟩

/-- An operation that erases does so and removes rows behind it. -/
theorem erases_step (st : NotesStore) (w : Host) {op : NotesOp} (h : op.erases = some id) :
    Removes (eraseNote st id w).2.2.disk (notesStep st w op).disk ∧
      (notesStep st w op).told = (eraseNote st id w).2.2.told := by
  cases op <;> simp only [NotesOp.erases, Option.some.injEq, reduceCtorEq] at h <;> subst h
  · exact ⟨Removes.refl _, rfl⟩
  · exact purgeFinish_disk st _ w

/-- The records an operation puts are of these claims. -/
def NotesOp.PutsIn (claims : Set Claim) (op : NotesOp) : Prop :=
  ∀ policy sign x, op = .put policy sign x → ∀ r, notesAdmit policy x sign = .ok r →
    claimOf r ∈ claims

/-- **One operation is tidy**, marks no note but the one it erases, and takes back nothing
told. -/
theorem step_disk (op : NotesOp) (hinj : st.hash.InjOn (claimInputs claims))
    (hfiled : Filed st claims w.disk) (hputs : op.PutsIn claims) :
    Tidy st claims w.disk (notesStep st w op).disk ∧
      (∀ id, op.erases ≠ some id →
        notesPurged (notesStep st w op).disk id = notesPurged w.disk id) ∧
      ∀ id ∈ w.told, id ∈ (notesStep st w op).told := by
  have hremoves : ∀ d', Removes w.disk d' → Tidy st claims w.disk d' ∧
      ∀ id, notesPurged d' id = notesPurged w.disk id := by
    intro d' h
    refine ⟨h.tidy, fun id => ?_⟩
    unfold notesPurged
    rw [h.marks]
  have herases : ∀ id, op.erases = some id → Tidy st claims w.disk (notesStep st w op).disk ∧
      (∀ id', op.erases ≠ some id' →
        notesPurged (notesStep st w op).disk id' = notesPurged w.disk id') ∧
      ∀ id ∈ w.told, id ∈ (notesStep st w op).told := by
    intro id hid
    obtain ⟨htidy, hmarks, htold⟩ := eraseNote_disk st claims id w
    obtain ⟨hrest, htold'⟩ := erases_step st w hid
    refine ⟨htidy.trans_removes hrest, fun id' hid' => ?_, fun id' h => ?_⟩
    · rw [← hmarks id' (by rintro rfl; exact hid' hid)]
      unfold notesPurged
      rw [hrest.marks]
    · rw [htold']
      exact htold id' h
  cases op with
  | put policy sign x =>
    exact ⟨tidy_put hinj hfiled (hputs policy sign x rfl),
      fun id _ => (put_marks st policy sign x w.disk).1 id, fun _ h => h⟩
  | wrapPut id key =>
    refine ⟨tidy_wrapPut id key w.disk, fun id' _ => ?_, fun _ h => h⟩
    show notesPurged (wrapPut id key w.disk).2 id' = notesPurged w.disk id'
    unfold wrapPut notesPurged
    split
    · rfl
    · split
      · rfl
      · rw [Disk.load_save_ne (by simp)]
      · rfl
  | wrapErase id =>
    obtain ⟨htidy, hmarks⟩ := hremoves _ (removes_wrapErase st id w.disk)
    exact ⟨htidy, fun id' _ => hmarks id', fun _ h => h⟩
  | historyRemove row =>
    obtain ⟨htidy, hmarks⟩ := hremoves _ (kept_historyRemove st _ row w.disk).removes
    exact ⟨htidy, fun id' _ => hmarks id', fun _ h => h⟩
  | eraseClaim id issuer =>
    obtain ⟨htidy, hmarks⟩ := hremoves _ (removes_eraseClaim st id issuer w.disk)
    exact ⟨htidy, fun id' _ => hmarks id', fun _ h => h⟩
  | eraseNote id => exact herases id rfl
  | purgeFinish id => exact herases id rfl
  | entry id blob =>
    refine ⟨tidy_save w.disk blob (by simp) (by simp) (by simp), fun id' _ => ?_, fun _ h => h⟩
    show notesPurged (w.disk.save (.purge, id) blob).2 id' = notesPurged w.disk id'
    unfold notesPurged
    rw [Disk.load_save_ne (by simp)]
  | list slot max =>
    obtain ⟨htidy, hmarks⟩ := hremoves _ (removes_list w.disk slot max)
    exact ⟨htidy, fun id' _ => hmarks id', fun _ h => h⟩

/-! ## Runs -/

/-- **The invariant:** rows are filed, and what is marked is told and has no version. -/
structure Settled (st : NotesStore) (claims : Set Claim) (w : Host) : Prop where
  filed : Filed st claims w.disk
  told : ∀ id, notesPurged w.disk id = true → Told st id w

theorem Settled.step {op : NotesOp} (h : Settled st claims w)
    (hinj : st.hash.InjOn (claimInputs claims)) (hputs : op.PutsIn claims)
    (htaken : ∀ id, op.erases = some id → MarkTaken st id w.disk) :
    Settled st claims (notesStep st w op) := by
  obtain ⟨htidy, hmarks, htold⟩ := step_disk op hinj h.filed hputs
  refine ⟨h.filed.tidy htidy, fun id hid => ?_⟩
  cases hbefore : notesPurged w.disk id with
  | true =>
    obtain ⟨hversions, hhook⟩ := h.told id hbefore
    exact ⟨htidy.noVersion hbefore hversions, fun hh => htold id (hhook hh)⟩
  | false =>
    -- a mark that is new is of the note the operation erases
    have herases : op.erases = some id := by
      by_contra hne
      rw [hmarks id hne, hbefore] at hid
      exact absurd hid (by simp)
    obtain ⟨hrest, heq⟩ := erases_step st w herases
    have hmarked : notesPurged (eraseNote st id w).2.2.disk id = true := by
      unfold notesPurged at hid ⊢
      rwa [hrest.marks] at hid
    obtain ⟨hversions, hhook⟩ := eraseNote_taken (htaken id herases) hbefore hmarked
    exact ⟨hversions.removes hrest, fun hh => heq ▸ hhook hh⟩

end Writes

section Runs

variable {st : NotesStore} {claims : Set Claim} {outcomes : List Outcome} {ops : List NotesOp}

theorem notesRun_concat (st : NotesStore) (outcomes : List Outcome) (ops : List NotesOp)
    (op : NotesOp) : notesRun st outcomes (ops ++ [op]) = notesStep st (notesRun st outcomes ops) op := by
  unfold notesRun
  rw [List.foldl_append]
  rfl

theorem settled_run (hinj : st.hash.InjOn (claimInputs claims))
    (hputs : ∀ op ∈ ops, op.PutsIn claims)
    (htaken : ∀ pre op, pre ++ [op] <+: ops → ∀ id, op.erases = some id →
      MarkTaken st id (notesRun st outcomes pre).disk) :
    Settled st claims (notesRun st outcomes ops) := by
  refine prefix_induction (P := fun pre => Settled st claims (notesRun st outcomes pre)) ?_ ?_
  · refine ⟨fun key b hb => ?_, fun id hid => ?_⟩
    · cases hb
    · cases hid
  · intro pre op hle h
    rw [notesRun_concat]
    exact h.step hinj (hputs op (hle.subset (by simp))) (htaken pre op hle)

/-- **A purge is final and complete**, in a run none of whose calls leaves a mark half done:
once `fzn_notes_erase_note` has answered OK for a note, by itself or for
`fzn_notes_purge_finish`, the store holds no claim, no wrap key and no version of it and the
hook has been told, there and in every later state. -/
theorem purge_final (hinj : st.hash.InjOn (claimInputs claims))
    (hputs : ∀ op ∈ ops, op.PutsIn claims)
    (htaken : ∀ pre op, pre ++ [op] <+: ops → ∀ id, op.erases = some id →
      MarkTaken st id (notesRun st outcomes pre).disk) :
    ∀ pre op post id, pre ++ op :: post <+: ops → op.erases = some id →
      (eraseNote st id (notesRun st outcomes pre)).1 = .ok →
      Gone st id (notesRun st outcomes (pre ++ op :: post)) := by
  intro pre op post id hle herases hok
  have hmem : ∀ op' ∈ pre ++ op :: post, op'.PutsIn claims := fun op' h => hputs op' (hle.subset h)
  induction post using List.reverseRecOn with
  | nil =>
    have hpre : pre <+: ops := (List.prefix_append pre [op]).trans hle
    have hsettled : Settled st claims (notesRun st outcomes pre) :=
      settled_run hinj (fun op' h => hputs op' (hpre.subset h))
        fun pre' op' h' => htaken pre' op' (h'.trans hpre)
    have hgone := eraseNote_ok hsettled.filed (hsettled.told id) (htaken pre op hle id herases) hok
    obtain ⟨hrest, heq⟩ := erases_step st (notesRun st outcomes pre) herases
    rw [notesRun_concat]
    have htidy : Tidy st claims (eraseNote st id (notesRun st outcomes pre)).2.2.disk
        (notesStep st (notesRun st outcomes pre) op).disk := hrest.tidy
    exact hgone.tidy htidy fun _ h => heq ▸ h
  | append_singleton post op' ih =>
    have hassoc : pre ++ op :: (post ++ [op']) = (pre ++ op :: post) ++ [op'] := by simp
    rw [hassoc] at hle hmem ⊢
    have hpre : pre ++ op :: post <+: ops := (List.prefix_append _ [op']).trans hle
    have hsettled : Settled st claims (notesRun st outcomes (pre ++ op :: post)) :=
      settled_run hinj (fun op'' h => hputs op'' (hpre.subset h))
        fun pre' op'' h' => htaken pre' op'' (h'.trans hpre)
    have hgone := ih hpre fun op'' h => hmem op'' (List.mem_append_left _ h)
    obtain ⟨htidy, -, htold⟩ := step_disk op' hinj hsettled.filed
      (hmem op' (by simp))
    rw [notesRun_concat]
    exact hgone.tidy htidy htold

end Runs

/-! ## A note of two versions -/

/-- The record behind `firstNote`. -/
def secondNote (id issuer : ℕ) : Bytes :=
  [1, 130] ++ putBe 32 issuer ++ putBe 32 id ++ putBe 4 0 ++ putBe 4 noteKind ++ putBe 8 2 ++
    putBe 32 3 ++ putBe 8 0 ++ putBe 2 0 ++ putBe 64 10

/-- A store that keeps versions, and a hook. -/
def keepingStore : NotesStore := ⟨tailHash, true, 0, fun _ => none, true, true⟩

/-- A note and its second record, which keeps the first as a version. -/
def twoVersions : List NotesOp :=
  [.put bothWriters acceptingSign (firstNote 5 1), .put bothWriters acceptingSign (secondNote 5 1)]

/-- The mark is written and the listing of the history is refused. -/
def listRefused : List Outcome := List.replicate 6 .done ++ [.refused]

/-- **A mark half done:** the first call fails behind its mark, the second finds the mark and
answers OK, and the version stays and nothing was told. -/
theorem purge_half_done :
    (eraseNote keepingStore 5 (notesRun keepingStore listRefused twoVersions)).1 = .backend ∧
      (eraseNote keepingStore 5
        (notesRun keepingStore listRefused (twoVersions ++ [.eraseNote 5]))).1 = .ok ∧
      ¬ Gone keepingStore 5
        (notesRun keepingStore listRefused (twoVersions ++ [.eraseNote 5, .eraseNote 5])) ∧
      (notesRun keepingStore listRefused (twoVersions ++ [.eraseNote 5, .eraseNote 5])).told =
        [] := by
  refine ⟨by decide +kernel, by decide +kernel, fun hgone => ?_, by decide +kernel⟩
  have hlen : (versionsOf (notesRun keepingStore listRefused
      (twoVersions ++ [.eraseNote 5, .eraseNote 5])).disk 5).length = 1 := by decide +kernel
  rw [noVersion_iff.1 hgone.told.1] at hlen
  exact absurd hlen (by decide)

/-- The same on a disk that answers, and a record offered again. -/
def erasedAndOffered : List NotesOp :=
  twoVersions ++ [.eraseNote 5, .put bothWriters acceptingSign (firstNote 5 1)]

theorem putsIn_erasedAndOffered : ∀ op ∈ erasedAndOffered, op.PutsIn {(5, 1)} := by
  have hclaim : ∀ x, (BitVec.ofNat 256 (getBe x 34 32), BitVec.ofNat 256 (getBe x 2 32)) =
      ((5, 1) : Claim) → ∀ policy sign r, notesAdmit policy x sign = .ok r →
        claimOf r ∈ ({(5, 1)} : Set Claim) := by
    intro x hx policy sign r hadm
    obtain rfl := notesAdmit_bytes hadm
    exact hx
  have hfirst := hclaim (firstNote 5 1) (by decide +kernel)
  have hsecond := hclaim (secondNote 5 1) (by decide +kernel)
  intro op hop policy sign x hput r
  subst hput
  simp only [erasedAndOffered, twoVersions, List.cons_append, List.nil_append, List.mem_cons,
    NotesOp.put.injEq, List.not_mem_nil, or_false, reduceCtorEq, false_or] at hop
  rcases hop with ⟨-, -, rfl⟩ | ⟨-, -, rfl⟩ | ⟨-, -, rfl⟩
  · exact hfirst policy sign r
  · exact hsecond policy sign r
  · exact hfirst policy sign r

theorem purge_final_offered :
    Gone keepingStore 5 (notesRun keepingStore [] erasedAndOffered) := by
  have hinj : keepingStore.hash.InjOn (claimInputs {(5, 1)}) := by
    rintro x ⟨c, rfl, rfl⟩ y ⟨c', rfl, rfl⟩ d - -
    rfl
  have htaken : MarkTaken keepingStore 5 (notesRun keepingStore [] twoVersions).disk := by
    refine Or.inr (Or.inr (Or.inr (Or.inl ⟨by decide +kernel, fun o ho => ?_⟩)))
    rw [show (notesRun keepingStore [] twoVersions).disk.outcomes = [] by decide +kernel,
      List.take_nil] at ho
    exact absurd ho List.not_mem_nil
  have hok : (eraseNote keepingStore 5 (notesRun keepingStore [] twoVersions)).1 = .ok := by
    decide +kernel
  refine purge_final hinj putsIn_erasedAndOffered ?_ twoVersions (.eraseNote 5)
    [.put bothWriters acceptingSign (firstNote 5 1)] 5 List.prefix_rfl rfl hok
  refine forall_prefix fun n hn id herases => ?_
  have hn' : n < 4 := hn
  obtain rfl | rfl | rfl | rfl : n = 0 ∨ n = 1 ∨ n = 2 ∨ n = 3 := by omega
  · cases herases
  · cases herases
  · obtain rfl := Option.some.inj herases
    exact htaken
  · cases herases

end Notes
end Fuzznet
