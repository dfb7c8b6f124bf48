/-
# The notes a host holds

`notes/store.c`: an index of each claim's latest record, a claim being a note and a writer
of it, filed under a hash of the two.  `fzn_notes_put` admits a record, refuses it for a
note marked purged, and writes it where its claim holds nothing, something older, or
damage; what it supersedes may be kept as a version in the history.

The rows stand on a disk whose saves, removals and listings may fail (`Lib.Disk`), each slot
with 32-byte subjects.  Its loads answer: the source's load says absent and failed alike, so
`load_key` takes a row it could not read for one that is not there, and a put may then write
an older record over it.  A row is loaded whole: the buffers it is loaded into are as large
as any row written here.
-/

import Fuzznet.Lib.Disk
import Fuzznet.Record.Format
import Fuzznet.Session.Derive

namespace Fuzznet
namespace Notes

open Wire Record Lib
open Session (bytes32)

/-- `fzn_record_subject`: the note a note's record is about. -/
def recordSubject (r : RecordView) : Bytes32 := BitVec.ofNat 256 (getBe r.bytes 34 32)

/-- `fzn_record_kind`. -/
def recordKind (r : RecordView) : ℕ := getBe r.bytes 70 4

/-- `fzn_record_issued_at`. -/
def recordIssuedAt (r : RecordView) : UInt64 := UInt64.ofNat (getBe r.bytes 114 8)

/-- `fzn_record_issued_ms`: a time too small to be milliseconds was stamped in seconds. -/
def recordIssuedMs (r : RecordView) : UInt64 :=
  if recordIssuedAt r < 100000000000 then recordIssuedAt r * 1000 else recordIssuedAt r

/-- `fzn_notes_err_t`. -/
inductive NotesErr
  | ok
  | malformed
  | denied
  | full
  | equivocation
  | backend
  | absent
  | shape
  | unsupported
  | pending
  | purged
  deriving DecidableEq, Repr

/-- `fzn_notes_denial_t`. -/
inductive NotesDenial
  | none
  | policyUnspelled
  | malformed
  | kind
  | signature
  | notAdmitted
  deriving DecidableEq, Repr

/-- `fzn_notes_policy_t`. -/
structure NotesPolicy where
  spelled : Bool
  admitted : List Key

/-- The slots of `fzn_persist_slot_t` the notes are kept in. -/
inductive Slot
  | note
  | purge
  | purged
  | wrap
  | history
  deriving DecidableEq, Repr

/-- The disk under a store; its loads answer. -/
abbrev NotesDisk := Disk (Slot × Bytes32) Bytes

/-- `fzn_notes_store_t`: the hash, whether the backend can remove, the bound on the claims
(0 for `FZN_NOTES_MAX`), a ceiling on those held where the backend can say one, whether
versions are kept, and whether a purge is told. -/
structure NotesStore where
  hash : HashOps
  canRemove : Bool
  bound : ℕ
  atMost : NotesDisk → Option ℕ
  history : Bool
  hook : Bool

/-- `FZN_NOTE_KIND`. -/
def noteKind : ℕ := 0x36

/-- `FZN_NOTE_STREAM`. -/
def noteStream : UInt32 := 0

/-- `FZN_NOTES_MAX`. -/
def notesMax : ℕ := 262144

/-- `FZN_NOTES_HISTORY_MAX`. -/
def historyMax : ℕ := 4096

/-- `fzn_persist_head_write`: the version and the tag. -/
def head (tag : UInt8) : Bytes := [1, tag]

/-- `fzn_persist_head_check`, for a body of `body` bytes. -/
def headCheck (blob : Bytes) (body : ℕ) (tag : UInt8) : Bool :=
  decide (blob.length = 2 + body ∧ blob.take 2 = head tag)

/-- `FZN_PERSIST_BLOB_NOTE`. -/
def noteTag : UInt8 := 17

/-- `FZN_PERSIST_BLOB_NOTE_PURGED`. -/
def purgedTag : UInt8 := 32

/-- `FZN_PERSIST_BLOB_NOTE_WRAP`. -/
def wrapTag : UInt8 := 33

/-- A record behind the head, as it is kept. -/
def noteBlob (record : Bytes) : Bytes := head noteTag ++ record

/-- The record in a row; none where what is there is no record. -/
def blobRecord (blob : Bytes) : Option RecordView :=
  if blob.length ≤ 2 ∨ headCheck blob (blob.length - 2) noteTag = false then none
  else match recordOpen (blob.drop 2) with
    | .error _ => none
    | .ok r => some r

/-- `fzn_notes_admit`; the policy before the record, its shape before its kind, its
signature before who signed it. -/
def notesAdmit (policy : NotesPolicy) (record : Bytes) (sign : SignOps) :
    Except NotesDenial RecordView :=
  if policy.spelled = false then .error .policyUnspelled
  else match recordOpen record with
    | .error _ => .error .malformed
    | .ok r =>
      if recordKind r ≠ noteKind ∨ r.stream ≠ noteStream then .error .kind
      else match recordVerify r sign with
        | .error _ => .error .signature
        | .ok () => if policy.admitted.any (fun key => decide (key = r.issuer)) then .ok r
            else .error .notAdmitted

/-- `CLAIM_LABEL`, `"fuzznet-note-v1"` and a zero. -/
def claimLabel : Bytes :=
  [0x66, 0x75, 0x7a, 0x7a, 0x6e, 0x65, 0x74, 0x2d, 0x6e, 0x6f, 0x74, 0x65, 0x2d, 0x76, 0x31, 0]

/-- What `fzn_notes_claim_key` hashes. -/
def claimInput (id issuer : Bytes32) : Bytes := claimLabel ++ bytes32 id ++ bytes32 issuer

section Store

variable (st : NotesStore)

/-- `fzn_notes_claim_key`; a hash that refuses is `FZN_NOTES_ERR_BACKEND`. -/
def claimKey (id issuer : Bytes32) : Option Bytes32 := st.hash.hash (claimInput id issuer)

/-- `load_key`. -/
def loadKey (d : NotesDisk) (key : Bytes32) : Except NotesErr RecordView :=
  match d.load (.note, key) with
  | none => .error .absent
  | some blob => match blobRecord blob with
    | none => .error .shape
    | some r => .ok r

/-- The subjects of a slot. -/
def subjectOf (s : Slot) (k : Slot × Bytes32) : Option Bytes32 :=
  if k.1 = s then some k.2 else none

/-- `fzn_notes_claims`. -/
def notesClaims (d : NotesDisk) : Option (List Bytes32) × NotesDisk :=
  d.list (subjectOf .note) notesMax

/-- `fzn_notes_purged`: any row is a mark. -/
def notesPurged (d : NotesDisk) (id : Bytes32) : Bool := (d.load (.purged, id)).isSome

/-! ## The history -/

/-- `fzn_notes_history_each`: the rows that open, with their records. -/
def historyEach (d : NotesDisk) : Option (List (Bytes32 × RecordView)) × NotesDisk :=
  match d.list (subjectOf .history) historyMax with
  | (none, d) => (none, d)
  | (some rows, d) => (some (rows.filterMap fun row =>
    ((d.load (.history, row)).bind blobRecord).map fun r => (row, r)), d)

/-- `fzn_notes_history_remove`. -/
def historyRemove (row : Bytes32) (d : NotesDisk) : NotesErr × NotesDisk :=
  if st.canRemove = false then (.unsupported, d)
  else (if (d.remove (.history, row)).1 then .ok else .backend, (d.remove (.history, row)).2)

/-- One turn of `pick_row` without an id: the oldest so far, the first of several. -/
def pickOldest (p : Option (Bytes32 × UInt64)) (v : Bytes32 × RecordView) :
    Option (Bytes32 × UInt64) :=
  match p with
  | none => some (v.1, recordIssuedMs v.2)
  | some (row, ms) => if recordIssuedMs v.2 < ms then some (v.1, recordIssuedMs v.2)
      else some (row, ms)

/-- The oldest version let go; false where there is none to let go or it stays. -/
def historyDropOldest (d : NotesDisk) : Bool × NotesDisk :=
  match historyEach d with
  | (none, d) => (false, d)
  | (some vs, d) => match vs.foldl pickOldest none with
    | none => (false, d)
    | some (row, _) => (decide ((historyRemove st row d).1 = .ok), (historyRemove st row d).2)

/-- `history_keep`: a version under the hash of its bytes.  One that cannot be kept stops
nothing. -/
def historyKeep (bytes : Bytes) (d : NotesDisk) : NotesDisk :=
  match st.hash.hash bytes with
  | none => d
  | some row => match d.list (subjectOf .history) historyMax with
    | (some rows, d) =>
      if rows.length ≥ historyMax then
        if (historyDropOldest st d).1 then
          ((historyDropOldest st d).2.save (.history, row) (noteBlob bytes)).2
        else (historyDropOldest st d).2
      else (d.save (.history, row) (noteBlob bytes)).2
    | (none, d) => (d.save (.history, row) (noteBlob bytes)).2

/-! ## The put -/

/-- What `fzn_notes_put` answers: the error, `*wrote` and `*why`. -/
structure PutAnswer where
  err : NotesErr
  wrote : Bool
  why : NotesDenial
  deriving DecidableEq, Repr

/-- An admitted record's put that writes nothing. -/
def putRefused (err : NotesErr) (d : NotesDisk) : PutAnswer × NotesDisk := (⟨err, false, .none⟩, d)

/-- The record written under its claim. -/
def putWrite (r : RecordView) (key : Bytes32) (d : NotesDisk) : PutAnswer × NotesDisk :=
  if (d.save (.note, key) (noteBlob r.bytes)).1 then
    (⟨.ok, true, .none⟩, (d.save (.note, key) (noteBlob r.bytes)).2)
  else (⟨.backend, false, .none⟩, (d.save (.note, key) (noteBlob r.bytes)).2)

/-- The bound on the claims. -/
def claimBound : ℕ := if st.bound = 0 then notesMax else st.bound

/-- A new claim: the bound, which the backend's ceiling may settle, and the list does
otherwise. -/
def putNew (r : RecordView) (key : Bytes32) (d : NotesDisk) : PutAnswer × NotesDisk :=
  if (st.atMost d).any fun n => decide (n < claimBound st) then putWrite r key d
  else match notesClaims d with
    | (none, d) => putRefused .full d
    | (some keys, d) => if keys.length ≥ claimBound st then putRefused .full d
        else putWrite r key d

/-- A claim that holds `held`: supersession before anything is written. -/
def putOver (held r : RecordView) (key : Bytes32) (d : NotesDisk) : PutAnswer × NotesDisk :=
  if r.seq = held.seq ∧ r.bytes ≠ held.bytes then putRefused .equivocation d
  else if r.seq ≤ held.seq then putRefused .ok d
  else if st.history then putWrite r key (historyKeep st held.bytes d)
  else putWrite r key d

/-- The put of an admitted record of a note that is not purged. -/
def putAdmitted (r : RecordView) (d : NotesDisk) : PutAnswer × NotesDisk :=
  match claimKey st (recordSubject r) r.issuer with
  | none => putRefused .backend d
  | some key => match loadKey d key with
    | .ok held => putOver st held r key d
    | .error .absent => putNew st r key d
    | .error _ => putWrite r key d

/-- `FZN_RECORD_MAX_LEN`. -/
def recordMaxLen : ℕ := recordHeaderLen + recordBodyMax + sigLen

/-- `fzn_notes_put`. -/
def notesPut (policy : NotesPolicy) (sign : SignOps) (record : Bytes) (d : NotesDisk) :
    PutAnswer × NotesDisk :=
  if record.length > recordMaxLen then putRefused .malformed d
  else match notesAdmit policy record sign with
    | .error why => (⟨.denied, false, why⟩, d)
    | .ok r => if notesPurged d (recordSubject r) then putRefused .purged d else putAdmitted st r d

/-- `fzn_notes_get_key`: what came back must be filed where it is. -/
def notesGetKey (d : NotesDisk) (key : Bytes32) : Except NotesErr RecordView :=
  match loadKey d key with
  | .error err => .error err
  | .ok r => match claimKey st (recordSubject r) r.issuer with
    | none => .error .backend
    | some check => if check = key then .ok r else .error .shape

end Store

/-! ## What a row says -/

theorem headCheck_head (tag : UInt8) (body : Bytes) :
    headCheck (head tag ++ body) body.length tag = true := by
  refine decide_eq_true ⟨?_, ?_⟩
  · rw [List.length_append]
    rfl
  · rfl

/-- **A row holds the record it was written for.** -/
theorem blobRecord_noteBlob (r : RecordView) : blobRecord (noteBlob r.bytes) = some r := by
  have hlen : (noteBlob r.bytes).length = 2 + r.bytes.length := by
    rw [noteBlob, List.length_append]
    rfl
  have hpos := length_pos_of_open r
  unfold blobRecord
  rw [if_neg, show (noteBlob r.bytes).drop 2 = r.bytes from rfl, recordOpen_self]
  rintro (hshort | hhead)
  · omega
  · rw [hlen, Nat.add_sub_cancel_left, noteBlob, headCheck_head] at hhead
    exact absurd hhead (by simp)

variable {key : Bytes32}

theorem loadKey_noteBlob {d : NotesDisk} {r : RecordView}
    (h : d.load (.note, key) = some (noteBlob r.bytes)) : loadKey d key = .ok r := by
  unfold loadKey
  rw [h]
  simp only [blobRecord_noteBlob]

theorem loadKey_absent {d : NotesDisk} :
    loadKey d key = .error .absent ↔ d.load (.note, key) = none := by
  unfold loadKey
  constructor
  · intro h
    split at h
    · assumption
    · split at h <;> cases h
  · intro h
    rw [h]

theorem subjectOf_some {s : Slot} {k : Slot × Bytes32} :
    subjectOf s k = some key ↔ k = (s, key) := by
  unfold subjectOf
  constructor
  · intro h
    split at h
    · next hs => exact Prod.ext hs (Option.some.inj h)
    · cases h
  · rintro rfl
    exact if_pos rfl

/-! ## What keeping a version changes -/

section Kept

variable {st : NotesStore} {d d₁ d₂ : NotesDisk} {P : Bytes → Prop}

/-- Nothing outside the history changes, and what is new there is a version `P` allows. -/
structure Kept (P : Bytes → Prop) (d d' : NotesDisk) : Prop where
  other : ∀ k : Slot × Bytes32, k.1 ≠ .history → d'.load k = d.load k
  version : ∀ row b, d'.load (.history, row) = some b →
    d.load (.history, row) = some b ∨ ∃ bytes, P bytes ∧ b = noteBlob bytes
  behind : d'.Behind d

theorem Kept.refl (P : Bytes → Prop) (d : NotesDisk) : Kept P d d :=
  ⟨fun _ _ => rfl, fun _ _ h => Or.inl h, Disk.Behind.refl d⟩

theorem Kept.trans (h : Kept P d d₁) (h' : Kept P d₁ d₂) : Kept P d d₂ := by
  refine ⟨fun k hk => (h'.other k hk).trans (h.other k hk), fun row b hb => ?_,
    h'.behind.trans h.behind⟩
  rcases h'.version row b hb with hb | hb
  · exact h.version row b hb
  · exact Or.inr hb

theorem kept_list (P : Bytes → Prop) (d : NotesDisk) (s : Slot) (max : ℕ) :
    Kept P d (d.list (subjectOf s) max).2 :=
  ⟨fun k _ => Disk.load_list d _ max k, fun row b h => Or.inl (by rwa [Disk.load_list] at h),
    Disk.list_behind d _ max⟩

theorem kept_save {bytes : Bytes} (hP : P bytes) (d : NotesDisk) (row : Bytes32) :
    Kept P d (d.save (.history, row) (noteBlob bytes)).2 := by
  refine ⟨fun k hk => Disk.load_save_ne (by rintro rfl; exact hk rfl), fun row' b h => ?_,
    Disk.save_behind d _ _⟩
  by_cases hrow : row' = row
  · obtain rfl := hrow
    rcases Disk.load_save_self d (.history, row') (noteBlob bytes) with hself | ⟨-, hself⟩
    · exact Or.inr ⟨bytes, hP, Option.some.inj (h.symm.trans hself)⟩
    · exact Or.inl (hself.symm.trans h)
  · rw [Disk.load_save_ne (by simpa using hrow)] at h
    exact Or.inl h

theorem kept_historyEach (P : Bytes → Prop) (d : NotesDisk) : Kept P d (historyEach d).2 := by
  have hdisk : (historyEach d).2 = (d.list (subjectOf .history) historyMax).2 := by
    unfold historyEach
    split <;> next heq => rw [heq]
  rw [hdisk]
  exact kept_list P d .history historyMax

theorem kept_historyRemove (st : NotesStore) (P : Bytes → Prop) (row : Bytes32) (d : NotesDisk) :
    Kept P d (historyRemove st row d).2 := by
  unfold historyRemove
  split
  · exact Kept.refl P d
  · exact ⟨fun k hk => Disk.load_remove_ne (by rintro rfl; exact hk rfl),
      fun row b h => Or.inl (Disk.load_remove_imp h), Disk.remove_behind d _⟩

theorem kept_historyDropOldest (P : Bytes → Prop) (d : NotesDisk) :
    Kept P d (historyDropOldest st d).2 := by
  have hdisk := kept_historyEach P d
  unfold historyDropOldest
  split
  · next heq => rwa [heq] at hdisk
  · next heq =>
      rw [heq] at hdisk
      split
      · exact hdisk
      · exact hdisk.trans (kept_historyRemove st P _ _)

/-- **Keeping a version changes the history only.** -/
theorem kept_historyKeep {bytes : Bytes} (st : NotesStore) (hP : P bytes) (d : NotesDisk) :
    Kept P d (historyKeep st bytes d) := by
  have hlist := kept_list P d .history historyMax
  unfold historyKeep
  split
  · exact Kept.refl P d
  split
  · next heq =>
      rw [heq] at hlist
      split
      · split
        · exact (hlist.trans (kept_historyDropOldest P _)).trans (kept_save hP _ _)
        · exact hlist.trans (kept_historyDropOldest P _)
      · exact hlist.trans (kept_save hP _ _)
  · next heq =>
      rw [heq] at hlist
      exact hlist.trans (kept_save hP _ _)

end Kept

/-! ## What a put changes -/

section Put

variable {st : NotesStore} {d : NotesDisk} {r : RecordView}

/-- A put that writes nothing leaves the rows. -/
def Unwritten (d : NotesDisk) (p : PutAnswer × NotesDisk) : Prop :=
  p.1.wrote = false ∧ p.2.rows = d.rows ∧ p.2.Behind d

/-- A put that comes to the write: the record goes over nothing, over damage or over an
older one, which may be kept as a version. -/
def Written (st : NotesStore) (r : RecordView) (d : NotesDisk) (p : PutAnswer × NotesDisk) :
    Prop :=
  ∃ key d₁, claimKey st (recordSubject r) r.issuer = some key ∧
    (∀ held, loadKey d key = .ok held → held.seq < r.seq) ∧
    Kept (fun bytes => ∃ held, loadKey d key = .ok held ∧ bytes = held.bytes) d d₁ ∧
    p = putWrite r key d₁

theorem unwritten_refused (err : NotesErr) {d' : NotesDisk} (h : d'.rows = d.rows)
    (h' : d'.Behind d) : Unwritten d (putRefused err d') :=
  ⟨rfl, h, h'⟩

theorem putOver_cases {held : RecordView} (hkey : claimKey st (recordSubject r) r.issuer = some key)
    (hheld : loadKey d key = .ok held) :
    Unwritten d (putOver st held r key d) ∨ Written st r d (putOver st held r key d) := by
  have hrefl : Disk.Behind d d := Disk.Behind.refl d
  unfold putOver
  split
  · exact Or.inl (unwritten_refused .equivocation rfl hrefl)
  split
  · exact Or.inl (unwritten_refused .ok rfl hrefl)
  next hseq =>
    have hlt : ∀ held', loadKey d key = .ok held' → held'.seq < r.seq := by
      intro held' hheld'
      obtain rfl := Except.ok.inj (hheld.symm.trans hheld')
      exact UInt64.not_le.1 hseq
    split
    · exact Or.inr ⟨key, _, hkey, hlt, kept_historyKeep st ⟨held, hheld, rfl⟩ d, rfl⟩
    · exact Or.inr ⟨key, d, hkey, hlt, Kept.refl _ d, rfl⟩

theorem putNew_cases (hkey : claimKey st (recordSubject r) r.issuer = some key)
    (hheld : loadKey d key = .error .absent) :
    Unwritten d (putNew st r key d) ∨ Written st r d (putNew st r key d) := by
  have hlt : ∀ held, loadKey d key = .ok held → held.seq < r.seq := by
    intro held hok
    exact absurd (hheld.symm.trans hok) (by simp)
  have hrows := Disk.list_rows d (subjectOf .note) notesMax
  have hbehind := Disk.list_behind d (subjectOf .note) notesMax
  unfold putNew
  split
  · exact Or.inr ⟨key, d, hkey, hlt, Kept.refl _ d, rfl⟩
  split
  · next heq =>
      rw [notesClaims] at heq
      rw [heq] at hrows hbehind
      exact Or.inl (unwritten_refused .full hrows hbehind)
  · next heq =>
      have hkept := kept_list (fun bytes => ∃ held, loadKey d key = .ok held ∧ bytes = held.bytes)
        d .note notesMax
      rw [notesClaims] at heq
      rw [heq] at hrows hbehind hkept
      split
      · exact Or.inl (unwritten_refused .full hrows hbehind)
      · exact Or.inr ⟨key, _, hkey, hlt, hkept, rfl⟩

/-- **An admitted record's put writes nothing or comes to its write.** -/
theorem putAdmitted_cases (st : NotesStore) (r : RecordView) (d : NotesDisk) :
    Unwritten d (putAdmitted st r d) ∨ Written st r d (putAdmitted st r d) := by
  unfold putAdmitted
  split
  · exact Or.inl (unwritten_refused .backend rfl (Disk.Behind.refl d))
  next key hkey =>
    split
    · next held hheld => exact putOver_cases hkey hheld
    · next hheld => exact putNew_cases hkey hheld
    · next err hne hheld =>
        refine Or.inr ⟨key, d, hkey, fun held hok => ?_, Kept.refl _ d, rfl⟩
        exact absurd (hheld.symm.trans hok) (by simp)

/-- **A put writes nothing, or it is of a record admitted and of no purged note.** -/
theorem notesPut_cases (st : NotesStore) (policy : NotesPolicy) (sign : SignOps) (x : Bytes)
    (d : NotesDisk) : Unwritten d (notesPut st policy sign x d) ∨
      ∃ r, notesAdmit policy x sign = .ok r ∧ notesPurged d (recordSubject r) = false ∧
        Written st r d (notesPut st policy sign x d) := by
  unfold notesPut
  split
  · exact Or.inl (unwritten_refused .malformed rfl (Disk.Behind.refl d))
  split
  · exact Or.inl ⟨rfl, rfl, Disk.Behind.refl d⟩
  next r hadm =>
    split
    · exact Or.inl (unwritten_refused .purged rfl (Disk.Behind.refl d))
    · next hpurged =>
        rcases putAdmitted_cases st r d with h | h
        · exact Or.inl h
        · exact Or.inr ⟨r, hadm, Bool.eq_false_iff.2 hpurged, h⟩

end Put

/-! ## A note's fields

`notes/note.c`.  A node's content is a note's meta: its flags, colour and times and the
reference of the blob its text is sealed in, 94 bytes.  The payload in the blob is a header
and the title, the text and the labels.  What `fzn_note_meta_write` writes is what
`fzn_note_meta_open` reads (`noteMetaOpen_write`).

The key in a reference is wrapped under the note's own: wrapping is its own way back
(`noteWrap_noteWrap`). -/

/-- `fzn_note_err_t`, without `FZN_NOTE_OK` and the errors of a text's blob. -/
inductive NoteErr
  | null
  | short
  | version
  | partition
  | capacity
  | len
  | blobLen
  | type
  | crypto
  deriving DecidableEq, Repr

/-- `fzn_note_blob_ref_t`. -/
structure NoteBlobRef where
  root : Bytes32
  key : Bytes32
  length : UInt64
  deriving DecidableEq, Repr

/-- `fzn_note_meta_t`. -/
structure NoteMeta where
  createdAtMs : UInt64
  editedAtMs : UInt64
  colour : UInt32
  flags : UInt8
  content : NoteBlobRef
  deriving DecidableEq, Repr

/-- `fzn_note_t`, what a writer hands the author. -/
structure NoteFields where
  title : Bytes
  text : Bytes
  labels : Bytes
  colour : UInt32
  flags : UInt8
  deriving DecidableEq, Repr

/-- `FZN_NOTE_TYPE_NONE`. -/
def noteTypeNone : UInt16 := 0

/-- `FZN_NOTE_TYPE_NOTE`. -/
def noteTypeNote : UInt16 := 1

/-- `FZN_NOTE_TYPE_LIST`. -/
def noteTypeList : UInt16 := 2

/-- `FZN_NOTE_TYPE_FOLDER`. -/
def noteTypeFolder : UInt16 := 3

/-- `FZN_NOTE_META_VERSION`. -/
def noteMetaVersion : UInt8 := 3

/-- `FZN_NOTE_META_LEN`. -/
def noteMetaLen : ℕ := 94

/-- `FZN_NOTE_META_FLAGS_KNOWN`. -/
def noteMetaFlagsKnown : UInt8 := 7

/-- `FZN_NOTE_PAYLOAD_VERSION`. -/
def notePayloadVersion : UInt8 := 1

/-- `FZN_NOTE_PAYLOAD_HEADER_LEN`. -/
def notePayloadHeaderLen : ℕ := 9

/-- `FZN_NOTE_PAYLOAD_MAX`. -/
def notePayloadMax : ℕ := 256 * 1024

/-- `FZN_NOTE_TITLE_MAX`. -/
def noteTitleMax : ℕ := 255

/-- `FZN_NOTE_LABELS_MAX`. -/
def noteLabelsMax : ℕ := 1024

/-- `fzn_note_type_writable`. -/
def noteTypeWritable (contentType : UInt16) : Bool :=
  decide (contentType = noteTypeNote ∨ contentType = noteTypeList ∨ contentType = noteTypeFolder)

/-- `fzn_note_item_next`, from `at`: where the next item begins. -/
def noteItemNext (text : Bytes) (cursor : ℕ) : Except NoteErr ℕ :=
  if cursor ≥ text.length then .error .short
  else if text.length - cursor < 3 then .error .partition
  else if getBe text (cursor + 1) 2 > text.length - cursor - 3 then .error .partition
  else .ok (cursor + 3 + getBe text (cursor + 1) 2)

/-- The loop over a list's items. -/
def itemsParse (text : Bytes) (cursor : ℕ) : Except NoteErr Unit :=
  match _ : noteItemNext text cursor with
  | .ok next => itemsParse text next
  | .error .short => .ok ()
  | .error err => .error err
termination_by text.length - cursor
decreasing_by
  rename_i h
  unfold noteItemNext at h
  split_ifs at h
  obtain rfl := Except.ok.inj h
  omega

/-- `fzn_note_shape_ok`. -/
def noteShapeOk (contentType : UInt16) (note : NoteFields) : Except NoteErr Unit :=
  if note.flags &&& ~~~noteMetaFlagsKnown ≠ 0 then .error .type
  else if contentType = noteTypeFolder then
    if note.text.length ≠ 0 ∨ note.labels.length ≠ 0 then .error .partition else .ok ()
  else if contentType = noteTypeList then itemsParse note.text 0
  else if contentType = noteTypeNote then .ok ()
  else .error .type

/-- `fzn_note_meta_open`. -/
def noteMetaOpen (contentType : UInt16) (content : Bytes) : Except NoteErr NoteMeta :=
  if contentType = noteTypeNone then .error .type
  else if content.length < noteMetaLen then .error .short
  else if getBe content 0 1 ≠ noteMetaVersion.toNat then .error .version
  else if content.length ≠ noteMetaLen then .error .partition
  else if UInt8.ofNat (getBe content 1 1) &&& ~~~noteMetaFlagsKnown ≠ 0 then .error .type
  else if getBe content 86 8 < notePayloadHeaderLen ∨ getBe content 86 8 > notePayloadMax then
    .error .blobLen
  else .ok ⟨UInt64.ofNat (getBe content 6 8), UInt64.ofNat (getBe content 14 8),
    UInt32.ofNat (getBe content 2 4), UInt8.ofNat (getBe content 1 1),
    ⟨BitVec.ofNat 256 (getBe content 22 32), BitVec.ofNat 256 (getBe content 54 32),
      UInt64.ofNat (getBe content 86 8)⟩⟩

/-- `fzn_note_meta_write`. -/
def noteMetaWrite (m : NoteMeta) : Except NoteErr Bytes :=
  if m.flags &&& ~~~noteMetaFlagsKnown ≠ 0 then .error .type
  else if m.content.length.toNat < notePayloadHeaderLen ∨
      m.content.length.toNat > notePayloadMax then .error .blobLen
  else .ok (putBe 1 noteMetaVersion.toNat ++ (putBe 1 m.flags.toNat ++ (putBe 4 m.colour.toNat ++
    (putBe 8 m.createdAtMs.toNat ++ (putBe 8 m.editedAtMs.toNat ++ (bytes32 m.content.root ++
      (bytes32 m.content.key ++ putBe 8 m.content.length.toNat)))))))

/-- `fzn_note_payload_write`, into a buffer of `FZN_NOTE_PAYLOAD_MAX`. -/
def notePayloadWrite (note : NoteFields) : Except NoteErr Bytes :=
  if note.title.length > noteTitleMax ∨ note.labels.length > noteLabelsMax ∨
      note.text.length > notePayloadMax then .error .len
  else if notePayloadHeaderLen + note.title.length + note.text.length + note.labels.length >
      notePayloadMax then .error .len
  else .ok (putBe 1 notePayloadVersion.toNat ++ (putBe 2 note.title.length ++
    (putBe 2 note.labels.length ++ (putBe 4 note.text.length ++
      (note.title ++ (note.text ++ note.labels))))))

/-- The label of `fzn_note_wrap`, `"fuzznet.note.wrap"`. -/
def wrapLabel : Bytes :=
  [0x66, 0x75, 0x7a, 0x7a, 0x6e, 0x65, 0x74, 0x2e, 0x6e, 0x6f, 0x74, 0x65, 0x2e, 0x77, 0x72, 0x61,
    0x70]

/-- `fzn_note_wrap`: the key under the pad of the note's wrap key and the blob's root. -/
def noteWrap (hash : HashOps) (wrapKey root key : Bytes32) : Except NoteErr Bytes32 :=
  match hash.hash (wrapLabel ++ (bytes32 wrapKey ++ bytes32 root)) with
  | none => .error .crypto
  | some pad => .ok (key ^^^ pad)

/-! ## What is written is read -/

end Notes
end Fuzznet
