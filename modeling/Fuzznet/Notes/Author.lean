/-
# Notes made and moved

`notes/author.c`.  The record of a note made or moved comes from `chain`, which signs it as the
next of this host's stream; it is asked after everything that can refuse, and what it hands
out is put into the index.  So a note made goes behind every claim its parent has, a note
moved behind those on other notes, but for ties at the end of the range, and no way up from a
note moved comes back to it but over another writer's claim on it (`notes_go_last`).

The random source, the seal and the chain are the caller's.  A view is kept while the store's
stamp stands, which moves with any note written (`StampMoves`).
-/

import Fuzznet.Notes.View
import Fuzznet.Notes.Purge
import Fuzznet.Notes.Store

namespace Fuzznet
namespace Notes

open Wire Record Lib
open Fuzznet.Tree
open Session (bytes32)

/-- `fzn_notes_author_t`: the store and the backend it is on, this host's key and what it signs
with, the policy its own records go through, the seal of a payload, and the chain: a record of
a kind about a subject, of a body, at a time. -/
structure NotesAuthor where
  store : NotesStore
  ops : ℕ
  issuer : Key
  sign : SignOps
  policy : NotesPolicy
  sealFn : Bytes → Option NoteBlobRef
  chain : ℕ → Bytes32 → Bytes → UInt64 → Option Bytes

/-- What the author works on: the view, which is scratch, and the disk. -/
structure Desk where
  view : NotesView
  disk : NotesDisk

/-- What the random source gives a create: an id and a wrap key. -/
structure Draws where
  id : Option Bytes32
  wrapKey : Option Bytes32

/-- `held_t`. -/
structure HeldNote where
  parent : Bytes32
  order : UInt64
  contentType : UInt16
  noteMeta : NoteMeta

/-! ## What is written -/

section Author

variable (a : NotesAuthor)

/-- `wrapped`: `ref`'s key under the wrap key held for the note. -/
def wrapped (d : NotesDisk) (id : Bytes32) (ref : NoteBlobRef) : Except NotesErr NoteBlobRef :=
  match wrapGet d id with
  | .error .absent => .error .pending
  | .error err => .error err
  | .ok wk => match noteWrap a.store.hash (BitVec.ofNat 256 (getBe wk 0 32)) ref.root ref.key with
    | .error _ => .error .malformed
    | .ok key => .ok { ref with key := key }

/-- `fzn_notes_get`. -/
def notesGet (d : NotesDisk) (id issuer : Bytes32) : Except NotesErr RecordView :=
  match claimKey a.store id issuer with
  | none => .error .backend
  | some key => notesGetKey a.store d key

/-- `take`. -/
def takeNode (node : TreeNode) : Except NotesErr HeldNote :=
  match noteMetaOpen node.contentType node.content with
  | .error _ => .error .shape
  | .ok noteMeta => .ok ⟨node.parent, node.order, node.contentType, noteMeta⟩

/-- This host's own claim on a note, where it reads as a node. -/
def ownNode (d : NotesDisk) (id : Bytes32) : Option TreeNode :=
  match notesGet a d id a.issuer with
  | .error _ => none
  | .ok r => match treeOpen r with
    | .error _ => none
    | .ok node => some node

/-- `held_note`: this host's own claim first, else any writer's. -/
def heldNote (stamp : Option UInt64) (id : Bytes32) (k : Desk) :
    Except NotesErr HeldNote × Desk :=
  match ownNode a k.disk id with
  | some node => (takeNode node, k)
  | none => match viewLoad a.store a.ops stamp k.view k.disk with
    | ((.ok, v), d) => match v.nodes.find? fun node => decide (node.id = id) with
      | some node => (takeNode node, ⟨v, d⟩)
      | none => (.error .absent, ⟨v, d⟩)
    | ((err, v), d) => (.error err, ⟨v, d⟩)

/-- `index_takes`. -/
def indexTakes (id : Bytes32) (d : NotesDisk) : NotesErr × NotesDisk :=
  if (a.policy.spelled && a.policy.admitted.any fun key => decide (key = a.issuer)) = false then
    (.denied, d)
  else match notesGet a d id a.issuer with
    | .ok _ => (.ok, d)
    | .error _ => match notesClaims d with
      | (none, d) => (.backend, d)
      | (some keys, d) => (if keys.length < notesMax then .ok else .full, d)

/-- `write_note`: the chain last, after everything that can refuse. -/
def writeNote (id parent : Bytes32) (order : UInt64) (contentType : UInt16) (noteMeta : NoteMeta)
    (now : UInt64) (d : NotesDisk) : NotesErr × NotesDisk :=
  match noteMetaWrite noteMeta with
  | .error _ => (.malformed, d)
  | .ok content => match treeBody parent order contentType content recordBodyMax with
    | .error _ => (.malformed, d)
    | .ok body => match indexTakes a id d with
      | (.ok, d) => match a.chain noteKind id body now with
        | none => (.backend, d)
        | some record =>
          let put := notesPut a.store a.policy a.sign record d
          (if put.1.err ≠ .ok then put.1.err else if put.1.wrote then .ok else .shape, put.2)
      | (err, d) => (err, d)

/-- `seal_payload`. -/
def sealPayload (contentType : UInt16) (note : NoteFields) : Except NotesErr NoteBlobRef :=
  match noteShapeOk contentType note with
  | .error _ => .error .malformed
  | .ok () => match notePayloadWrite note with
    | .error _ => .error .malformed
    | .ok payload => match a.sealFn payload with
      | none => .error .backend
      | some ref => .ok ref

/-- The content of a create sealed, under the wrap key kept for the note. -/
def sealContent (contentType : UInt16) (fields : NoteFields) (id : Bytes32) (d : NotesDisk) :
    Except NotesErr NoteBlobRef :=
  match sealPayload a contentType ⟨fields.title, fields.text, fields.labels, 0, 0⟩ with
  | .error err => .error err
  | .ok ref => wrapped a d id ref

/-- A create from where the note has its id and its wrap key. -/
def createPlaced (stamp : Option UInt64) (id parent : Bytes32) (contentType : UInt16)
    (fields : NoteFields) (createdAt now : UInt64) (k : Desk) : NotesErr × Desk :=
  match sealContent a contentType fields id k.disk with
  | .error err => (err, ⟨k.view, (wrapErase a.store id k.disk).2⟩)
  | .ok ref => match viewLoad a.store a.ops stamp k.view k.disk with
    | ((.ok, v), d) => match orderAfter v.nodes parent none with
      | .error err => (err, ⟨v, (wrapErase a.store id d).2⟩)
      | .ok order =>
        let wrote := writeNote a id parent order contentType
          ⟨if createdAt ≠ 0 then createdAt else now, now, fields.colour, fields.flags, ref⟩ now d
        if wrote.1 ≠ .ok then (wrote.1, ⟨v, (wrapErase a.store id wrote.2).2⟩)
        else (.ok, ⟨v, wrote.2⟩)
    | ((err, v), d) => (err, ⟨v, d⟩)

/-- The id of a create: the all-zero id is the root, which is not a node. -/
def drawnId (id : Bytes32) : Bytes32 := if treeIsRoot id then 1#256 <<< 248 else id

/-- `fzn_notes_create_dated`, with the id it wrote out. -/
def createDated (draws : Draws) (stamp : Option UInt64) (parent : Bytes32) (contentType : UInt16)
    (fields : NoteFields) (createdAt now : UInt64) (k : Desk) :
    (NotesErr × Option Bytes32) × Desk :=
  if noteTypeWritable contentType = false then ((.malformed, none), k)
  else if fields.flags &&& ~~~noteMetaFlagsKnown ≠ 0 then ((.malformed, none), k)
  else match draws.id with
    | none => ((.backend, none), k)
    | some id => match draws.wrapKey with
      | none => ((.backend, some (drawnId id)), k)
      | some wk => match wrapPut (drawnId id) wk k.disk with
        | (.ok, d) =>
          let made := createPlaced a stamp (drawnId id) parent contentType fields createdAt now
            ⟨k.view, d⟩
          ((made.1, some (drawnId id)), made.2)
        | (err, d) => ((err, some (drawnId id)), ⟨k.view, d⟩)

/-- `fzn_notes_move`. -/
def notesMove (stamp : Option UInt64) (id parent : Bytes32) (now : UInt64) (k : Desk) :
    NotesErr × Desk :=
  if id = parent then (.malformed, k)
  else if treeIsRoot id then (.absent, k)
  else match heldNote a stamp id k with
    | (.error err, k) => (err, k)
    | (.ok h, k) => match viewLoad a.store a.ops stamp k.view k.disk with
      | ((.ok, v), d) =>
        if above v.nodes id parent then (.malformed, ⟨v, d⟩)
        else match orderAfter v.nodes parent (some id) with
          | .error err => (err, ⟨v, d⟩)
          | .ok order =>
            let wrote := writeNote a id parent order h.contentType
              { h.noteMeta with editedAtMs := now } now d
            (wrote.1, ⟨v, wrote.2⟩)
      | ((err, v), d) => (err, ⟨v, d⟩)

end Author

/-! ## What the disk holds -/

/-- A claim the store holds, and reads as a node. -/
def HeldClaim (st : NotesStore) (d : NotesDisk) (c : RecordView × TreeNode) : Prop :=
  ∃ key, readNode st d key = some c

/-- A view of what the disk holds. -/
def Shows (st : NotesStore) (d : NotesDisk) (v : NotesView) : Prop :=
  ∀ node, node ∈ v.nodes ↔ ∃ r, HeldClaim st d (r, node)

/-- The stamp moves with any note written: a view kept by it shows the disk. -/
def StampMoves (st : NotesStore) (ops : ℕ) (stamp : Option UInt64) (k : Desk) : Prop :=
  stamp.isSome → k.view.loadedFrom = some ops → k.view.loadedAt = stamp.getD 0 →
    Shows st k.disk k.view

/-- A record handed out is of this host, of the kind and the body asked for, about the
subject. -/
def ChainKeeps (a : NotesAuthor) : Prop :=
  ∀ kind id body now record r, a.chain kind id body now = some record →
    recordOpen record = .ok r →
    recordKind r = kind ∧ recordSubject r = id ∧ recordBody r = body ∧ r.issuer = a.issuer

section Holds

variable {st : NotesStore} {d d' : NotesDisk} {c : RecordView × TreeNode} {key : Bytes32}

theorem readNode_congr (h : d'.load (.note, key) = d.load (.note, key)) :
    readNode st d' key = readNode st d key := by
  unfold readNode notesGetKey
  rw [loadKey_congr h]

/-- A claim read has its row. -/
theorem load_of_readNode (h : readNode st d key = some c) : ∃ b, d.load (.note, key) = some b := by
  unfold readNode notesGetKey loadKey at h
  cases hload : d.load (.note, key) with
  | none =>
    rw [hload] at h
    cases h
  | some b => exact ⟨b, rfl⟩

/-- A claim read is filed under its note and its writer. -/
theorem claimKey_of_readNode (h : readNode st d key = some c) :
    claimKey st c.2.id c.1.issuer = some key := by
  unfold readNode at h
  split at h
  · cases h
  next r hget =>
  split at h
  · cases h
  split at h
  · cases h
  next node hopen =>
  obtain rfl := Option.some.inj h
  have hid : node.id = recordSubject r := by
    unfold treeOpen at hopen
    obtain ⟨-, hopen⟩ := past_check hopen nofun
    exact (congrArg TreeNode.id (Except.ok.inj hopen)).symm
  unfold notesGetKey at hget
  split at hget
  · cases hget
  split at hget
  · cases hget
  next check hcheck =>
  split at hget
  · next heq =>
      obtain rfl := Except.ok.inj hget
      rw [hid, hcheck, heq]
  · cases hget

theorem SameNotes.refl (d : NotesDisk) : SameNotes d d := fun _ => rfl

theorem SameNotes.heldClaim (h : SameNotes d d') : HeldClaim st d' c ↔ HeldClaim st d c :=
  exists_congr fun key => by rw [readNode_congr (h key)]

theorem SameNotes.shows {v : NotesView} (h : SameNotes d d') :
    Shows st d' v ↔ Shows st d v :=
  forall_congr' fun _ => iff_congr Iff.rfl (exists_congr fun _ => h.heldClaim)

theorem sameNotes_claims (d : NotesDisk) : SameNotes d (notesClaims d).2 :=
  fun _ => Disk.load_list d _ _ _

/-- What the loop reads. -/
theorem nodes_of_viewRead {keys : List Bytes32} {s t : ViewRead}
    (h : viewRead st d keys s = (true, t)) :
    t.nodes = s.nodes ++ keys.filterMap fun key => (readNode st d key).map Prod.snd := by
  induction keys generalizing s with
  | nil =>
    obtain rfl := (Prod.mk.inj h).2
    exact (List.append_nil _).symm
  | cons key keys ih =>
    rw [viewRead] at h
    split at h
    · cases h
    split at h
    · next hread => rw [ih h, List.filterMap_cons_none (by rw [hread]; rfl)]
    · next r node hread =>
        rw [ih h, List.filterMap_cons_some (b := node) (by rw [hread]; rfl), List.append_assoc]
        rfl

/-- **A view loaded shows the disk**, kept or read. -/
theorem viewLoad_ok {ops : ℕ} {stamp : Option UInt64} {v v' : NotesView}
    (hstamp : StampMoves st ops stamp ⟨v, d⟩) (h : viewLoad st ops stamp v d = ((.ok, v'), d')) :
    SameNotes d d' ∧ Shows st d v' := by
  unfold viewLoad at h
  split at h
  · next hkept =>
      obtain ⟨hview, rfl⟩ := Prod.mk.inj h
      obtain rfl := (Prod.mk.inj hview).2
      exact ⟨SameNotes.refl d, hstamp hkept.1 hkept.2.1 hkept.2.2⟩
  have hsame := sameNotes_claims d
  split at h
  · cases h
  next keys d₁ hclaims =>
    rw [hclaims] at hsame
    split at h
    · cases h
    next s hread =>
      split at h
      · cases h
      · obtain ⟨hview, rfl⟩ := Prod.mk.inj h
        obtain rfl := (Prod.mk.inj hview).2
        refine ⟨hsame, fun node => ?_⟩
        show node ∈ s.nodes ↔ _
        rw [nodes_of_viewRead hread, List.nil_append, List.mem_filterMap]
        have hkeys : (d.list (subjectOf .note) notesMax).1 = some keys := by
          rw [← notesClaims, hclaims]
        constructor
        · rintro ⟨key, -, hnode⟩
          obtain ⟨⟨r, node⟩, hread, rfl⟩ := Option.map_eq_some_iff.1 hnode
          exact ⟨r, key, by rw [← readNode_congr (hsame key), hread]⟩
        · rintro ⟨r, key, hnode⟩
          obtain ⟨b, hb⟩ := load_of_readNode hnode
          refine ⟨key, (Disk.mem_of_list hkeys).2 ⟨(.note, key), b, subjectOf_some.2 rfl, hb⟩, ?_⟩
          rw [readNode_congr (hsame key), hnode]
          rfl

end Holds

/-! ## A claim written -/

section Write

variable {a : NotesAuthor} {id parent : Bytes32} {order : UInt64} {d d₁ d' : NotesDisk}
  {c : RecordView × TreeNode}

/-- This host's claim on a note, written over the disk: the other claims are as they were. -/
structure Wrote (a : NotesAuthor) (id parent : Bytes32) (order : UInt64) (d d' : NotesDisk)
    (c : RecordView × TreeNode) : Prop where
  own : ∃ key, claimKey a.store id a.issuer = some key ∧ readNode a.store d' key = some c ∧
    ∀ key', key' ≠ key → d'.load (.note, key') = d.load (.note, key')
  issuer : c.1.issuer = a.issuer
  id : c.2.id = id
  parent : c.2.parent = parent
  order : c.2.order = order

theorem SameNotes.wrote (h : SameNotes d d₁) (h' : Wrote a id parent order d₁ d' c) :
    Wrote a id parent order d d' c := by
  obtain ⟨key, hkey, hread, hother⟩ := h'.own
  exact ⟨⟨key, hkey, hread, fun key' hne => (hother key' hne).trans (h key')⟩, h'.issuer, h'.id,
    h'.parent, h'.order⟩

/-- Every other claim was held before. -/
theorem Wrote.held (h : Wrote a id parent order d d' c) {other : RecordView × TreeNode}
    (hheld : HeldClaim a.store d' other) (hne : other ≠ c) : HeldClaim a.store d other := by
  obtain ⟨key, -, hread, hother⟩ := h.own
  obtain ⟨key', hread'⟩ := hheld
  refine ⟨key', ?_⟩
  rwa [← readNode_congr (hother key' _)]
  rintro rfl
  exact hne (Option.some.inj (hread'.symm.trans hread))

theorem sameNotes_indexTakes (a : NotesAuthor) (id : Bytes32) (d : NotesDisk) :
    SameNotes d (indexTakes a id d).2 := by
  have hsame := sameNotes_claims d
  unfold indexTakes
  split
  · exact SameNotes.refl d
  split
  · exact SameNotes.refl d
  split <;> next heq => rwa [heq] at hsame

theorem notesAdmit_open {policy : NotesPolicy} {sign : SignOps} {x : Bytes} {r : RecordView}
    (h : notesAdmit policy x sign = .ok r) : recordOpen x = .ok r ∧ recordKind r = noteKind := by
  unfold notesAdmit at h
  split at h
  · cases h
  split at h
  · cases h
  next r' hopen =>
    obtain ⟨hkind, h⟩ := past_check h nofun
    split at h
    · cases h
    split at h
    · obtain rfl := Except.ok.inj h
      exact ⟨hopen, not_not.1 fun hne => hkind (Or.inl hne)⟩
    · cases h

/-- **A claim written is held**, with what was asked for. -/
theorem writeNote_ok {contentType : UInt16} {m : NoteMeta} {now : UInt64} (hchain : ChainKeeps a)
    (h : writeNote a id parent order contentType m now d = (.ok, d')) :
    ∃ c, Wrote a id parent order d d' c := by
  have hsame := sameNotes_indexTakes a id d
  unfold writeNote at h
  split at h
  · cases h
  next content hmeta =>
  split at h
  · cases h
  next body hbody =>
  split at h
  · next d₁ htakes =>
      rw [htakes] at hsame
      split at h
      · cases h
      next record hrecord =>
      obtain ⟨herr, rfl⟩ := Prod.mk.inj h
      have hwrote : (notesPut a.store a.policy a.sign record d₁).1.wrote = true := by
        split at herr
        · next hne => exact absurd herr hne
        split at herr
        · assumption
        · cases herr
      rcases notesPut_cases a.store a.policy a.sign record d₁ with hno | ⟨r, hadm, -, hput⟩
      · rw [hno.1] at hwrote
        cases hwrote
      obtain ⟨hopen, hkind⟩ := notesAdmit_open hadm
      obtain ⟨-, hsubject, hrecordBody, hissuer⟩ := hchain _ _ _ _ _ r hrecord hopen
      have hother : ∀ key', claimKey a.store (recordSubject r) r.issuer ≠ some key' →
          (notesPut a.store a.policy a.sign record d₁).2.load (.note, key') =
            d₁.load (.note, key') := fun key' hne => hput.load_ne hne
      obtain ⟨key, d₂, hkey, -, -, heq⟩ := hput
      rw [heq, (putWrite_disk r key d₂).2] at hwrote
      have hload := Disk.load_of_save hwrote
      rw [← (putWrite_disk r key d₂).1, ← heq] at hload
      have hnode := treeOpen_treeBody hbody hrecordBody
      refine ⟨(r, ⟨recordSubject r, parent, order, contentType, content⟩),
        hsame.wrote ⟨⟨key, ?_, ?_, fun key' hne => hother key' ?_⟩, hissuer, hsubject, rfl, rfl⟩⟩
      · rw [← hsubject, ← hissuer, hkey]
      · unfold readNode notesGetKey
        rw [loadKey_noteBlob hload]
        dsimp only
        rw [hkey]
        dsimp only
        rw [if_pos rfl]
        dsimp only
        rw [if_neg (not_not.2 hkind), hnode]
      · exact fun h => hne (Option.some.inj (h.symm.trans hkey))
  · next hne _ =>
      obtain ⟨rfl, -⟩ := Prod.mk.inj h
      exact (hne rfl).elim

end Write

/-! ## Where a note made or moved goes -/

variable {aside : Option Bytes32}

section Goes

variable {a : NotesAuthor} {id parent : Bytes32} {stamp : Option UInt64} {k k' : Desk}
  {contentType : UInt16} {fields : NoteFields} {createdAt now : UInt64}

theorem sameNotes_wrapPut (id key : Bytes32) (d : NotesDisk) :
    SameNotes d (wrapPut id key d).2 := by
  unfold wrapPut
  split
  · exact SameNotes.refl d
  split
  · exact SameNotes.refl d
  · exact fun key => Disk.load_save_ne (by simp)
  · exact SameNotes.refl d

theorem StampMoves.congr {st : NotesStore} {ops : ℕ} {d : NotesDisk} (h : StampMoves st ops stamp k)
    (hsame : SameNotes k.disk d) : StampMoves st ops stamp ⟨k.view, d⟩ :=
  fun hsome hfrom hat => hsame.shows.2 (h hsome hfrom hat)

theorem sealContent_error {d : NotesDisk} {err : NotesErr}
    (h : sealContent a contentType fields id d = .error err) : err ≠ .ok := by
  rintro rfl
  unfold sealContent sealPayload at h
  split at h
  · next heq =>
      obtain rfl := Except.error.inj h
      split at heq
      · cases heq
      split at heq
      · cases heq
      split at heq <;> cases heq
  · unfold wrapped wrapGet at h
    split at h
    · cases h
    · next heq =>
        obtain rfl := Except.error.inj h
        split at heq
        · cases heq
        split at heq <;> cases heq
    · split at h <;> cases h

theorem orderAfter_error {nodes : List TreeNode} {err : NotesErr}
    (h : orderAfter nodes parent aside = .error err) : err = .malformed := by
  unfold orderAfter at h
  split at h
  · cases h
  split at h
  · exact (Except.error.inj h).symm
  · cases h

/-- A note placed by `order_after`: this host's claim, behind those the parent had. -/
structure GoesLast (a : NotesAuthor) (aside : Option Bytes32) (id parent : Bytes32)
    (d d' : NotesDisk) (c : RecordView × TreeNode) : Prop where
  wrote : ∃ order, Wrote a id parent order d d' c
  last : ∀ other, HeldClaim a.store d other → other.2.parent = parent →
    aside ≠ some other.2.id → Behind other.2 c.2

theorem SameNotes.goesLast {d d₁ d' : NotesDisk} {c : RecordView × TreeNode} (h : SameNotes d d₁)
    (h' : GoesLast a aside id parent d₁ d' c) : GoesLast a aside id parent d d' c :=
  ⟨h'.wrote.imp fun _ => h.wrote, fun other hheld => h'.last other (h.heldClaim.2 hheld)⟩

/-- What a load, an order and a write come to. -/
theorem goesLast_write {m : NoteMeta} {order : UInt64} {v : NotesView} {d d₁ d' : NotesDisk}
    (hchain : ChainKeeps a) (hsame : SameNotes d d₁) (hshows : Shows a.store d v)
    (horder : orderAfter v.nodes parent aside = .ok order)
    (h : writeNote a id parent order contentType m now d₁ = (.ok, d')) :
    ∃ c, GoesLast a aside id parent d d' c := by
  obtain ⟨c, hwrote⟩ := writeNote_ok hchain h
  refine ⟨c, ⟨order, hsame.wrote hwrote⟩, fun other hheld hparent haside => ?_⟩
  exact orderAfter_last horder ((hshows other.2).2 ⟨other.1, hheld⟩) hparent haside hwrote.order

theorem createPlaced_ok (hchain : ChainKeeps a) (hstamp : StampMoves a.store a.ops stamp k)
    (h : createPlaced a stamp id parent contentType fields createdAt now k = (.ok, k')) :
    ∃ c, GoesLast a none id parent k.disk k'.disk c := by
  unfold createPlaced at h
  split at h
  · next hseal => exact absurd (Prod.mk.inj h).1 (sealContent_error hseal)
  split at h
  · next hload =>
      obtain ⟨hsame, hshows⟩ := viewLoad_ok hstamp hload
      split at h
      · next horder =>
          have herr := (Prod.mk.inj h).1
          rw [orderAfter_error horder] at herr
          cases herr
      next horder =>
      generalize (if createdAt ≠ 0 then createdAt else now) = made at h
      dsimp only at h
      split at h
      · next hno => exact absurd (Prod.mk.inj h).1 hno
      next hok =>
      obtain ⟨-, rfl⟩ := Prod.mk.inj h
      exact goesLast_write hchain hsame hshows horder (Prod.ext (not_not.1 hok) rfl)
  · next hne _ =>
      obtain ⟨rfl, -⟩ := Prod.mk.inj h
      exact (hne rfl).elim

/-- **A note made goes behind every claim its parent has.** -/
theorem createDated_ok {draws : Draws} (hchain : ChainKeeps a)
    (hstamp : StampMoves a.store a.ops stamp k)
    (h : createDated a draws stamp parent contentType fields createdAt now k =
      ((.ok, some id), k')) : ∃ c, GoesLast a none id parent k.disk k'.disk c := by
  unfold createDated at h
  split at h
  · cases h
  split at h
  · cases h
  split at h
  · cases h
  split at h
  · cases h
  next id₀ _ _ wk _ =>
  have hput := sameNotes_wrapPut (drawnId id₀) wk k.disk
  split at h
  · next d hwrap =>
      rw [hwrap] at hput
      obtain ⟨hanswer, rfl⟩ := Prod.mk.inj h
      obtain ⟨hmade, hid⟩ := Prod.mk.inj hanswer
      obtain rfl := Option.some.inj hid
      obtain ⟨c, hlast⟩ := createPlaced_ok hchain (hstamp.congr hput) (Prod.ext hmade rfl)
      exact ⟨c, hput.goesLast hlast⟩
  · next hne _ =>
      obtain ⟨hanswer, rfl⟩ := Prod.mk.inj h
      obtain ⟨rfl, -⟩ := Prod.mk.inj hanswer
      exact (hne rfl).elim

theorem heldNote_ok {held : HeldNote} (hstamp : StampMoves a.store a.ops stamp k)
    (h : heldNote a stamp id k = (.ok held, k')) :
    SameNotes k.disk k'.disk ∧ StampMoves a.store a.ops stamp k' := by
  unfold heldNote at h
  split at h
  · obtain ⟨-, rfl⟩ := Prod.mk.inj h
    exact ⟨SameNotes.refl _, hstamp⟩
  split at h
  · next v d hload =>
      obtain ⟨hsame, hshows⟩ := viewLoad_ok hstamp hload
      split at h
      · obtain ⟨-, rfl⟩ := Prod.mk.inj h
        exact ⟨hsame, fun _ _ _ => hsame.shows.2 hshows⟩
      · cases h
  · cases h

theorem heldNote_error {err : NotesErr} (h : (heldNote a stamp id k).1 = .error err) :
    err ≠ .ok := by
  rintro rfl
  have htake : ∀ node, takeNode node ≠ .error .ok := by
    intro node hnode
    unfold takeNode at hnode
    split at hnode <;> cases hnode
  unfold heldNote at h
  split at h
  · exact htake _ h
  split at h
  · split at h
    · exact htake _ h
    · cases h
  · next hne _ =>
      obtain rfl := Except.error.inj h
      exact hne rfl

/-- **A note moved goes behind the other notes' claims**, and not under what it is above. -/
theorem notesMove_ok (hchain : ChainKeeps a) (hstamp : StampMoves a.store a.ops stamp k)
    (h : notesMove a stamp id parent now k = (.ok, k')) :
    ∃ c nodes, GoesLast a (some id) id parent k.disk k'.disk c ∧
      (∀ other, HeldClaim a.store k.disk other → other.2 ∈ nodes) ∧
      above nodes id parent = false := by
  unfold notesMove at h
  split at h
  · cases h
  split at h
  · cases h
  split at h
  · next heq => exact absurd (Prod.mk.inj h).1 (heldNote_error (congrArg Prod.fst heq))
  next held k₁ hheld =>
  obtain ⟨hsame, hmoves⟩ := heldNote_ok hstamp hheld
  split at h
  · next v d hload =>
      obtain ⟨hloaded, hshows⟩ := viewLoad_ok hmoves hload
      split at h
      · cases h
      next habove =>
      split at h
      · next horder =>
          have herr := (Prod.mk.inj h).1
          rw [orderAfter_error horder] at herr
          cases herr
      next horder =>
      dsimp only at h
      obtain ⟨hok, rfl⟩ := Prod.mk.inj h
      obtain ⟨c, hlast⟩ := goesLast_write hchain hloaded hshows horder (Prod.ext hok rfl)
      refine ⟨c, v.nodes, hsame.goesLast hlast, fun other hother => ?_, Bool.eq_false_iff.2 habove⟩
      exact (hshows other.2).2 ⟨other.1, hsame.heldClaim.2 hother⟩
  · next hne _ =>
      obtain ⟨rfl, -⟩ := Prod.mk.inj h
      exact (hne rfl).elim

end Goes

/-! ## Cycles of claims -/

/-- A claim on what another is under; the root is not a note. -/
def Under (c up : RecordView × TreeNode) : Prop := c.2.parent = up.2.id ∧ c.2.parent ≠ 0

/-- A cycle of held claims through a note: from a claim on it up to one under it. -/
structure ClaimCycle (st : NotesStore) (d : NotesDisk) (id : Bytes32)
    (l : List (RecordView × TreeNode)) : Prop where
  held : ∀ c ∈ l, HeldClaim st d c
  climbs : l.IsChain Under
  begins : ∃ c, l.head? = some c ∧ c.2.id = id
  ends : ∃ c, l.getLast? = some c ∧ c.2.parent = id

section Cycle

variable {a : NotesAuthor} {nodes : List TreeNode} {id parent : Bytes32} {d d' : NotesDisk}
  {c : RecordView × TreeNode} {l : List (RecordView × TreeNode)}

theorem upFrom_climb (hin : ∀ c ∈ l, c.2 ∈ nodes) (hclimbs : l.IsChain Under)
    (hhead : ∀ c, l.head? = some c → UpFrom nodes parent c.2) :
    ∀ c ∈ l, UpFrom nodes parent c.2 := by
  induction l with
  | nil => exact fun c hc => absurd hc List.not_mem_nil
  | cons c l ih =>
    have hc := hhead c rfl
    intro c' hc'
    rcases List.mem_cons.1 hc' with rfl | hc'
    · exact hc
    refine ih (fun c hc => hin c (List.mem_cons_of_mem _ hc)) hclimbs.tail
      (fun up hup => ?_) c' hc'
    obtain ⟨rest, rfl⟩ := List.head?_eq_some_iff.1 hup
    have hunder := (List.isChain_cons_cons.1 hclimbs).1
    exact .link hc ⟨hin up (List.mem_cons_of_mem _ List.mem_cons_self), hunder.1.symm, hunder.2⟩

/-- **No climb to a note goes over the claim that placed it**, where it was not above its
parent: behind that claim's last place the climb is over claims the walk has seen. -/
theorem not_mem_climb (habove : above nodes id parent = false) (hparent : c.2.parent = parent)
    (hin : ∀ c' ∈ l, c' ≠ c → c'.2 ∈ nodes) (hclimbs : l.IsChain Under)
    (hends : ∀ c', l.getLast? = some c' → c'.2.parent = id) : c ∉ l := by
  obtain ⟨hne, hup⟩ := above_false habove
  induction l with
  | nil => exact List.not_mem_nil
  | cons c' l ih =>
    have hrest : c ∉ l := by
      refine ih (fun c'' hc'' => hin c'' (List.mem_cons_of_mem _ hc'')) hclimbs.tail
        fun c'' hc'' => hends c'' ?_
      rw [List.getLast?_cons, hc'', Option.getD_some]
    rw [List.mem_cons, not_or]
    refine ⟨?_, hrest⟩
    rintro rfl
    cases l with
    | nil => exact hne (((hends c rfl).symm.trans hparent))
    | cons up l =>
      have hunder := (List.isChain_cons_cons.1 hclimbs).1
      have hnodes : ∀ c' ∈ up :: l, c'.2 ∈ nodes := fun c' hc' =>
        hin c' (List.mem_cons_of_mem _ hc') fun heq => hrest (heq ▸ hc')
      have hstart : UpFrom nodes parent up.2 :=
        .start ⟨hnodes _ List.mem_cons_self, hunder.1.symm.trans hparent⟩
      have hclimb := upFrom_climb hnodes hclimbs.tail fun c' hc' => by
        obtain rfl := Option.some.inj hc'
        exact hstart
      have hlast := List.getLast_mem (List.cons_ne_nil up l)
      refine hup _ (hclimb _ hlast) (hends _ ?_)
      rw [List.getLast?_cons_cons, List.getLast?_eq_some_getLast (List.cons_ne_nil up l)]

/-- A cycle through a note that was moved was there, over other writers' claims on it. -/
theorem GoesLast.cycle (h : GoesLast a (some id) id parent d d' c)
    (hin : ∀ other, HeldClaim a.store d other → other.2 ∈ nodes)
    (habove : above nodes id parent = false) (hcycle : ClaimCycle a.store d' id l) :
    ClaimCycle a.store d id l ∧ ∀ other ∈ l, other.2.id = id → other.1.issuer ≠ a.issuer := by
  obtain ⟨order, hwrote⟩ := h.wrote
  have hout : c ∉ l := by
    refine not_mem_climb habove hwrote.parent (fun other hother hne =>
      hin other (hwrote.held (hcycle.held other hother) hne)) hcycle.climbs fun other hlast => ?_
    obtain ⟨last, hlast', hparent⟩ := hcycle.ends
    rwa [Option.some.inj (hlast.symm.trans hlast')]
  refine ⟨⟨fun other hother => ?_, hcycle.climbs, hcycle.begins, hcycle.ends⟩,
    fun other hother hid hissuer => ?_⟩
  · exact hwrote.held (hcycle.held other hother) fun heq => hout (heq ▸ hother)
  obtain ⟨key, hkey, hread, -⟩ := hwrote.own
  obtain ⟨key', hread'⟩ := hcycle.held other hother
  obtain rfl : key' = key := by
    have hclaim := claimKey_of_readNode hread'
    rw [hid, hissuer, hkey] at hclaim
    exact (Option.some.inj hclaim).symm
  exact hout (Option.some.inj (hread.symm.trans hread') ▸ hother)

end Cycle

/-! ## Last under the parent, and never under itself -/

/-- This host's claim on a note. -/
def OwnClaim (a : NotesAuthor) (d : NotesDisk) (id : Bytes32) (c : RecordView × TreeNode) : Prop :=
  ∃ key, claimKey a.store id a.issuer = some key ∧ readNode a.store d key = some c

/-- Notes made one after another under a parent, with the nodes of their claims as made; what
the seal and the chain give may differ from one to the next. -/
inductive CreateRun (a : NotesAuthor) (parent : Bytes32) (k : Desk) :
    List TreeNode → Desk → Prop
  | nil : CreateRun a parent k [] k
  | create {k₁ k₂ : Desk} {nodes : List TreeNode} (h : CreateRun a parent k nodes k₁)
      (sealFn : Bytes → Option NoteBlobRef) (chain : ℕ → Bytes32 → Bytes → UInt64 → Option Bytes)
      (draws : Draws) (stamp : Option UInt64) (contentType : UInt16) (fields : NoteFields)
      (createdAt now : UInt64) (id : Bytes32) (c : RecordView × TreeNode)
      (hchain : ChainKeeps { a with sealFn := sealFn, chain := chain })
      (hstamp : StampMoves a.store a.ops stamp k₁)
      (hmade : createDated { a with sealFn := sealFn, chain := chain } draws stamp parent
        contentType fields createdAt now k₁ = ((.ok, some id), k₂))
      (hclaim : OwnClaim a k₂.disk id c) : CreateRun a parent k (nodes ++ [c.2]) k₂

theorem GoesLast.own {a : NotesAuthor} {id parent : Bytes32} {d d' : NotesDisk}
    {c c' : RecordView × TreeNode} (h : GoesLast a aside id parent d d' c)
    (hclaim : OwnClaim a d' id c') : c' = c := by
  obtain ⟨order, hwrote⟩ := h.wrote
  obtain ⟨key, hkey, hread, -⟩ := hwrote.own
  obtain ⟨key', hkey', hread'⟩ := hclaim
  obtain rfl := Option.some.inj (hkey'.symm.trans hkey)
  exact Option.some.inj (hread'.symm.trans hread)

/-- **A run of creates**: each goes behind the last, and that behind all before it. -/
theorem CreateRun.behind {a : NotesAuthor} {parent : Bytes32} {k k' : Desk} {nodes : List TreeNode}
    (h : CreateRun a parent k nodes k') : nodes.Pairwise Behind ∧
      ∀ node ∈ nodes, ∃ c, HeldClaim a.store k'.disk c ∧ c.2.parent = parent ∧
        (node = c.2 ∨ Behind node c.2) := by
  induction h with
  | nil => exact ⟨.nil, fun node hnode => absurd hnode List.not_mem_nil⟩
  | @create k₁ k₂ nodes h sealFn chain draws stamp contentType fields createdAt now id c hchain
      hstamp hmade hclaim ih =>
      obtain ⟨c', hlast⟩ := createDated_ok hchain hstamp hmade
      obtain rfl := hlast.own hclaim
      have hbehind : ∀ node ∈ nodes, Behind node c.2 := by
        intro node hnode
        obtain ⟨last, hheld, hparent, hor⟩ := ih.2 node hnode
        have hbefore := hlast.last last hheld hparent (by simp)
        rcases hor with rfl | hor
        · exact hbefore
        · exact hor.trans hbefore
      obtain ⟨key, -, hread⟩ := hclaim
      obtain ⟨order, hwrote⟩ := hlast.wrote
      have hnew : ∀ node, node = c.2 ∨ Behind node c.2 → ∃ c, HeldClaim a.store k₂.disk c ∧
          c.2.parent = parent ∧ (node = c.2 ∨ Behind node c.2) :=
        fun node hor => ⟨c, ⟨key, hread⟩, hwrote.parent, hor⟩
      refine ⟨List.pairwise_append.2 ⟨ih.1, List.pairwise_singleton _ _,
        fun node hnode last hin => ?_⟩, fun node hnode => ?_⟩
      · obtain rfl := List.mem_singleton.1 hin
        exact hbehind node hnode
      · rcases List.mem_append.1 hnode with hnode | hnode
        · exact hnew node (Or.inr (hbehind node hnode))
        · exact hnew node (Or.inl (List.mem_singleton.1 hnode))

/-- **New and moved notes go last and never under themselves.**  A note made goes behind every
other claim under its parent, also one after another; a note moved behind every claim on
another note, and a cycle through it was there, over other writers' claims on it. -/
theorem notes_go_last (a : NotesAuthor) (hchain : ChainKeeps a) :
    (∀ draws stamp parent contentType fields createdAt now k k' id,
      StampMoves a.store a.ops stamp k →
      createDated a draws stamp parent contentType fields createdAt now k = ((.ok, some id), k') →
      ∃ c, OwnClaim a k'.disk id c ∧ c.2.id = id ∧ c.2.parent = parent ∧
        ∀ other, HeldClaim a.store k'.disk other → other ≠ c → other.2.parent = parent →
          Behind other.2 c.2) ∧
    (∀ parent k k' nodes, CreateRun a parent k nodes k' → nodes.Pairwise Behind) ∧
    ∀ stamp id parent now k k', StampMoves a.store a.ops stamp k →
      notesMove a stamp id parent now k = (.ok, k') →
      (∃ c, OwnClaim a k'.disk id c ∧ c.2.id = id ∧ c.2.parent = parent ∧
        ∀ other, HeldClaim a.store k'.disk other → other.2.id ≠ id → other.2.parent = parent →
          Behind other.2 c.2) ∧
      ∀ l, ClaimCycle a.store k'.disk id l → ClaimCycle a.store k.disk id l ∧
        ∀ other ∈ l, other.2.id = id → other.1.issuer ≠ a.issuer := by
  refine ⟨fun draws stamp parent contentType fields createdAt now k k' id hstamp h => ?_,
    fun parent k k' nodes h => h.behind.1, fun stamp id parent now k k' hstamp h => ?_⟩
  · obtain ⟨c, hlast⟩ := createDated_ok hchain hstamp h
    obtain ⟨order, hwrote⟩ := hlast.wrote
    obtain ⟨key, hkey, hread, -⟩ := hwrote.own
    refine ⟨c, ⟨key, hkey, hread⟩, hwrote.id, hwrote.parent, fun other hheld hne hparent => ?_⟩
    exact hlast.last other (hwrote.held hheld hne) hparent (by simp)
  · obtain ⟨c, nodes, hlast, hin, habove⟩ := notesMove_ok hchain hstamp h
    refine ⟨?_, fun l hcycle => hlast.cycle hin habove hcycle⟩
    obtain ⟨order, hwrote⟩ := hlast.wrote
    obtain ⟨key, hkey, hread, -⟩ := hwrote.own
    refine ⟨c, ⟨key, hkey, hread⟩, hwrote.id, hwrote.parent, fun other hheld hne hparent => ?_⟩
    have hold := hwrote.held hheld fun heq => hne (heq ▸ hwrote.id)
    exact hlast.last other hold hparent fun heq => hne (Option.some.inj heq).symm

/-! ## A note made and moved -/

/-- A record of a host's: the time is its sequence number. -/
def hostRecord (issuer kind : ℕ) (id : Bytes32) (body : Bytes) (now : UInt64) : Bytes :=
  [1, 130] ++ putBe 32 issuer ++ bytes32 id ++ putBe 4 0 ++ putBe 4 kind ++ putBe 8 now.toNat ++
    putBe 32 0 ++ putBe 8 0 ++ putBe 2 body.length ++ body ++ putBe 64 9

/-- A chain that hands out what reads as asked. -/
def checkedChain (issuer kind : ℕ) (id : Bytes32) (body : Bytes) (now : UInt64) : Option Bytes :=
  match recordOpen (hostRecord issuer kind id body now) with
  | .error _ => none
  | .ok r =>
    if recordKind r = kind ∧ recordSubject r = id ∧ recordBody r = body ∧
        r.issuer = BitVec.ofNat 256 issuer then
      some (hostRecord issuer kind id body now)
    else none

/-- The host of the issuer 1. -/
def firstHost : NotesAuthor :=
  ⟨issuerStore, 0, 1, acceptingSign, bothWriters, fun _ => some ⟨3, 4, 20⟩, checkedChain 1⟩

theorem chain_firstHost : firstHost.chain = checkedChain 1 := by
  simp only [firstHost]

theorem chainKeeps_firstHost : ChainKeeps firstHost := by
  intro kind id body now record r hrecord hopen
  rw [chain_firstHost] at hrecord
  unfold checkedChain at hrecord
  split at hrecord
  · cases hrecord
  next r' hopen' =>
    split at hrecord
    · next hkeeps =>
        obtain rfl := Option.some.inj hrecord
        obtain rfl := Except.ok.inj (hopen.symm.trans hopen')
        exact hkeeps
    · cases hrecord

/-- The note 5, made under a parent. -/
def madeUnder (parent : Bytes32) (d : NotesDisk) : (NotesErr × Option Bytes32) × Desk :=
  createDated firstHost ⟨some 5, some 6⟩ none parent noteTypeNote ⟨[], [], [], 0, 0⟩ 0 1
    ⟨blankView, d⟩

/-- The note 5, made under 9 and moved. -/
def movedUnder (parent : Bytes32) (d : NotesDisk) : NotesErr × Desk :=
  notesMove firstHost none 5 parent 2 (madeUnder 9 d).2

/-- Disks where other writers placed notes. -/
def placedDisk (l : List (ℕ × ℕ × ℕ × ℕ)) : NotesDisk :=
  ⟨l.foldl (fun rows p => rows.insert (.note, BitVec.ofNat 256 p.2.1)
    (noteBlob (placedNote p.1 p.2.1 p.2.2.1 p.2.2.2))) ∅, []⟩

/-- How this host's claim stands to the second writer's under the same parent. -/
def compared (d : NotesDisk) : Option Ordering :=
  (readNode issuerStore d 1).bind fun own => (readNode issuerStore d 2).bind fun other =>
    if own.2.parent = other.2.parent then some (treeCmp own.2 other.2) else none

/-- The note 5 goes behind the note 9, made, and moved under 7 where 9 is. -/
theorem notes_go_last_two :
    (∃ c, OwnClaim firstHost (madeUnder 0 (placedDisk [(9, 2, 0, 1000)])).2.disk 5 c ∧
      ∀ other, HeldClaim issuerStore (madeUnder 0 (placedDisk [(9, 2, 0, 1000)])).2.disk other →
        other ≠ c → other.2.parent = 0 → Behind other.2 c.2) ∧
    (∃ c, OwnClaim firstHost (movedUnder 7 (placedDisk [(9, 2, 7, 1000)])).2.disk 5 c ∧
      ∀ other, HeldClaim issuerStore (movedUnder 7 (placedDisk [(9, 2, 7, 1000)])).2.disk other →
        other.2.id ≠ 5 → other.2.parent = 7 → Behind other.2 c.2) := by
  obtain ⟨hmade, -, hmoved⟩ := notes_go_last firstHost chainKeeps_firstHost
  have hstamp : ∀ k, StampMoves firstHost.store firstHost.ops none k := fun k h => by cases h
  have hmake : (madeUnder 0 (placedDisk [(9, 2, 0, 1000)])).1 = (.ok, some 5) := by decide +kernel
  have hmove : (movedUnder 7 (placedDisk [(9, 2, 7, 1000)])).1 = .ok := by decide +kernel
  constructor
  · generalize hrun : madeUnder 0 (placedDisk [(9, 2, 0, 1000)]) = made at hmake ⊢
    obtain ⟨answer, k'⟩ := made
    obtain rfl : answer = _ := hmake
    obtain ⟨c, hown, -, -, hbehind⟩ := hmade _ _ _ _ _ _ _ _ _ _ (hstamp _) hrun
    exact ⟨c, hown, hbehind⟩
  · generalize hrun : movedUnder 7 (placedDisk [(9, 2, 7, 1000)]) = moved at hmove ⊢
    obtain ⟨answer, k'⟩ := moved
    obtain rfl : answer = _ := hmove
    obtain ⟨⟨c, hown, -, -, hbehind⟩, -⟩ := hmoved _ _ _ _ _ _ (hstamp _) hrun
    exact ⟨c, hown, hbehind⟩

/-- At the end of the range a note made may sort before the last; a note moved may sort before
another writer's claim on it; and a way up to the root may go on from there. -/
theorem notes_go_last_fails :
    ((madeUnder 0 (placedDisk [(9, 2, 0, 2 ^ 64 - 1)])).1 = (.ok, some 5) ∧
      compared (madeUnder 0 (placedDisk [(9, 2, 0, 2 ^ 64 - 1)])).2.disk = some .lt) ∧
    ((movedUnder 7 (placedDisk [(5, 2, 7, 2000)])).1 = .ok ∧
      compared (movedUnder 7 (placedDisk [(5, 2, 7, 2000)])).2.disk = some .lt) ∧
    (movedUnder 7 (placedDisk [(0, 2, 5, 0), (7, 3, 0, 0)])).1 = .ok ∧
      ([1, 3, 2].map fun key => (readNode issuerStore
        (movedUnder 7 (placedDisk [(0, 2, 5, 0), (7, 3, 0, 0)])).2.disk key).map
          fun c => (c.2.id, c.2.parent)) = [some (5, 7), some (7, 0), some (0, 5)] := by
  decide +kernel

end Notes
end Fuzznet
