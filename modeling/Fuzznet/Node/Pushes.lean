/-
# Pushed items, as they are received

The receiver's half of a push, `answer_put` of `node/reconcile.c`.  An item comes in pieces,
and what is held of it stands in one of eight slots, one for a sender and an item, the
oldest let go where none is free.  A piece restates the item's subject, month and length:

| off | size | field |
| ---: | ---: | --- |
| 2 | 1 | kind |
| 3 | 32 | subject |
| 35 | 4 | month |
| 39 | 32 | id |
| 71 | 4 | total |
| 75 | 4 | offset |
| 79 | 2 | length of the piece behind |

The bucket is judged when an item has no slot yet, not gone here and wanted by the kind,
and the item is filed when its last piece comes, under the subject and the month of that
piece.  A slot remembers neither, so a sender that names another bucket in its last piece
has the item filed there (`filed_unjudged`).  Where the piece that completes an item names
the bucket of the piece that opened its slot (`Steady`), every item is filed where it was
judged (`pushed_where_judged`).

What a kind does with an item is its own (`Taker`), over a state of the node's; each call
of it that matters here is an event (`PutEvent`).
-/

import Fuzznet.Lib.Runs
import Fuzznet.Node.Buckets

namespace Fuzznet
namespace Node

open Wire Lib
open Session (bytes32)

/-- `fzn_node_apply_outcome_t`. -/
inductive ApplyOutcome
  | applied
  | waiting
  | refused
  | notSaved
  deriving DecidableEq, Repr

/-- `fzn_reconcile_filer_t`, of what a push calls; none for a null pointer. -/
structure Taker (W : Type) where
  file : Option (W → Bytes32 → UInt32 → Bytes → ApplyOutcome × W)
  wanted : Option (W → Bytes32 → UInt32 → Bool)
  stage : Option (W → Bytes32 → ℕ → ℕ → Bytes → Bool × W)
  finish : Option (W → Bytes32 → UInt32 → Bytes32 → ℕ → ApplyOutcome × W)
  read : Option (W → Bytes → ℕ → ℕ → Option Bytes)

/-- `fzn_reconcile_server_t`, of what a push reads: the buckets are a part of the node's
state. -/
structure PutServer (W : Type) where
  hash : HashOps
  disk : W → BucketsDisk
  takers : Kind → Option (Taker W)

/-- `struct staged`; `bytes` is as much of the buffer as was written. -/
structure Staged where
  used : Bool
  age : UInt64
  sender : Key
  kind : Kind
  id : Bytes32
  total : ℕ
  held : ℕ
  bytes : Bytes
  deriving DecidableEq

/-- `FZN_RECONCILE_STAGED_MAX`. -/
def stagedMax : ℕ := 8

/-- The slots and `staged_clock`. -/
structure Staging where
  slots : List Staged
  clock : UInt64

/-- A slot as it is before its first use. -/
def zeroSlot : Staged := ⟨false, 0, 0, .messages, 0, 0, 0, []⟩

/-- The slots at the start. -/
def zeroStaging : Staging := ⟨List.replicate stagedMax zeroSlot, 0⟩

/-- An ITEM_PUT. -/
structure PutMsg where
  place : Place
  id : Bytes32
  total : ℕ
  offset : ℕ
  piece : Bytes
  deriving DecidableEq

/-- What is read of the request; nothing where it is none. -/
def readPut (request : Bytes) : Option PutMsg :=
  if request.length < 81 then none
  else match Kind.ofByte (request.getD 2 0) with
    | none => none
    | some kind =>
      if request.length ≠ 81 + getBe request 79 2 ∨ getBe request 71 4 = 0 ∨
          getBe request 71 4 > largeMax ∨ getBe request 75 4 > getBe request 71 4 ∨
          getBe request 79 2 > getBe request 71 4 - getBe request 75 4 then none
      else some ⟨⟨kind, BitVec.ofNat 256 (getBe request 3 32), UInt32.ofNat (getBe request 35 4)⟩,
        BitVec.ofNat 256 (getBe request 39 32), getBe request 71 4, getBe request 75 4,
        request.drop 81⟩

/-- `fzn_reconcile_took_t`. -/
inductive Took
  | more
  | kept
  | held
  | refused
  | notWanted
  deriving DecidableEq, Repr

/-- The byte of an answer. -/
def Took.byte : Took → UInt8
  | .more => 0
  | .kept => 1
  | .held => 2
  | .refused => 3
  | .notWanted => 4

/-- `answer_took`: nothing where the reply has no room. -/
def answerTook (cap : ℕ) (m : PutMsg) (took : Took) (held : ℕ) : Bytes :=
  if cap < 40 then []
  else [6, 16, m.place.kind.byte] ++ bytes32 m.id ++ [took.byte] ++ putBe 4 held

/-- What happens on the way, as far as it is told apart here: a bucket judged welcome for an
item, a slot opened for it, and the kind's `file` and `finish` called. -/
inductive PutEvent
  | judged (place : Place) (id : Bytes32)
  | opened (sender : Key) (place : Place) (id : Bytes32)
  | filed (place : Place) (id : Bytes32) (total : ℕ) (bytes : Bytes)
  | finished (place : Place) (id : Bytes32) (total : ℕ)
  deriving DecidableEq

/-- What one ITEM_PUT comes to. -/
structure PutResult (W : Type) where
  reply : Bytes
  staging : Staging
  world : W
  events : List PutEvent

/-- `staged_for`. -/
def stagedFor (slots : List Staged) (sender : Key) (kind : Kind) (id : Bytes32) : Option ℕ :=
  slots.findIdx? fun st =>
    decide (st.used = true ∧ st.kind = kind ∧ st.sender = sender ∧ st.id = id)

/-- One turn of `staged_take`: the oldest so far and the first unused, by their indices. -/
def stagedTakeTurn (best : (UInt64 × ℕ) × Option ℕ) (x : Staged × ℕ) :
    (UInt64 × ℕ) × Option ℕ :=
  match best.2 with
  | some i => (best.1, some i)
  | none =>
    if x.1.used = false then (best.1, some x.2)
    else if x.1.age < best.1.1 then ((x.1.age, x.2), none)
    else best

/-- `staged_take`: an unused slot, or the oldest. -/
def stagedTake (slots : List Staged) : ℕ :=
  ((slots.zipIdx.foldl stagedTakeTurn (((slots.getD 0 zeroSlot).age, 0), none)).2).getD
    (slots.zipIdx.foldl stagedTakeTurn (((slots.getD 0 zeroSlot).age, 0), none)).1.2

/-- `staged_free`. -/
def stagedFree (st : Staged) : Staged :=
  { st with used := false, bytes := if st.total ≤ itemMax then [] else st.bytes }

/-- A slot taken for an item, from whoever had it. -/
def stagedOpen (old : Staged) (sender : Key) (m : PutMsg) : Staged :=
  ⟨true, old.age, sender, m.place.kind, m.id, m.total, 0,
    if old.used then (stagedFree old).bytes else old.bytes⟩

section Put

variable {W : Type} (srv : PutServer W) (cap : ℕ)

/-- `readable`: the last byte of an item its kind keeps can be read. -/
def readable (taker : Taker W) (w : W) (ref : Bytes) (size : ℕ) : Bool :=
  match taker.read with
  | none => false
  | some read => decide (0 < size) && (read w ref (size - 1) 1).isSome

/-- `lost`: a large item held by its row whose bytes are gone. -/
def lost (taker : Taker W) (w : W) (kind : Kind) (id : Bytes32) : Bool :=
  match bucketsRef srv.hash (srv.disk w) kind id with
  | .error _ => false
  | .ok (ref, size) => !readable taker w ref size

/-- The judgement: not gone, and wanted where the kind says. -/
def welcome (taker : Taker W) (w : W) (p : Place) : Bool :=
  !bucketsGone srv.hash (srv.disk w) p && match taker.wanted with
    | none => true
    | some wanted => wanted w p.subject p.month

/-- Whether an outcome keeps the item. -/
def keeps : ApplyOutcome → Bool
  | .applied => true
  | .waiting => true
  | _ => false

/-- A large item whole: the kind's `finish`. -/
def putFinish (finish : W → Bytes32 → UInt32 → Bytes32 → ℕ → ApplyOutcome × W) (m : PutMsg)
    (i : ℕ) (st : Staged) (s : Staging) (w : W) : PutResult W :=
  ⟨if keeps (finish w m.place.subject m.place.month m.id st.total).1 then
      answerTook cap m .kept m.total else answerTook cap m .refused 0,
    { s with slots := s.slots.set i (stagedFree { st with held := 0 }) },
    (finish w m.place.subject m.place.month m.id st.total).2, [.finished m.place m.id st.total]⟩

/-- A small item whole: its id's, or nothing; then the kind's `file`. -/
def putFile (file : W → Bytes32 → UInt32 → Bytes → ApplyOutcome × W) (m : PutMsg) (i : ℕ)
    (st : Staged) (s : Staging) (w : W) : PutResult W :=
  if srv.hash.hash (st.bytes.take st.total) ≠ some m.id then
    ⟨answerTook cap m .refused 0, { s with slots := s.slots.set i (stagedFree st) }, w, []⟩
  else
    ⟨if keeps (file w m.place.subject m.place.month (st.bytes.take st.total)).1 then
        answerTook cap m .kept m.total else answerTook cap m .refused 0,
      { s with slots := s.slots.set i (stagedFree st) },
      (file w m.place.subject m.place.month (st.bytes.take st.total)).2,
      [.filed m.place m.id st.total (st.bytes.take st.total)]⟩

/-- A slot with the piece behind what is held. -/
def stagedPiece (st : Staged) (m : PutMsg) : Staged :=
  { st with
    held := st.held + m.piece.length
    bytes := if st.total > itemMax then st.bytes else st.bytes.take st.held ++ m.piece }

/-- The piece kept: more is wanted, or the item is whole. -/
def putKept (taker : Taker W) (file : W → Bytes32 → UInt32 → Bytes → ApplyOutcome × W)
    (m : PutMsg) (i : ℕ) (st : Staged) (s : Staging) (w : W) : PutResult W :=
  if (stagedPiece st m).held < st.total then
    ⟨answerTook cap m .more (stagedPiece st m).held,
      { s with slots := s.slots.set i (stagedPiece st m) }, w, []⟩
  else if st.total > itemMax then
    match taker.finish with
    | none => ⟨[], s, w, []⟩
    | some finish => putFinish cap finish m i (stagedPiece st m) s w
  else putFile srv cap file m i (stagedPiece st m) s w

/-- A piece of an item that has slot `i`. -/
def putPiece (taker : Taker W) (file : W → Bytes32 → UInt32 → Bytes → ApplyOutcome × W)
    (m : PutMsg) (i : ℕ) (st : Staged) (s : Staging) (w : W) : PutResult W :=
  if m.total ≠ st.total then
    ⟨answerTook cap m .more 0, { s with slots := s.slots.set i (stagedFree st) }, w, []⟩
  else if m.offset ≠ st.held then
    ⟨answerTook cap m .more st.held, { s with slots := s.slots.set i st }, w, []⟩
  else if st.total > itemMax then
    match taker.stage with
    | none => ⟨[], s, w, []⟩
    | some stage =>
      if (stage w m.id st.total st.held m.piece).1 then
        putKept srv cap taker file m i st s (stage w m.id st.total st.held m.piece).2
      else ⟨answerTook cap m .refused 0, { s with slots := s.slots.set i (stagedFree st) },
        (stage w m.id st.total st.held m.piece).2, []⟩
  else putKept srv cap taker file m i st s w

/-- A piece whose slot is found or taken, made the youngest. -/
def putAged (taker : Taker W) (file : W → Bytes32 → UInt32 → Bytes → ApplyOutcome × W)
    (m : PutMsg) (i : ℕ) (st : Staged) (s : Staging) (w : W) : PutResult W :=
  putPiece srv cap taker file m i { st with age := s.clock + 1 } { s with clock := s.clock + 1 } w

/-- A piece of an item that has no slot: held already, not welcome, or the first. -/
def putFirst (taker : Taker W) (file : W → Bytes32 → UInt32 → Bytes → ApplyOutcome × W)
    (sender : Key) (m : PutMsg) (s : Staging) (w : W) : PutResult W :=
  if bucketsHas srv.hash (srv.disk w) m.place.kind m.id && !lost srv taker w m.place.kind m.id then
    ⟨answerTook cap m .held 0, s, w, []⟩
  else if welcome srv taker w m.place = false then ⟨answerTook cap m .notWanted 0, s, w, []⟩
  else if m.offset ≠ 0 ∨ m.piece.length = 0 then
    ⟨answerTook cap m .more 0, s, w, [.judged m.place m.id]⟩
  else
    { putAged srv cap taker file m (stagedTake s.slots)
        (stagedOpen (s.slots.getD (stagedTake s.slots) zeroSlot) sender m) s w with
      events := [.judged m.place m.id, .opened sender m.place m.id] ++
        (putAged srv cap taker file m (stagedTake s.slots)
          (stagedOpen (s.slots.getD (stagedTake s.slots) zeroSlot) sender m) s w).events }

/-- What `answer_put` needs of the kind to take an item, and none otherwise. -/
def takes (m : PutMsg) (sender : Option Key) :
    Option (Key × Taker W × (W → Bytes32 → UInt32 → Bytes → ApplyOutcome × W)) :=
  match srv.takers m.place.kind, sender with
  | some taker, some sender => match taker.file with
    | none => none
    | some file =>
      if m.total > itemMax ∧ (taker.stage.isNone ∨ taker.finish.isNone) then none
      else some (sender, taker, file)
  | _, _ => none

/-- `answer_put`. -/
def answerPut (sender : Option Key) (request : Bytes) (s : Staging) (w : W) : PutResult W :=
  match readPut request with
  | none => ⟨[], s, w, []⟩
  | some m => match takes srv m sender with
    | none => ⟨answerTook cap m .notWanted 0, s, w, []⟩
    | some (sender, taker, file) => match stagedFor s.slots sender m.place.kind m.id with
      | none => putFirst srv cap taker file sender m s w
      | some i => putAged srv cap taker file m i (s.slots.getD i zeroSlot) s w

/-- `fzn_reconcile_serve`, of an ITEM_PUT; any other request changes nothing here. -/
def servePut (sender : Option Key) (request : Bytes) (s : Staging) (w : W) : PutResult W :=
  if request.length < 2 ∨ request.getD 0 0 ≠ 6 ∨ request.getD 1 0 ≠ 15 then ⟨[], s, w, []⟩
  else answerPut srv cap sender request s w

end Put

/-! ## What one piece does -/

/-- A slot holds no more than the item's length, and of a small item's bytes what it says. -/
structure SlotSound (st : Staged) : Prop where
  held : st.held ≤ st.total
  bytes : st.used = true → st.total ≤ itemMax → st.held ≤ st.bytes.length

/-- The item an event hands to its kind, and where. -/
def PutEvent.files : PutEvent → Option (Place × Bytes32)
  | .filed place id _ _ => some (place, id)
  | .finished place id _ => some (place, id)
  | _ => none

/-- The bytes filed are the item's length and hash to its id. -/
def PutEvent.Whole (hash : HashOps) : PutEvent → Prop
  | .filed _ id total bytes => bytes.length = total ∧ hash.hash bytes = some id
  | _ => True

/-- The piece that completes what a slot holds. -/
def Completes (st : Staged) (m : PutMsg) : Prop :=
  m.total = st.total ∧ m.offset = st.held ∧ st.held + m.piece.length = st.total

/-- **A piece and its slot:** the slot stays sound and its item's, or another's from now on,
and the item is handed on only where the piece completes it. -/
def PieceStep (hash : HashOps) (m : PutMsg) (i : ℕ) (st : Staged) (slots slots' : List Staged)
    (events : List PutEvent) : Prop :=
  ∃ st', (slots' = slots.set i st' ∨ slots' = slots) ∧ SlotSound st' ∧
    (st'.used = true → st'.sender = st.sender ∧ st'.kind = st.kind ∧ st'.id = st.id) ∧
    (events = [] ∨ Completes st m ∧ ∃ e, events = [e] ∧ e.files = some (m.place, m.id) ∧
      e.Whole hash)

section Piece

variable {W : Type} {srv : PutServer W} {cap : ℕ} {m : PutMsg} {i : ℕ} {st : Staged}
variable {s : Staging} {w : W}

theorem readPut_fits {request : Bytes} (h : readPut request = some m) :
    m.offset + m.piece.length ≤ m.total := by
  unfold readPut at h
  split at h
  · cases h
  split at h
  · cases h
  split at h
  · cases h
  · next hfits =>
      obtain rfl := Option.some.inj h
      simp only [not_or, Decidable.not_not, Nat.not_lt] at hfits
      simp only [List.length_drop]
      omega

theorem stagedFree_sound (h : SlotSound st) : SlotSound (stagedFree st) :=
  ⟨h.held, fun hused => absurd hused (by simp [stagedFree])⟩

/-- A slot freed is nobody's. -/
theorem pieceStep_free (hash : HashOps) (h : SlotSound st) (slots : List Staged) :
    PieceStep hash m i st slots (slots.set i (stagedFree st)) [] :=
  ⟨stagedFree st, Or.inl rfl, stagedFree_sound h, fun hused => absurd hused (by simp [stagedFree]),
    Or.inl rfl⟩

theorem pieceStep_refl (hash : HashOps) (h : SlotSound st) (slots : List Staged) :
    PieceStep hash m i st slots slots [] :=
  ⟨st, Or.inr rfl, h, fun _ => ⟨rfl, rfl, rfl⟩, Or.inl rfl⟩

/-- The slot with the piece in it is sound. -/
theorem stagedPiece_sound (h : SlotSound st) (hused : st.used = true)
    (hoffset : m.offset = st.held) (htotal : m.total = st.total)
    (hfits : m.offset + m.piece.length ≤ m.total) : SlotSound (stagedPiece st m) := by
  refine ⟨?_, fun _ hsmall => ?_⟩
  · show st.held + m.piece.length ≤ st.total
    omega
  · have hsmall' : st.total ≤ itemMax := hsmall
    have hheld := h.bytes hused hsmall'
    show st.held + m.piece.length ≤
      (if st.total > itemMax then st.bytes else st.bytes.take st.held ++ m.piece).length
    rw [if_neg (Nat.not_lt.2 hsmall'), List.length_append, List.length_take]
    omega

variable {file : W → Bytes32 → UInt32 → Bytes → ApplyOutcome × W} {taker : Taker W}

theorem putFile_step {st₀ : Staged} (h : SlotSound st) (hused : st.used = true)
    (hsmall : st.total ≤ itemMax) (hwhole : ¬ st.held < st.total) (hcompletes : Completes st₀ m) :
    PieceStep srv.hash m i st₀ s.slots (putFile srv cap file m i st s w).staging.slots
      (putFile srv cap file m i st s w).events := by
  have hfree := stagedFree_sound h
  have hnobody : (stagedFree st).used = true → (stagedFree st).sender = st₀.sender ∧
      (stagedFree st).kind = st₀.kind ∧ (stagedFree st).id = st₀.id :=
    fun hused => absurd hused (by simp [stagedFree])
  unfold putFile
  split
  · exact ⟨stagedFree st, Or.inl rfl, hfree, hnobody, Or.inl rfl⟩
  · next hhash =>
      refine ⟨stagedFree st, Or.inl rfl, hfree, hnobody,
        Or.inr ⟨hcompletes, _, rfl, rfl, ?_, Decidable.not_not.1 hhash⟩⟩
      have hheld := h.bytes hused hsmall
      have hle := h.held
      rw [List.length_take]
      omega

theorem putKept_step (h : SlotSound st) (hused : st.used = true) (hoffset : m.offset = st.held)
    (htotal : m.total = st.total) (hfits : m.offset + m.piece.length ≤ m.total) :
    PieceStep srv.hash m i st s.slots (putKept srv cap taker file m i st s w).staging.slots
      (putKept srv cap taker file m i st s w).events := by
  have hsound := stagedPiece_sound h hused hoffset htotal hfits
  unfold putKept
  split
  · exact ⟨stagedPiece st m, Or.inl rfl, hsound, fun _ => ⟨rfl, rfl, rfl⟩, Or.inl rfl⟩
  next hwhole =>
    have hcompletes : Completes st m := by
      have hle := hsound.held
      have hheld : (stagedPiece st m).held = st.held + m.piece.length := rfl
      have htot : (stagedPiece st m).total = st.total := rfl
      exact ⟨htotal, hoffset, by omega⟩
    split
    · split
      · exact pieceStep_refl srv.hash h s.slots
      · refine ⟨stagedFree { stagedPiece st m with held := 0 }, Or.inl rfl, ?_,
          fun hused => absurd hused (by simp [stagedFree]),
          Or.inr ⟨hcompletes, _, rfl, rfl, trivial⟩⟩
        exact stagedFree_sound ⟨Nat.zero_le _, fun _ _ => Nat.zero_le _⟩
    · next hsmall => exact putFile_step hsound hused (Nat.not_lt.1 hsmall) hwhole hcompletes

/-- **One piece of an item that has a slot.** -/
theorem putPiece_step (h : SlotSound st) (hused : st.used = true)
    (hfits : m.offset + m.piece.length ≤ m.total) :
    PieceStep srv.hash m i st s.slots (putPiece srv cap taker file m i st s w).staging.slots
      (putPiece srv cap taker file m i st s w).events := by
  unfold putPiece
  split
  · exact pieceStep_free srv.hash h s.slots
  next htotal =>
    split
    · exact ⟨st, Or.inl rfl, h, fun _ => ⟨rfl, rfl, rfl⟩, Or.inl rfl⟩
    next hoffset =>
      have hkept : ∀ w, PieceStep srv.hash m i st s.slots
          (putKept srv cap taker file m i st s w).staging.slots
          (putKept srv cap taker file m i st s w).events :=
        fun w => putKept_step h hused (Decidable.not_not.1 hoffset) (Decidable.not_not.1 htotal)
          hfits
      split
      · split
        · exact pieceStep_refl srv.hash h s.slots
        · split
          · exact hkept _
          · exact pieceStep_free srv.hash h s.slots
      · exact hkept w

theorem putAged_step (h : SlotSound st) (hused : st.used = true)
    (hfits : m.offset + m.piece.length ≤ m.total) :
    PieceStep srv.hash m i st s.slots (putAged srv cap taker file m i st s w).staging.slots
      (putAged srv cap taker file m i st s w).events := by
  have haged : SlotSound { st with age := s.clock + 1 } := ⟨h.held, h.bytes⟩
  exact putPiece_step (s := { s with clock := s.clock + 1 }) haged hused hfits

end Piece

/-! ## What one request does -/

/-- The place an event opens a slot for, where it is this item's. -/
def PutEvent.opens (sender : Key) (kind : Kind) (id : Bytes32) : PutEvent → Option Place
  | .opened key place item =>
    if key = sender ∧ place.kind = kind ∧ item = id then some place else none
  | _ => none

/-- The place the piece named that opened an item's slot last. -/
def lastOpened (log : List PutEvent) (sender : Key) (kind : Kind) (id : Bytes32) :
    Option Place :=
  log.reverse.findSome? (PutEvent.opens sender kind id)

/-- **What one request can do** to the slots, and its events. -/
inductive PutTurn {W : Type} (srv : PutServer W) (sender : Option Key) (request : Bytes)
    (slots : List Staged) (w : W) : List Staged → List PutEvent → Prop
  | idle : PutTurn srv sender request slots w slots []
  | judged (m : PutMsg) (taker : Taker W) (htaker : srv.takers m.place.kind = some taker)
      (hwelcome : welcome srv taker w m.place = true) :
      PutTurn srv sender request slots w slots [.judged m.place m.id]
  | found (key : Key) (m : PutMsg) (i : ℕ) (slots' : List Staged) (events : List PutEvent)
      (hkey : sender = some key) (hread : readPut request = some m)
      (hfor : stagedFor slots key m.place.kind m.id = some i)
      (hstep : PieceStep srv.hash m i (slots.getD i zeroSlot) slots slots' events) :
      PutTurn srv sender request slots w slots' events
  | opened (key : Key) (m : PutMsg) (i : ℕ) (old : Staged) (taker : Taker W)
      (slots' : List Staged) (events : List PutEvent)
      (htaker : srv.takers m.place.kind = some taker)
      (hwelcome : welcome srv taker w m.place = true)
      (hfor : stagedFor slots key m.place.kind m.id = none)
      (hstep : PieceStep srv.hash m i (stagedOpen old key m) slots slots' events) :
      PutTurn srv sender request slots w slots'
        (.judged m.place m.id :: .opened key m.place m.id :: events)

section Turn

variable {W : Type} {srv : PutServer W} {cap : ℕ} {sender : Option Key} {request : Bytes}
variable {s : Staging} {w : W}

/-- The slot found is this item's, and one of the eight. -/
theorem stagedFor_some {slots : List Staged} {key : Key} {kind : Kind} {id : Bytes32} {i : ℕ}
    (h : stagedFor slots key kind id = some i) : slots.getD i zeroSlot ∈ slots ∧
      (slots.getD i zeroSlot).used = true ∧ (slots.getD i zeroSlot).kind = kind ∧
      (slots.getD i zeroSlot).sender = key ∧ (slots.getD i zeroSlot).id = id := by
  obtain ⟨hi, hp, -⟩ := List.findIdx?_eq_some_iff_getElem.1 h
  have hget : slots.getD i zeroSlot = slots[i] := by simp [List.getD, hi]
  rw [hget]
  exact ⟨List.getElem_mem hi, of_decide_eq_true hp⟩

/-- An item that has no slot is no used slot's. -/
theorem stagedFor_none {slots : List Staged} {key : Key} {kind : Kind} {id : Bytes32}
    (h : stagedFor slots key kind id = none) {st : Staged} (hst : st ∈ slots)
    (hused : st.used = true) : ¬ (st.sender = key ∧ st.kind = kind ∧ st.id = id) := by
  rintro ⟨hkey, hkind, hid⟩
  have hno := List.findIdx?_eq_none_iff.1 h st hst
  exact absurd ⟨hused, hkind, hkey, hid⟩ (of_decide_eq_false hno)

theorem takes_eq {m : PutMsg} {key : Key} {taker : Taker W}
    {file : W → Bytes32 → UInt32 → Bytes → ApplyOutcome × W}
    (h : takes srv m sender = some (key, taker, file)) :
    srv.takers m.place.kind = some taker ∧ sender = some key := by
  unfold takes at h
  split at h
  · next htaker =>
      split at h
      · cases h
      · split at h
        · cases h
        · obtain ⟨rfl, rfl, rfl⟩ := Option.some.inj h
          exact ⟨htaker, rfl⟩
  · cases h

theorem putFirst_turn {m : PutMsg} {key : Key} {taker : Taker W}
    {file : W → Bytes32 → UInt32 → Bytes → ApplyOutcome × W}
    (hread : readPut request = some m) (htaker : srv.takers m.place.kind = some taker)
    (hfor : stagedFor s.slots key m.place.kind m.id = none) :
    PutTurn srv sender request s.slots w (putFirst srv cap taker file key m s w).staging.slots
      (putFirst srv cap taker file key m s w).events := by
  unfold putFirst
  split
  · exact PutTurn.idle
  split
  · exact PutTurn.idle
  next hwelcome =>
    have hwelcome : welcome srv taker w m.place = true := by simpa using hwelcome
    split
    · exact PutTurn.judged m taker htaker hwelcome
    · have hsound : SlotSound
          (stagedOpen (s.slots.getD (stagedTake s.slots) zeroSlot) key m) :=
        ⟨Nat.zero_le _, fun _ _ => Nat.zero_le _⟩
      exact PutTurn.opened key m _ _ taker _ _ htaker hwelcome hfor
        (putAged_step hsound rfl (readPut_fits hread))

/-- **Every request is one of these.** -/
theorem servePut_turn (hsound : ∀ st ∈ s.slots, SlotSound st) :
    PutTurn srv sender request s.slots w
      (servePut srv cap sender request s w).staging.slots
      (servePut srv cap sender request s w).events := by
  unfold servePut
  split
  · exact PutTurn.idle
  unfold answerPut
  split
  · exact PutTurn.idle
  next m hread =>
    split
    · exact PutTurn.idle
    next key taker file htakes =>
      obtain ⟨htaker, hkey⟩ := takes_eq htakes
      split
      · next hfor => exact putFirst_turn hread htaker hfor
      · next i hfor =>
          obtain ⟨hmem, hused, -⟩ := stagedFor_some hfor
          exact PutTurn.found key m i _ _ hkey hread hfor
            (putAged_step (hsound _ hmem) hused (readPut_fits hread))

end Turn

/-! ## Runs -/

/-- One request: what else happened at the node since the last, who sends it, what it is,
and the room of the answer. -/
structure PutCall (W : Type) where
  meanwhile : W → W
  sender : Option Key
  request : Bytes
  cap : ℕ

/-- The slots, the node's state, and every event so far. -/
structure PutState (W : Type) where
  staging : Staging
  world : W
  log : List PutEvent

/-- A bucket is judged before an item is handed to its kind for it. -/
def JudgedFirst (log : List PutEvent) : Prop :=
  ∀ pre e, pre ++ [e] <+: log → ∀ place id, e.files = some (place, id) →
    PutEvent.judged place id ∈ pre

/-- **What holds between requests:** the slots are sound, and a used slot's item was opened
where it was judged. -/
structure PutInv (slots : List Staged) (log : List PutEvent) : Prop where
  sound : ∀ st ∈ slots, SlotSound st
  opened : ∀ st ∈ slots, st.used = true →
    ∃ q, lastOpened log st.sender st.kind st.id = some q ∧ PutEvent.judged q st.id ∈ log

/-- What a piece's events come to: none, or the item handed on. -/
def HandsOn (m : PutMsg) (events : List PutEvent) : Prop :=
  events = [] ∨ ∃ e, events = [e] ∧ e.files = some (m.place, m.id)

section Log

variable {hash : HashOps} {m : PutMsg} {i : ℕ} {st : Staged} {slots slots' : List Staged}
variable {log events : List PutEvent}

theorem PieceStep.handsOn (h : PieceStep hash m i st slots slots' events) : HandsOn m events := by
  obtain ⟨-, -, -, -, hnone | ⟨-, e, he, hfiles, -⟩⟩ := h
  · exact Or.inl hnone
  · exact Or.inr ⟨e, he, hfiles⟩

theorem PieceStep.whole (h : PieceStep hash m i st slots slots' events) {e : PutEvent}
    (he : e ∈ events) : e.Whole hash := by
  obtain ⟨-, -, -, -, rfl | ⟨-, e', rfl, -, hwhole⟩⟩ := h
  · cases he
  · exact List.mem_singleton.1 he ▸ hwhole

/-- Handing an item on opens no slot. -/
theorem lastOpened_handsOn (h : HandsOn m events) (key : Key) (kind : Kind) (id : Bytes32) :
    lastOpened (log ++ events) key kind id = lastOpened log key kind id := by
  obtain rfl | ⟨e, rfl, he⟩ := h
  · rw [List.append_nil]
  · have hno : e.opens key kind id = none := by
      cases e with
      | judged => cases he
      | opened => cases he
      | filed => rfl
      | finished => rfl
    simp [lastOpened, hno]

theorem lastOpened_judged (place : Place) (item : Bytes32) (key : Key) (kind : Kind)
    (id : Bytes32) :
    lastOpened (log ++ [.judged place item]) key kind id = lastOpened log key kind id := by
  have hno : (PutEvent.judged place item).opens key kind id = none := rfl
  simp [lastOpened, hno]

theorem lastOpened_opened (key : Key) (place : Place) (item : Bytes32) (key' : Key) (kind : Kind)
    (id : Bytes32) : lastOpened (log ++ [.opened key place item]) key' kind id =
      if key = key' ∧ place.kind = kind ∧ item = id then some place
      else lastOpened log key' kind id := by
  unfold lastOpened
  rw [List.reverse_append, List.reverse_singleton, List.singleton_append, List.findSome?_cons]
  by_cases hsame : key = key' ∧ place.kind = kind ∧ item = id
  · simp [PutEvent.opens, hsame]
  · simp [PutEvent.opens, hsame]

theorem judgedFirst_snoc {e : PutEvent} (h : JudgedFirst log)
    (he : ∀ place id, e.files = some (place, id) → PutEvent.judged place id ∈ log) :
    JudgedFirst (log ++ [e]) := by
  intro pre e' hle place id hfiles
  obtain heq | hle := List.prefix_concat_iff.1 hle
  · obtain ⟨rfl, hlast⟩ := List.append_inj' heq rfl
    obtain rfl := List.singleton_inj.1 hlast
    exact he place id hfiles
  · exact h pre e' hle place id hfiles

theorem judgedFirst_handsOn (h : JudgedFirst log) (hon : HandsOn m events)
    (hjudged : events ≠ [] → PutEvent.judged m.place m.id ∈ log) :
    JudgedFirst (log ++ events) := by
  obtain rfl | ⟨e, rfl, he⟩ := hon
  · rwa [List.append_nil]
  · refine judgedFirst_snoc h fun place id hfiles => ?_
    obtain ⟨rfl, rfl⟩ := Prod.mk.inj (Option.some.inj (he.symm.trans hfiles))
    exact hjudged (List.cons_ne_nil _ _)

/-- The slots behind a piece are the old ones and the piece's. -/
theorem PieceStep.inv (h : PieceStep hash m i st slots slots' events)
    (hold : ∀ x ∈ slots, SlotSound x ∧ (x.used = true →
      ∃ q, lastOpened log x.sender x.kind x.id = some q ∧ PutEvent.judged q x.id ∈ log))
    (hown : ∃ q, lastOpened log st.sender st.kind st.id = some q ∧
      PutEvent.judged q st.id ∈ log) : PutInv slots' (log ++ events) := by
  have hon := h.handsOn
  obtain ⟨st', hslots, hsound, hsame, -⟩ := h
  have hall : ∀ x ∈ slots', SlotSound x ∧ (x.used = true →
      ∃ q, lastOpened log x.sender x.kind x.id = some q ∧ PutEvent.judged q x.id ∈ log) := by
    intro x hx
    obtain rfl | rfl := hslots
    · obtain hx | rfl := List.mem_or_eq_of_mem_set hx
      · exact hold x hx
      · refine ⟨hsound, fun hused => ?_⟩
        obtain ⟨hsender, hkind, hid⟩ := hsame hused
        rw [hsender, hkind, hid]
        exact hown
    · exact hold x hx
  refine ⟨fun x hx => (hall x hx).1, fun x hx hused => ?_⟩
  obtain ⟨q, hq, hjudged⟩ := (hall x hx).2 hused
  exact ⟨q, (lastOpened_handsOn hon _ _ _).trans hq, List.mem_append_left _ hjudged⟩

end Log

section Step

variable {W : Type} {srv : PutServer W} {sender : Option Key} {request : Bytes} {w : W}
variable {slots slots' : List Staged} {log events : List PutEvent}

/-- **The step keeps what holds between requests.** -/
theorem PutTurn.inv (h : PutTurn srv sender request slots w slots' events)
    (hinv : PutInv slots log) : PutInv slots' (log ++ events) := by
  cases h with
  | idle => rwa [List.append_nil]
  | judged m taker htaker hwelcome =>
    refine ⟨hinv.sound, fun st hst hused => ?_⟩
    obtain ⟨q, hq, hjudged⟩ := hinv.opened st hst hused
    exact ⟨q, (lastOpened_judged _ _ _ _ _).trans hq, List.mem_append_left _ hjudged⟩
  | found key m i _ _ hkey hread hfor hstep =>
    obtain ⟨hmem, hused, -⟩ := stagedFor_some hfor
    exact hstep.inv (fun x hx => ⟨hinv.sound x hx, hinv.opened x hx⟩)
      (hinv.opened _ hmem hused)
  | opened key m i old taker _ evs htaker hwelcome hfor hstep =>
    have hlog : log ++ .judged m.place m.id :: .opened key m.place m.id :: evs =
        log ++ [.judged m.place m.id] ++ [.opened key m.place m.id] ++ evs := by
      simp
    have hjudged : ∀ {e}, e ∈ log ++ [.judged m.place m.id] →
        e ∈ log ++ [.judged m.place m.id] ++ [.opened key m.place m.id] :=
      fun he => List.mem_append_left _ he
    rw [hlog]
    refine hstep.inv (fun x hx => ⟨hinv.sound x hx, fun hused => ?_⟩) ⟨m.place, ?_, ?_⟩
    · obtain ⟨q, hq, hmem⟩ := hinv.opened x hx hused
      refine ⟨q, ?_, hjudged (List.mem_append_left _ hmem)⟩
      rw [lastOpened_opened, if_neg, lastOpened_judged]
      · exact hq
      · rintro ⟨hsender, hkind, hid⟩
        exact stagedFor_none hfor hx hused ⟨hsender.symm, hkind.symm, hid.symm⟩
    · rw [lastOpened_opened]
      exact if_pos ⟨rfl, rfl, rfl⟩
    · exact hjudged (List.mem_append_right _ (List.mem_singleton.2 rfl))

/-- What is handed on is whole. -/
theorem PutTurn.whole (h : PutTurn srv sender request slots w slots' events) {e : PutEvent}
    (he : e ∈ events) : e.Whole srv.hash := by
  cases h with
  | idle => cases he
  | judged m taker htaker hwelcome =>
    obtain rfl := List.mem_singleton.1 he
    trivial
  | found key m i _ _ hkey hread hfor hstep => exact hstep.whole he
  | opened key m i old taker _ evs htaker hwelcome hfor hstep =>
    obtain rfl | he := List.mem_cons.1 he
    · trivial
    obtain rfl | he := List.mem_cons.1 he
    · trivial
    exact hstep.whole he

/-- A bucket judged is welcome. -/
theorem PutTurn.welcome (h : PutTurn srv sender request slots w slots' events) {place : Place}
    {id : Bytes32} (he : .judged place id ∈ events) :
    ∃ taker, srv.takers place.kind = some taker ∧ welcome srv taker w place = true := by
  have hnone : ∀ {m : PutMsg} {evs : List PutEvent}, HandsOn m evs →
      PutEvent.judged place id ∉ evs := by
    rintro m evs (rfl | ⟨e, rfl, hfiles⟩) hmem
    · cases hmem
    · rw [← List.mem_singleton.1 hmem] at hfiles
      cases hfiles
  cases h with
  | idle => cases he
  | judged m taker htaker hwelcome =>
    obtain ⟨rfl, rfl⟩ := PutEvent.judged.inj (List.mem_singleton.1 he)
    exact ⟨taker, htaker, hwelcome⟩
  | found key m i _ _ hkey hread hfor hstep => exact absurd he (hnone hstep.handsOn)
  | opened key m i old taker _ evs htaker hwelcome hfor hstep =>
    obtain heq | he := List.mem_cons.1 he
    · obtain ⟨rfl, rfl⟩ := PutEvent.judged.inj heq
      exact ⟨taker, htaker, hwelcome⟩
    obtain heq | he := List.mem_cons.1 he
    · cases heq
    exact absurd he (hnone hstep.handsOn)

/-- The piece that completes an item names the place of the piece that opened its slot. -/
def SteadyPiece (slots : List Staged) (log : List PutEvent) (sender : Option Key)
    (request : Bytes) : Prop :=
  ∀ key m i, sender = some key → readPut request = some m →
    stagedFor slots key m.place.kind m.id = some i → Completes (slots.getD i zeroSlot) m →
    lastOpened log key m.place.kind m.id = some m.place

/-- **A steady piece hands on only where it was judged.** -/
theorem PutTurn.judgedFirst (h : PutTurn srv sender request slots w slots' events)
    (hinv : PutInv slots log) (hsteady : SteadyPiece slots log sender request)
    (hlog : JudgedFirst log) : JudgedFirst (log ++ events) := by
  cases h with
  | idle => rwa [List.append_nil]
  | judged m taker htaker hwelcome => exact judgedFirst_snoc hlog fun _ _ hfiles => by cases hfiles
  | found key m i _ _ hkey hread hfor hstep =>
    refine judgedFirst_handsOn hlog hstep.handsOn fun hsome => ?_
    obtain ⟨-, -, -, -, hnone | ⟨hcompletes, -⟩⟩ := hstep
    · exact absurd hnone hsome
    obtain ⟨hmem, hused, hkind, hsender, hid⟩ := stagedFor_some hfor
    obtain ⟨q, hq, hjudged⟩ := hinv.opened _ hmem hused
    rw [hkind, hsender, hid] at hq
    have hplace : some q = some m.place :=
      hq.symm.trans (hsteady key m i hkey hread hfor hcompletes)
    rwa [hid, Option.some.inj hplace] at hjudged
  | opened key m i old taker _ evs htaker hwelcome hfor hstep =>
    have hsplit : log ++ .judged m.place m.id :: .opened key m.place m.id :: evs =
        log ++ [.judged m.place m.id] ++ [.opened key m.place m.id] ++ evs := by
      simp
    rw [hsplit]
    refine judgedFirst_handsOn (judgedFirst_snoc (judgedFirst_snoc hlog ?_) ?_) hstep.handsOn ?_
    · exact fun _ _ hfiles => by cases hfiles
    · exact fun _ _ hfiles => by cases hfiles
    · intro _
      simp

end Step

section Run

variable {W : Type} (srv : PutServer W)

/-- One request of a run, answered. -/
def putServe (x : PutState W) (c : PutCall W) : PutResult W :=
  servePut srv c.cap c.sender c.request x.staging (c.meanwhile x.world)

/-- A run's step. -/
def putStep (x : PutState W) (c : PutCall W) : PutState W :=
  ⟨(putServe srv x c).staging, (putServe srv x c).world, x.log ++ (putServe srv x c).events⟩

/-- A run of requests, from no slot in use. -/
def putRun (w : W) (calls : List (PutCall W)) : PutState W :=
  calls.foldl (putStep srv) ⟨zeroStaging, w, []⟩

/-- `SteadyPiece`, of a request of a run. -/
def Steady (x : PutState W) (c : PutCall W) : Prop :=
  SteadyPiece x.staging.slots x.log c.sender c.request

variable {srv}

theorem putInv_zero : PutInv zeroStaging.slots [] := by
  have hzero : ∀ st ∈ zeroStaging.slots, st = zeroSlot := fun _ => List.eq_of_mem_replicate
  refine ⟨fun st hst => ?_, fun st hst hused => ?_⟩
  · rw [hzero st hst]
    exact ⟨Nat.le_refl _, fun _ _ => Nat.le_refl _⟩
  · rw [hzero st hst] at hused
    cases hused

/-- Every request of a run is one of the turns. -/
theorem putServe_turn {x : PutState W} (h : PutInv x.staging.slots x.log) (c : PutCall W) :
    PutTurn srv c.sender c.request x.staging.slots (c.meanwhile x.world)
      (putStep srv x c).staging.slots (putServe srv x c).events :=
  servePut_turn h.sound

/-- **What holds between requests holds of every run**, and what was handed on is whole. -/
theorem putRun_inv (w : W) (calls : List (PutCall W)) :
    PutInv (putRun srv w calls).staging.slots (putRun srv w calls).log ∧
      ∀ e ∈ (putRun srv w calls).log, e.Whole srv.hash := by
  refine foldl_induction (P := fun x : PutState W => PutInv x.staging.slots x.log ∧
    ∀ e ∈ x.log, e.Whole srv.hash) ?_ ⟨putInv_zero, fun _ he => by cases he⟩
  rintro pre c - ⟨hinv, hwhole⟩
  have hturn := @putServe_turn _ srv _ hinv c
  refine ⟨hturn.inv hinv, fun e he => ?_⟩
  obtain he | he := List.mem_append.1 he
  · exact hwhole e he
  · exact hturn.whole he

/-- A run of steady pieces hands on only where it was judged. -/
theorem putRun_judgedFirst (w : W) (calls : List (PutCall W))
    (hsteady : ∀ pre c, pre ++ [c] <+: calls → Steady (putRun srv w pre) c) :
    JudgedFirst (putRun srv w calls).log := by
  refine foldl_induction (P := fun x : PutState W => JudgedFirst x.log) (fun pre c hle hlog => ?_) ?_
  · have hinv := (@putRun_inv _ srv w pre).1
    exact (putServe_turn hinv c).judgedFirst hinv (hsteady pre c hle) hlog
  · intro pre e hle
    simpa using List.prefix_nil.1 hle

/-- **Pushed items are filed where they were judged:** in every run whose items are each
completed by a piece that names the bucket its slot was opened for, an item is handed to
its kind for a bucket only behind a judgement of that bucket for the item, made when it was
not gone and its kind wanted it; what is filed is the item's length and hashes to its id;
and no slot holds more than its item's length, nor a small one more than a small item. -/
theorem pushed_where_judged (w : W) (calls : List (PutCall W))
    (hsteady : ∀ pre c, pre ++ [c] <+: calls → Steady (putRun srv w pre) c) :
    JudgedFirst (putRun srv w calls).log ∧
      (∀ pre c, pre ++ [c] <+: calls → ∀ place id,
        .judged place id ∈ (putServe srv (putRun srv w pre) c).events →
        ∃ taker, srv.takers place.kind = some taker ∧
          welcome srv taker (c.meanwhile (putRun srv w pre).world) place = true) ∧
      (∀ e ∈ (putRun srv w calls).log, e.Whole srv.hash) ∧
      ∀ st ∈ (putRun srv w calls).staging.slots,
        st.held ≤ st.total ∧ (st.total ≤ itemMax → st.held ≤ itemMax) := by
  refine ⟨putRun_judgedFirst w calls hsteady, fun pre c _ place id he => ?_,
    (putRun_inv w calls).2, fun st hst => ?_⟩
  · exact (putServe_turn (@putRun_inv _ srv w pre).1 c).welcome he
  · have hheld := ((@putRun_inv _ srv w calls).1.sound st hst).held
    exact ⟨hheld, hheld.trans⟩

end Run

/-! ## Two pieces -/

/-- An ITEM_PUT's bytes. -/
def itemPut (m : PutMsg) : Bytes :=
  [6, 15, m.place.kind.byte] ++ bytes32 m.place.subject ++ putBe 4 m.place.month.toNat ++
    bytes32 m.id ++ putBe 4 m.total ++ putBe 4 m.offset ++ putBe 2 m.piece.length ++ m.piece

/-- A node that takes every message of subject 7's and no other, by a hash that is a length. -/
def onlySeven : PutServer Unit where
  hash := ⟨fun x => some (BitVec.ofNat 256 x.length)⟩
  disk := fun _ => ⟨∅, []⟩
  takers := fun kind => if kind = .messages then
      some ⟨some fun w _ _ _ => (.applied, w), some fun _ subject _ => decide (subject = 7),
        none, none, none⟩
    else none

/-- One of two bytes of an item, for a subject. -/
def halfFor (subject : Bytes32) (offset : ℕ) : PutMsg :=
  ⟨⟨.messages, subject, 1⟩, 2, 2, offset, [1]⟩

/-- A piece sent by one sender. -/
def sentBy9 (m : PutMsg) : PutCall Unit := ⟨id, some 9, itemPut m, 40⟩

/-- **Filed where it was not judged:** the first piece names the subject that is wanted, the
second another's, and the item is filed there. -/
theorem filed_unjudged :
    (putRun onlySeven () [sentBy9 (halfFor 7 0), sentBy9 (halfFor 8 1)]).log =
        [.judged ⟨.messages, 7, 1⟩ 2, .opened 9 ⟨.messages, 7, 1⟩ 2,
          .filed ⟨.messages, 8, 1⟩ 2 2 [1, 1]] ∧
      ¬ JudgedFirst
        (putRun onlySeven () [sentBy9 (halfFor 7 0), sentBy9 (halfFor 8 1)]).log := by
  have hlog : (putRun onlySeven () [sentBy9 (halfFor 7 0), sentBy9 (halfFor 8 1)]).log =
      [.judged ⟨.messages, 7, 1⟩ 2, .opened 9 ⟨.messages, 7, 1⟩ 2,
        .filed ⟨.messages, 8, 1⟩ 2 2 [1, 1]] := by decide
  refine ⟨hlog, fun hjudged => ?_⟩
  rw [hlog] at hjudged
  have hmem := hjudged [.judged ⟨.messages, 7, 1⟩ 2, .opened 9 ⟨.messages, 7, 1⟩ 2] _
    List.prefix_rfl _ _ rfl
  exact absurd hmem (by decide)

theorem pushed_where_judged_twice :
    JudgedFirst (putRun onlySeven () [sentBy9 (halfFor 7 0), sentBy9 (halfFor 7 1)]).log ∧
      (putRun onlySeven () [sentBy9 (halfFor 7 0), sentBy9 (halfFor 7 1)]).log =
        [.judged ⟨.messages, 7, 1⟩ 2, .opened 9 ⟨.messages, 7, 1⟩ 2,
          .filed ⟨.messages, 7, 1⟩ 2 2 [1, 1]] := by
  refine ⟨(pushed_where_judged () _ ?_).1, by decide⟩
  refine forall_prefix fun n hn => ?_
  obtain rfl | rfl : n = 0 ∨ n = 1 := by
    have : n < 2 := hn
    omega
  · intro key m i _ _ hfor
    have hnone : stagedFor zeroStaging.slots key m.place.kind m.id = none := rfl
    exact absurd (hnone.symm.trans hfor) (by simp)
  · intro key m i hkey hread _ _
    have hsecond : readPut (itemPut (halfFor 7 1)) = some (halfFor 7 1) := by decide
    obtain rfl := Option.some.inj (hsecond.symm.trans hread)
    obtain rfl := Option.some.inj hkey
    have hopened : lastOpened (putRun onlySeven () [sentBy9 (halfFor 7 0)]).log 9 .messages 2 =
        some ⟨.messages, 7, 1⟩ := by decide
    exact hopened

end Node
end Fuzznet
