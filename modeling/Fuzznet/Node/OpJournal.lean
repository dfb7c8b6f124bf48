/-
# The operation journal

`node/opjournal.c`.  Every write to a node's persistent state goes through the journal's
operations, which make it on the base store and enter it behind that: the row, and the
bytes saved to it kept in the base store, under the entry's place, in a row of slot
`FZN_PERSIST_OP_BYTES`.  The entries stand in generations, each a journal of its own that
opens with a snapshot of the store; the oldest is dropped whole.  Removing a row erases
every byte kept for it.

The store, the journals and the process are one `Host`.  All that outlasts the process is
its `Disk`, which it changes by a `Write` at a time, and the process may stop behind any of
these; it comes back with `start`.  A row of the store is held with the row its bytes were
saved to, which the code does not write down and nothing here reads.

What is refused is not up to the process: `refusals` says it, one question at a time.  A
listing may be, a row's save and its removal, the save of a copy, and a generation's journal
may refuse to be made or added to; what is refused changes nothing.  Loads work, and so do
the removal of a copy and the drop of a generation, whose answers the code does not look at.
-/

import Mathlib.Algebra.Group.Nat.Defs
import Mathlib.Data.List.AList
import Fuzznet.Lib.Lasting
import Fuzznet.Persist.Ops

namespace Fuzznet
namespace Node
namespace OpJournal

open Wire (Bytes Bytes32)
open Persist (PersistSlot)

/-- `FZN_OPJOURNAL_BYTES_MAX`. -/
def bytesMax : ℕ := 16 * 1024

/-- `FZN_OPJOURNAL_GENERATIONS_MAX`. -/
def generationsMax : ℕ := 4

/-- `FZN_OPJOURNAL_SNAPSHOT_ROWS`. -/
def snapshotMax : ℕ := 4096

/-- `FZN_PERSIST_SLOT_END`. -/
def slotEnd : ℕ := 71

/-- `fzn_opjournal_keeps`, of a slot's number. -/
def keeps (slot : ℕ) : Bool :=
  [PersistSlot.ownPrekey, .peer, .sendChain, .recvChain, .nodePeer, .ownIdentity, .pairedNode,
    .ownRoot, .noteWrap, .conversationKey, .opBytes].all fun s => s.number ≠ slot

/-- `fzn_persist_slot_whole_host`, of a slot's number. -/
def slotWholeHost (slot : ℕ) : Bool :=
  [PersistSlot.trust, .ownPrekey, .ownIdentity, .ownRoot, .ownAdmin].any fun s => s.number = slot

/-- A row of the store: its slot's number, and its subject unless it is the whole host's. -/
structure Row where
  slot : ℕ
  subject : Option Bytes32
  deriving DecidableEq, Repr

/-- What a row holds, and the row it was saved to. -/
structure Copy where
  whose : Row
  bytes : Bytes
  deriving DecidableEq, Repr

inductive Op
  | save | remove | opened
  deriving DecidableEq, Repr

/-- `fzn_opjournal_entry_t`: its flags are whether its row has a subject and whether its
bytes were kept. -/
structure Entry where
  op : Op
  row : Row
  bytesKept : Bool
  hash : Bytes32
  length : ℕ
  deriving DecidableEq, Repr

/-- `bytes_key`. -/
def bytesKey (g seq : ℕ) : Bytes32 := BitVec.ofNat 64 g ++ BitVec.ofNat 64 seq ++ 0#128

/-- Where an entry's bytes are kept. -/
def keptRow (g seq : ℕ) : Row := ⟨PersistSlot.opBytes.number, some (bytesKey g seq)⟩

/-- The store, and the journals of the generations there are. -/
structure Disk where
  rows : AList fun _ : Row => Copy
  journals : AList fun _ : ℕ => List Entry

/-- What a process does to its disk: a row saved, bytes kept for a row, a row removed; and a
generation's journal made if there is none, added to, and dropped. -/
inductive Write
  | save (row : Row) (bytes : Bytes)
  | keep (g seq : ℕ) (whose : Row) (bytes : Bytes)
  | remove (row : Row)
  | create (g : ℕ)
  | append (g : ℕ) (e : Entry)
  | drop (g : ℕ)
  deriving DecidableEq, Repr

def Disk.apply (d : Disk) : Write → Disk
  | .save row bytes => { d with rows := d.rows.insert row ⟨row, bytes⟩ }
  | .keep g seq whose bytes => { d with rows := d.rows.insert (keptRow g seq) ⟨whose, bytes⟩ }
  | .remove row => { d with rows := d.rows.erase row }
  | .create g => { d with journals := d.journals.insert g ((d.journals.lookup g).getD []) }
  | .append g e =>
    { d with journals := d.journals.insert g ((d.journals.lookup g).getD [] ++ [e]) }
  | .drop g => { d with journals := d.journals.erase g }

/-- What the caller of `fzn_opjournal_start` sets: how many generations to hold, the writes
one takes, 0 for any number, the bytes to keep, 0 for any number, and the hash. -/
structure Config where
  keep : ℕ
  rotateAt : ℕ
  budget : ℕ
  hash : Bytes → Option Bytes32

/-- `fzn_opjournal_t`. -/
structure Oj extends Config where
  first : ℕ
  last : ℕ
  unrecorded : ℕ
  unkept : ℕ
  unrotated : ℕ
  kept : ℕ
  oldestGeneration : ℕ
  oldest : ℕ
  openedAt : ℕ
  retryAt : ℕ

/-- A process with its journal open, and what it will be refused. -/
structure Host extends Lib.Lasting Write Disk where
  oj : Oj
  refusals : List Bool

namespace Host

/-- Whether the next question is refused. -/
def refused (h : Host) : Bool := h.refusals.headD false

def asked (h : Host) : Host := { h with refusals := h.refusals.tail }

def perform (h : Host) (w : Write) : Host :=
  { h with toLasting := h.toLasting.write Disk.apply w }

/-- The base's `load`. -/
def load (h : Host) (row : Row) (cap : ℕ) : Option Bytes :=
  ((h.disk.rows.lookup row).map Copy.bytes).filter fun b => b.length ≤ cap

/-- The subjects of a slot's rows: the base's `list`. -/
def list (h : Host) (slot max : ℕ) : Option (List Bytes32) :=
  let subjects := h.disk.rows.keys.filterMap fun r => if r.slot = slot then r.subject else none
  if h.refused ∨ max < subjects.length then none else some subjects

/-! ## Generations and entries -/

/-- `journal_of`. -/
def journalOf (h : Host) (g : ℕ) : Option (List Entry) :=
  if g = 0 ∨ g < h.oj.first ∨ h.oj.last < g then none else h.disk.journals.lookup g

/-- `held_in`. -/
def heldIn (h : Host) (g : ℕ) : ℕ := ((h.journalOf g).getD []).length

/-- `entry_at`. -/
def entryAt (h : Host) (g seq : ℕ) : Option Entry :=
  (h.journalOf g).bind fun es => if seq = 0 then none else es[seq - 1]?

/-- `bytes_held`. -/
def bytesHeld (h : Host) (g seq : ℕ) (e : Entry) : Bool :=
  decide (e.op = .save) && e.bytesKept && (h.load (keptRow g seq) bytesMax).isSome

/-- `erase_kept`. -/
def eraseKept (h : Host) (g seq : ℕ) (e : Entry) : Host :=
  if h.bytesHeld g seq e then
    let h := h.perform (.remove (keptRow g seq))
    { h with oj := { h.oj with kept := h.oj.kept - e.length } }
  else h

def countUnrecorded (h : Host) : Host :=
  { h with oj := { h.oj with unrecorded := h.oj.unrecorded + 1 } }

def countUnkept (h : Host) : Host := { h with oj := { h.oj with unkept := h.oj.unkept + 1 } }

/-- The bytes of `enter`, hashed into the entry and kept under its place. -/
def keepBytes (h : Host) (g seq : ℕ) (e : Entry) (bytes : Bytes) : Entry × Host :=
  let e := { e with length := bytes.length % 2 ^ 32 }
  match if bytesMax < bytes.length then none else h.oj.hash bytes with
  | none => ({ e with hash := 0 }, h.countUnkept)
  | some hash =>
    if h.refused then ({ e with hash := hash }, h.asked.countUnkept)
    else
      let h := h.asked.perform (.keep g seq e.row bytes)
      ({ e with hash := hash, bytesKept := true },
        { h with oj := { h.oj with kept := h.oj.kept + bytes.length } })

/-- The entry of `enter` appended, or the bytes kept for it taken back out. -/
def appendEntry (h : Host) (g seq : ℕ) (e : Entry) (len : ℕ) : Option Entry × Host :=
  if h.refused then
    if e.bytesKept then
      let h := h.asked.perform (.remove (keptRow g seq))
      (none, { h with oj := { h.oj with kept := h.oj.kept - len } }.countUnrecorded)
    else (none, h.asked.countUnrecorded)
  else (some e, h.asked.perform (.append g e))

/-- `enter`: the entry as entered, unless it was not. -/
def enter (h : Host) (g : ℕ) (e : Entry) (bytes : Option Bytes) : Option Entry × Host :=
  match h.journalOf g with
  | none => (none, h.countUnrecorded)
  | some es =>
    match bytes with
    | none => h.appendEntry g (es.length + 1) e 0
    | some bytes =>
      let (e, h) := h.keepBytes g (es.length + 1) e bytes
      h.appendEntry g (es.length + 1) e bytes.length

/-- The entries of a generation. -/
def places (h : Host) (g : ℕ) : List ℕ := List.range' 1 (h.heldIn g)

/-- `opened_in`. -/
def openedIn (h : Host) (g : ℕ) : ℕ :=
  ((h.places g).find? fun seq => (h.entryAt g seq).any fun e => e.op = .opened).getD 0

/-- What an entry kept is erased, if `p` names the entry. -/
def eraseEntry (p : Entry → Bool) (g : ℕ) (h : Host) (seq : ℕ) : Host :=
  match h.entryAt g seq with
  | some e => if p e then h.eraseKept g seq e else h
  | none => h

/-- What the entries of a generation that `p` names kept is erased. -/
def eraseEntries (h : Host) (g : ℕ) (p : Entry → Bool) : Host :=
  (h.places g).foldl (eraseEntry p g) h

/-- `drop_generation`. -/
def dropGeneration (h : Host) (g : ℕ) : Host :=
  let h := (h.eraseEntries g fun _ => true).perform (.drop g)
  if g = h.oj.first ∧ g = h.oj.last then { h with oj := { h.oj with first := 0, last := 0 } }
  else if g = h.oj.first then { h with oj := { h.oj with first := h.oj.first + 1 } }
  else if g = h.oj.last then { h with oj := { h.oj with last := h.oj.last - 1 } }
  else h

/-! ## Snapshots -/

/-- `snapshot_row`: how many rows there are with it, unless it fails the snapshot. -/
def snapshotRow (h : Host) (g : ℕ) (row : Row) (listed : Bool) (count : ℕ) : Option ℕ × Host :=
  match h.load row bytesMax with
  | none => (if listed then none else some count, h)
  | some bytes =>
    match h.enter g ⟨.save, row, false, 0, 0⟩ (some bytes) with
    | (some e, h) => (if e.bytesKept then some (count + 1) else none, h)
    | (none, h) => (none, h)

/-- The rows of a slot that were listed. -/
def snapshotRows (g slot : ℕ) : List Bytes32 → ℕ → Host → Option ℕ × Host
  | [], count, h => (some count, h)
  | k :: ks, count, h =>
    match h.snapshotRow g ⟨slot, some k⟩ true count with
    | (some count, h) => snapshotRows g slot ks count h
    | (none, h) => (none, h)

/-- The rows of a slot. -/
def snapshotSlot (h : Host) (g slot count : ℕ) : Option ℕ × Host :=
  if keeps slot = false then (some count, h)
  else if slotWholeHost slot then h.snapshotRow g ⟨slot, none⟩ false count
  else
    match h.list slot snapshotMax with
    | none => (none, h.asked)
    | some subjects => snapshotRows g slot subjects count h.asked

/-- The rows of every slot. -/
def snapshot (g : ℕ) : List ℕ → ℕ → Host → Option ℕ × Host
  | [], count, h => (some count, h)
  | slot :: slots, count, h =>
    match h.snapshotSlot g slot count with
    | (some count, h) => snapshot g slots count h
    | (none, h) => (none, h)

/-- A generation's journal opened, as the newest. -/
def beginGeneration (h : Host) (g : ℕ) : Host :=
  let h := h.asked.perform (.create g)
  { h with oj := { h.oj with first := if h.oj.first = 0 then g else h.oj.first, last := g } }

/-- `open_generation`. -/
def openGeneration (h : Host) (g : ℕ) : Bool × Host :=
  if h.refused then (false, h.asked)
  else
    match snapshot g (List.range' 1 (slotEnd - 1)) 0 (h.beginGeneration g) with
    | (none, h) => (false, h.dropGeneration g)
    | (some count, h) =>
      if 2 ^ 32 ≤ count then (false, h.dropGeneration g)
      else
        match h.enter g ⟨.opened, ⟨0, none⟩, false, 0, count⟩ none with
        | (none, h) => (false, h.dropGeneration g)
        | (some _, h) => (true, { h with oj := { h.oj with openedAt := h.heldIn g } })

/-! ## Retention and rotation -/

/-- The kept bytes are in the budget, or there is none. -/
def Within (h : Host) : Prop := h.oj.budget = 0 ∨ h.oj.kept ≤ h.oj.budget

instance (h : Host) : Decidable h.Within := inferInstanceAs (Decidable (_ ∨ _))

/-- The walk of `retain` over the entries left of a generation. -/
def retainEntries : ℕ → Host → Host
  | 0, h => h
  | n + 1, h =>
    if h.Within then h
    else
      let h' := match h.entryAt h.oj.oldestGeneration h.oj.oldest with
        | some e => h.eraseKept h.oj.oldestGeneration h.oj.oldest e
        | none => h
      retainEntries n { h' with oj := { h'.oj with oldest := h'.oj.oldest + 1 } }

/-- The walk of `retain` over a generation and those behind it. -/
def retainGenerations : ℕ → Host → Host
  | 0, h => retainEntries (h.heldIn h.oj.oldestGeneration + 1 - h.oj.oldest) h
  | n + 1, h =>
    let h := retainEntries (h.heldIn h.oj.oldestGeneration + 1 - h.oj.oldest) h
    if h.Within then h
    else
      retainGenerations n { h with
        oj := { h.oj with oldestGeneration := h.oj.oldestGeneration + 1, oldest := 1 } }

/-- The walk of `retain` not in front of the first generation. -/
def fromFirst (h : Host) : Host :=
  if h.oj.oldestGeneration < h.oj.first then
    { h with oj := { h.oj with oldestGeneration := h.oj.first, oldest := 1 } }
  else h

/-- The walk of `retain` not in front of the first entry. -/
def fromOne (h : Host) : Host :=
  if h.oj.oldest = 0 then { h with oj := { h.oj with oldest := 1 } } else h

/-- `retain`: where its loop goes on to the next generation, what it first sets right is
right already, so that is done once. -/
def retain (h : Host) : Host :=
  if h.Within then h
  else if h.fromFirst.oj.oldestGeneration = 0 ∨
      h.fromFirst.oj.last < h.fromFirst.oj.oldestGeneration then h.fromFirst
  else
    retainGenerations (h.fromFirst.oj.last - h.fromFirst.oj.oldestGeneration) h.fromFirst.fromOne

/-- The oldest generations past `keep` dropped, of at most `n`. -/
def dropPast : ℕ → Host → Host
  | 0, h => h
  | n + 1, h =>
    if h.oj.keep < h.oj.last - h.oj.first + 1 then dropPast n (h.dropGeneration h.oj.first)
    else h

/-- A rotation put off by a quarter of a generation, of a journal as it was before it. -/
def putOff (h : Host) (before : Oj) (writes : ℕ) : Host :=
  let pause := if before.rotateAt / 4 = 0 then 1 else before.rotateAt / 4
  { h with oj := { h.oj with
      last := before.last, openedAt := before.openedAt, unrotated := h.oj.unrotated + 1,
      retryAt := writes + pause } }

/-- A rotation done. -/
def putOn (h : Host) : Host := { h with oj := { h.oj with retryAt := 0 } }

/-- The writes entered in the newest generation behind its snapshot. -/
def writesIn (h : Host) : ℕ := h.heldIn h.oj.last - h.oj.openedAt

/-- `rotate`. -/
def rotate (h : Host) : Host :=
  if h.oj.rotateAt = 0 ∨ h.writesIn < h.oj.rotateAt ∨ h.writesIn < h.oj.retryAt then h
  else
    match h.openGeneration (h.oj.last + 1) with
    | (false, h') => h'.putOff h.oj h.writesIn
    | (true, h') => dropPast (h'.oj.last - h'.oj.first) h'.putOn

/-! ## Starting -/

/-- The generations there are, opened. -/
def openHeld : List ℕ → Host → Bool × Host
  | [], h => (true, h)
  | g :: gs, h => if h.refused then (false, h.asked) else openHeld gs (h.asked.perform (.create g))

/-- The bytes kept up to a place of the walk in `fzn_opjournal_start`, and the first place
that keeps some; none when an entry would not read. -/
def countPlace (h : Host) (counted : Option (ℕ × ℕ × ℕ)) (place : ℕ × ℕ) : Option (ℕ × ℕ × ℕ) :=
  counted.bind fun (kept, g, seq) =>
    (h.entryAt place.1 place.2).map fun e =>
      if h.bytesHeld place.1 place.2 e then
        (kept + e.length, if g = 0 then place else (g, seq))
      else (kept, g, seq)

/-- The generations held. -/
def generations (h : Host) : List ℕ := List.range' h.oj.first (h.oj.last + 1 - h.oj.first)

/-- The end of `fzn_opjournal_start`, with a newest generation that is opened. -/
def startOpened (h : Host) : Bool × Host :=
  let h := { h with oj := { h.oj with openedAt := h.openedIn h.oj.last } }
  let h := dropPast (h.oj.last - h.oj.first) h
  let held := h.generations.flatMap fun g => (h.places g).map fun seq => (g, seq)
  match held.foldl h.countPlace (some (0, 0, 0)) with
  | none => (false, h)
  | some (kept, g, seq) =>
    (true, { h with oj := { h.oj with kept := kept, oldestGeneration := g, oldest := seq } }.retain)

/-- `fzn_opjournal_start`, of a journal whose generations were set from what exists. -/
def start (h : Host) : Bool × Host :=
  if h.oj.keep = 0 ∨ generationsMax ≤ h.oj.keep ∨
      (h.oj.last ≠ 0 ∧ generationsMax ≤ h.oj.last - h.oj.first) then (false, h)
  else
    match openHeld (if h.oj.first = 0 then [] else h.generations) h with
    | (false, h) => (false, h)
    | (true, h) =>
      let h := if h.oj.last ≠ 0 ∧ h.openedIn h.oj.last = 0 then h.dropGeneration h.oj.last else h
      if h.oj.last = 0 then
        match h.openGeneration 1 with
        | (false, h) => (false, h)
        | (true, h) => h.startOpened
      else h.startOpened

/-! ## The decorator -/

/-- `oj_save`. -/
def ojSave (h : Host) (row : Row) (bytes : Bytes) : Bool × Host :=
  if h.refused then (false, h.asked)
  else
    let h := h.asked.perform (.save row bytes)
    let kept := if keeps row.slot then some bytes else none
    let h := (h.enter h.oj.last ⟨.save, row, false, 0, 0⟩ kept).2
    (true, h.rotate.retain)

/-- What is kept for a row is erased, in every generation. -/
def eraseRow (h : Host) (row : Row) : Host :=
  if h.oj.first = 0 then h
  else
    h.generations.foldl (fun h g => h.eraseEntries g fun e => e.op = .save ∧ e.row = row) h

/-- `oj_remove`. -/
def ojRemove (h : Host) (row : Row) : Bool × Host :=
  if h.refused then (false, h.asked)
  else
    let h := h.asked.perform (.remove row)
    let h := if keeps row.slot then h.eraseRow row else h
    let h := (h.enter h.oj.last ⟨.remove, row, false, 0, 0⟩ none).2
    (true, h.rotate)

end Host

/-! ## Runs -/

/-- Which generations exist: none, or an unbroken row of them (`op_generations_held`). -/
def generationsHeld (d : Disk) : Option (ℕ × ℕ) :=
  let gs := d.journals.keys.filter fun g => 0 < g
  let first := gs.min?.getD 0
  let last := gs.max?.getD 0
  if gs.length = 0 ∨ last - first + 1 = gs.length ∧ gs.length ≤ generationsMax then
    some (first, last)
  else none

inductive Call
  | start (c : Config)
  | save (row : Row) (bytes : Bytes)
  | remove (row : Row)

/-- A call, what it will be refused, and how many of its writes it stops short of, if the
process stops in it. -/
structure Event where
  call : Call
  refusals : List Bool
  left : Option ℕ

/-- The disk, the journal of a process that has it open, and what the last call answered,
if it did. -/
structure World where
  disk : Disk
  oj : Option Oj
  returned : Option Bool

/-- A call made to its end: its answer, whether the journal is open behind it, and the
process. -/
def serve (w : World) (e : Event) : Option (Bool × Bool × Host) :=
  match e.call with
  | .start c => (generationsHeld w.disk).map fun (first, last) =>
    let (ok, h) := Host.start ⟨.begin w.disk, ⟨c, first, last, 0, 0, 0, 0, 0, 0, 0, 0⟩, e.refusals⟩
    (ok, ok, h)
  | .save row bytes => w.oj.map fun oj =>
    let (ok, h) := Host.ojSave ⟨.begin w.disk, oj, e.refusals⟩ row bytes
    (ok, true, h)
  | .remove row => w.oj.map fun oj =>
    let (ok, h) := Host.ojRemove ⟨.begin w.disk, oj, e.refusals⟩ row
    (ok, true, h)

def step (w : World) (e : Event) : World :=
  match serve w e with
  | none => ⟨w.disk, none, none⟩
  | some (ok, live, h) =>
    match e.left with
    | none => ⟨h.disk, if live then some h.oj else none, some ok⟩
    | some n => ⟨((h.left n).map Prod.snd).getD w.disk, none, none⟩

end OpJournal
end Node
end Fuzznet
