/-
# The spool

`spool/spool.c`: a blob's leaves as they arrive, each in a slot of `FZN_BLOB_SEALED_MAX` bytes,
behind a bitmap of the leaves held.  A leaf is placed with a proof of its own or in a span of
leaves with one proof; the leaf and the rest of its slot are two writes, and the bit is set
behind them.

The storage is the caller's.  A write of it is done, or it fails and leaves anything in its
range.  `moments` is not in the source: it keeps what a call has done to the bitmap and the
storage so far, with both as they stood behind it.
-/

import Fuzznet.Blob.Span
import Fuzznet.Lib.Bitmap

namespace Fuzznet
namespace Spool

open Wire Lib Blob

/-- `FZN_SPOOL_MAX_LEAVES`. -/
def spoolMaxLeaves : ℕ := 2 ^ 22

/-- `SPAN_MAX_LEAVES`. -/
def spanMaxLeaves : ℕ := 64

/-- `fzn_spool_err_t`, the codes of what is modelled. -/
inductive SpoolErr
  | malformed
  | tooLarge
  | unverified
  | backend
  | absent
  deriving DecidableEq, Repr

/-- What the storage holds, by offset. -/
abbrev Storage := ℕ → UInt8

/-- What a `write_at` comes to: a write that fails leaves what it likes in its range. -/
inductive Written
  | done
  | failed (left : Storage)

/-- What the backend does with a call's writes, by their offset. -/
abbrev Backend := ℕ → Written

/-- What a call does. -/
inductive Effect
  | wrote (offset len : ℕ)
  | marked (index : ℕ)
  | cleared (index : ℕ)
  deriving DecidableEq, Repr

/-- The bitmap and the storage behind an effect. -/
structure Moment where
  effect : Effect
  present : Bytes
  storage : Storage

/-- `fzn_spool_t` over its storage; `held` is the source's `have`. -/
structure SpoolState where
  root : Bytes32
  leaves : ℕ
  held : ℕ
  present : Bytes
  storage : Storage
  moments : List Moment

/-- `FZN_SPOOL_BITMAP_LEN`. -/
def bitmapLen (leaves : ℕ) : ℕ := (leaves + 7) / 8

/-- `offset_of`. -/
def offsetOf (index : ℕ) : ℕ := index * sealedMax

/-- `fzn_spool_open`. -/
def spoolOpen (root : Bytes32) (leaves : ℕ) (present : Bytes) (storage : Storage) :
    Except SpoolErr SpoolState :=
  if leaves = 0 then .error .malformed
  else if spoolMaxLeaves < leaves then .error .tooLarge
  else if present.length < bitmapLen leaves then .error .malformed
  else .ok ⟨root, leaves, bitCount present leaves, present, storage, []⟩

/-- The bytes of a range replaced. -/
def splice (storage : Storage) (offset len : ℕ) (new : Storage) : Storage :=
  fun p => if offset ≤ p ∧ p < offset + len then new p else storage p

/-- What a write leaves in the storage. -/
def Written.on (w : Written) (storage : Storage) (offset : ℕ) (bytes : Bytes) : Storage :=
  match w with
  | .done => splice storage offset bytes.length fun p => bytes.getD (p - offset) 0
  | .failed left => splice storage offset bytes.length left

/-- Whether a write is done. -/
def Written.isDone : Written → Bool
  | .done => true
  | .failed _ => false

/-- `write_at`. -/
def writeAt (backend : Backend) (s : SpoolState) (offset : ℕ) (bytes : Bytes) : SpoolState × Bool :=
  let storage := (backend offset).on s.storage offset bytes
  ({ s with
      storage := storage
      moments := s.moments ++ [⟨.wrote offset bytes.length, s.present, storage⟩] },
    (backend offset).isDone)

/-- `bit_set` and `have++`. -/
def mark (s : SpoolState) (index : ℕ) : SpoolState :=
  { s with
    held := s.held + 1
    present := bitSet s.present index
    moments := s.moments ++ [⟨.marked index, bitSet s.present index, s.storage⟩] }

/-- `bit_clear` and `have--`. -/
def unmark (s : SpoolState) (index : ℕ) : SpoolState :=
  { s with
    held := s.held - 1
    present := bitClear s.present index
    moments := s.moments ++ [⟨.cleared index, bitClear s.present index, s.storage⟩] }

/-- The zeros behind a leaf that is shorter than its slot. -/
def writeTail (backend : Backend) (s : SpoolState) (index : ℕ) (sealed : Bytes) : SpoolState × Bool :=
  if sealed.length < sealedMax then
    writeAt backend s (offsetOf index + sealed.length)
      (List.replicate (sealedMax - sealed.length) 0)
  else (s, true)

/-- What `fzn_spool_place` and `fzn_spool_place_span` do with a leaf that is proved. -/
def putLeaf (backend : Backend) (s : SpoolState) (index : ℕ) (sealed : Bytes) :
    SpoolState × Except SpoolErr Unit :=
  let body := writeAt backend s (offsetOf index) sealed
  if body.2 = false then (body.1, .error .backend)
  else
    let tail := writeTail backend body.1 index sealed
    if tail.2 = false then (tail.1, .error .backend)
    else (mark tail.1 index, .ok ())

/-- `fzn_spool_place`. -/
def place (ops : HashOps) (backend : Backend) (s : SpoolState) (index : ℕ) (sealed : Bytes)
    (proof : List Bytes32) : SpoolState × Except SpoolErr Unit :=
  if s.leaves ≤ index then (s, .error .tooLarge)
  else if sealed.length = 0 ∨ sealedMax < sealed.length then (s, .error .unverified)
  else if bitGet s.present index then (s, .ok ())
  else
    match leafHash ops sealed with
    | .error _ => (s, .error .unverified)
    | .ok leaf =>
      match proofVerify ops leaf index s.leaves proof s.root with
      | .error _ => (s, .error .unverified)
      | .ok _ => putLeaf backend s index sealed

/-- The hashes of a span's leaves: a leaf of a length that none has is refused before it is
hashed. -/
def spanHashes (ops : HashOps) : List Bytes → Except SpoolErr (List Bytes32)
  | [] => .ok []
  | sealed :: rest =>
    if sealed.length = 0 ∨ sealedMax < sealed.length then .error .unverified
    else
      match leafHash ops sealed with
      | .error _ => .error .unverified
      | .ok leaf => do
        let leaves ← spanHashes ops rest
        .ok (leaf :: leaves)

/-- The last loop of `fzn_spool_place_span`. -/
def putSpan (backend : Backend) (s : SpoolState) (index : ℕ) :
    List Bytes → SpoolState × Except SpoolErr Unit
  | [] => (s, .ok ())
  | sealed :: rest =>
    if bitGet s.present index then putSpan backend s (index + 1) rest
    else
      let put := putLeaf backend s index sealed
      match put.2 with
      | .error e => (put.1, .error e)
      | .ok _ => putSpan backend put.1 (index + 1) rest

/-- `fzn_spool_place_span`. -/
def placeSpan (ops : HashOps) (backend : Backend) (s : SpoolState) (first : ℕ) (sealed : List Bytes)
    (proof : List Bytes32) : SpoolState × Except SpoolErr Unit :=
  if sealed.length = 0 ∨ spanMaxLeaves < sealed.length then (s, .error .malformed)
  else if s.leaves ≤ first ∨ s.leaves - first < sealed.length then (s, .error .tooLarge)
  else if spanIsCanonical s.leaves first sealed.length = false then (s, .error .unverified)
  else
    match spanHashes ops sealed with
    | .error e => (s, .error e)
    | .ok leafHashes =>
      match spanRoot ops leafHashes with
      | .error _ => (s, .error .unverified)
      | .ok span =>
        match spanProofVerify ops span first sealed.length s.leaves proof s.root with
        | .error _ => (s, .error .unverified)
        | .ok _ => putSpan backend s first sealed

/-- The loop of `fzn_spool_forget`: `count` leaves from `index` on. -/
def forgetFrom (s : SpoolState) (index : ℕ) : ℕ → SpoolState × ℕ
  | 0 => (s, 0)
  | count + 1 =>
    if bitGet s.present index = false then forgetFrom s (index + 1) count
    else
      let rest := forgetFrom (unmark s index) (index + 1) count
      (rest.1, rest.2 + 1)

/-- `fzn_spool_forget`: how many leaves it dropped. -/
def forget (s : SpoolState) (first count : ℕ) : SpoolState × ℕ :=
  if s.leaves ≤ first ∨ s.leaves - first < count then (s, 0) else forgetFrom s first count

/-- `fzn_spool_complete`. -/
def complete (s : SpoolState) : Bool := decide (0 < s.leaves) && s.held == s.leaves

/-- The loop of `fzn_spool_next_missing`, with `todo` leaves left. -/
def missingFrom (present : Bytes) (i : ℕ) : ℕ → Except SpoolErr ℕ
  | 0 => .error .absent
  | todo + 1 => if bitGet present i = false then .ok i else missingFrom present (i + 1) todo

/-- `fzn_spool_next_missing`. -/
def nextMissing (s : SpoolState) (start : ℕ) : Except SpoolErr ℕ :=
  missingFrom s.present start (s.leaves - start)

/-- A call on a spool, with what the backend does with its writes. -/
inductive Call
  | place (index : ℕ) (sealed : Bytes) (proof : List Bytes32) (backend : Backend)
  | placeSpan (first : ℕ) (sealed : List Bytes) (proof : List Bytes32) (backend : Backend)
  | forget (first count : ℕ)
  | reopen

/-- A call, on a record of its own: `fzn_spool_open` over the bitmap and the storage there are
is `reopen`. -/
def call (ops : HashOps) (s : SpoolState) : Call → SpoolState
  | .place index sealed proof backend =>
    (place ops backend { s with moments := [] } index sealed proof).1
  | .placeSpan first sealed proof backend =>
    (placeSpan ops backend { s with moments := [] } first sealed proof).1
  | .forget first count => (forget { s with moments := [] } first count).1
  | .reopen =>
    match spoolOpen s.root s.leaves s.present s.storage with
    | .ok s' => s'
    | .error _ => { s with moments := [] }

/-- A run of calls. -/
def run (ops : HashOps) (s : SpoolState) (calls : List Call) : SpoolState := calls.foldl (call ops) s

end Spool
end Fuzznet
