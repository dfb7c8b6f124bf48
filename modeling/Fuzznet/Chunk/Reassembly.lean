/-
# Datagram reassembly under a hard memory bound

`chunk/reassembly.c`.  A table holds a fixed number of half-finished messages, each
in a slot with its own buffer.  The first piece of a message takes a free slot and
sizes it; a piece that is not the last fixes the stride, and piece `i` then lands at
`i * chunk_size`.  A last piece that comes first leaves the stride unknown
(`chunk_size` 0) and waits at the end of the buffer until another piece sets it.

`fzn_reasm_accept` is cut where its control flow is: `slotFor` finds or takes the
slot of the message, `beforeGuard` is everything up to the bounds check in front of
the copy, and `placePiece` the check, the copy and the hand-out.

Sizes are `size_t`: `offset_of` and the count of bytes held are computed modulo
`2^64`, and a buffer has fewer bytes than that.  `chunks`, `arrived` and an index
are `uint16_t`; they are compared, never wrapped, since no slot takes more than
`FZN_REASM_MAX_CHUNKS` pieces, and `index + 1u` is computed in an `unsigned`.
-/

import Fuzznet.Frame.Freshness
import Fuzznet.Lib.Buffer

namespace Fuzznet
namespace Chunk

open Wire

/-- `FZN_REASM_MAX_CHUNKS`. -/
def maxChunks : ℕ := 256

/-- The values of a `size_t`. -/
def sizeMod : ℕ := 18446744073709551616

/-- `fzn_reasm_err_t`. -/
inductive ReasmErr
  | ok
  | malformed
  | full
  | quota
  | mismatch
  | conflict
  | tooLarge
  | expired
  | absent
  deriving DecidableEq, Repr

/-- A caller's memory for one slot: its length is a `size_t`. -/
structure Buffer where
  bytes : Bytes
  size : bytes.length < sizeMod

/-- `fzn_partial_t`.  `buf_capacity` is the length of `buf`, and the bitmap `seen`
of `FZN_REASM_MAX_CHUNKS` bits is a bit vector. -/
structure Partial where
  sender : Bytes32
  msg : UInt32
  chunks : ℕ
  arrived : ℕ
  expiresAt : UInt64
  buf : Bytes
  chunkSize : ℕ
  bytes : ℕ
  parked : ℕ
  seen : BitVec 256
  live : Bool
  handed : Bool
  deriving DecidableEq, Repr

/-- `fzn_reasm_t`; `capacity` is the length of `partials`. -/
structure Reasm where
  partials : List Partial
  perSenderMax : ℕ
  maxHold : UInt64
  deriving DecidableEq, Repr

/-- The arguments of `fzn_reasm_accept` that come off the wire. -/
structure Piece where
  sender : Bytes32
  msg : UInt32
  index : ℕ
  chunks : ℕ
  payload : Bytes
  expiresAt : UInt64
  deriving DecidableEq, Repr

/-- `seen_get`. -/
def seenGet (slot : Partial) (index : ℕ) : Bool := slot.seen.getLsbD index

/-- `seen_set`. -/
def seenSet (seen : BitVec 256) (index : ℕ) : BitVec 256 := seen ||| BitVec.twoPow 256 index

/-- `offset_of`, in a `size_t`. -/
def offsetOf (slot : Partial) (index : ℕ) : ℕ := index * slot.chunkSize % sizeMod

/-- A slot of the message `msg` of `sender`. -/
def Partial.isOf (slot : Partial) (sender : Bytes32) (msg : UInt32) : Bool :=
  slot.live && slot.msg == msg && slot.sender == sender

/-- The first slot that passes, with its place. -/
def Reasm.first (table : Reasm) (p : Partial → Bool) : Option (Partial × ℕ) :=
  table.partials.zipIdx.find? fun x => p x.1

/-- `find`. -/
def find (table : Reasm) (sender : Bytes32) (msg : UInt32) : Option (Partial × ℕ) :=
  table.first fun slot => slot.isOf sender msg

/-- `held_by`, and `fzn_reasm_held_by`: handed slots count too. -/
def heldBy (table : Reasm) (sender : Bytes32) : ℕ :=
  table.partials.countP fun slot => slot.live && slot.sender == sender

/-- What a `memset` leaves of a slot that keeps its buffer. -/
def emptySlot (buf : Bytes) : Partial where
  sender := 0
  msg := 0
  chunks := 0
  arrived := 0
  expiresAt := 0
  buf := buf
  chunkSize := 0
  bytes := 0
  parked := 0
  seen := 0
  live := false
  handed := false

/-- `fzn_reasm_slot_init`. -/
def slotInit (buf : Buffer) : Except ReasmErr Partial :=
  if buf.bytes.length = 0 then .error .malformed else .ok (emptySlot buf.bytes)

/-- `fzn_reasm_init`. -/
def reasmInit (partials : List Partial) (perSenderMax : ℕ) (maxHold : UInt64) :
    Except ReasmErr Reasm :=
  if partials.length = 0 ∨ perSenderMax = 0 ∨ maxHold = 0 then .error .malformed
  else if partials.any fun slot => slot.buf.length == 0 then .error .malformed
  else .ok ⟨partials, perSenderMax, maxHold⟩

/-- `fzn_reasm_release`: the buffer is kept, its bytes included. -/
def release (slot : Partial) : Partial := emptySlot slot.buf

/-- Released where `p` says so, by the sweep and by `fzn_reasm_forget`. -/
def Reasm.drop (table : Reasm) (p : Partial → Bool) : ℕ × Reasm :=
  (table.partials.countP p,
    { table with partials := table.partials.map fun slot => if p slot then release slot else slot })

/-- `fzn_reasm_expire`. -/
def reasmExpire (table : Reasm) (now : UInt64) : ℕ × Reasm :=
  table.drop fun slot => slot.live && !slot.handed && decide (slot.expiresAt ≤ now)

/-- `fzn_reasm_forget`. -/
def reasmForget (table : Reasm) (sender : Bytes32) (msg : UInt32) : ℕ × Reasm :=
  table.drop fun slot => slot.isOf sender msg && !slot.handed

/-- `hold_until`, which saturates as `horizon_of` does. -/
def holdUntil (now maxHold : UInt64) : UInt64 := Frame.horizonOf now maxHold

/-- The deadline `fzn_reasm_accept` holds a new slot to. -/
def deadline (table : Reasm) (expiresAt now : UInt64) : UInt64 :=
  if expiresAt = 0 then holdUntil now table.maxHold
  else if expiresAt < holdUntil now table.maxHold then expiresAt
  else holdUntil now table.maxHold

/-- The stride a first piece claims: none when it is the last of several. -/
def firstStride (c : Piece) : ℕ :=
  if c.chunks > 1 ∧ c.index + 1 = c.chunks then 0 else c.payload.length

/-- The slot `admit_first` makes of a free one; `handed` and the buffer are left. -/
def openSlot (slot : Partial) (c : Piece) (expiresAt : UInt64) : Partial :=
  { slot with
    sender := c.sender, msg := c.msg, chunks := c.chunks, arrived := 0, expiresAt := expiresAt,
    chunkSize := firstStride c, bytes := 0, parked := 0, seen := 0, live := true }

/-- `admit_first`.  The stride is written into the free slot before the size is
checked, so a refusal for the size leaves it there. -/
def admitFirst (table : Reasm) (c : Piece) (expiresAt : UInt64) :
    Except (ReasmErr × Reasm) (Partial × ℕ) :=
  if c.chunks = 0 ∨ c.chunks > maxChunks then .error (.tooLarge, table)
  else if c.index ≥ c.chunks then .error (.mismatch, table)
  else if heldBy table c.sender ≥ table.perSenderMax then .error (.quota, table)
  else
    match table.first fun slot => !slot.live with
    | none => .error (.full, table)
    | some (slot, i) =>
      if c.payload.length = 0 ∨ c.payload.length > slot.buf.length / c.chunks then
        .error (.tooLarge,
          { table with partials := table.partials.set i { slot with chunkSize := firstStride c } })
      else .ok (openSlot slot c expiresAt, i)

/-- What a later piece must agree with in a slot already taken. -/
def agrees (slot : Partial) (c : Piece) : Bool :=
  if slot.chunks ≠ c.chunks then false
  else if c.index ≥ slot.chunks then false
  else if c.index + 1 = slot.chunks then
    !(c.payload.length = 0 || (slot.chunkSize ≠ 0 && c.payload.length > slot.chunkSize))
  else !(slot.chunkSize ≠ 0 && c.payload.length ≠ slot.chunkSize)

/-- The slot a piece goes to, or the refusal and the table it leaves; `table` has
been swept. -/
def slotFor (table : Reasm) (c : Piece) (now : UInt64) :
    Except (ReasmErr × Reasm) (Partial × ℕ) :=
  if c.expiresAt ≠ 0 ∧ c.expiresAt ≤ now then .error (.expired, table)
  else
    match find table c.sender c.msg with
    | none => admitFirst table c (deadline table c.expiresAt now)
    | some (slot, i) => if agrees slot c then .ok (slot, i) else .error (.mismatch, table)

/-- A last piece written at the end of the buffer, its place not yet known. -/
def parkPiece (slot : Partial) (index : ℕ) (payload : Bytes) : Partial :=
  { slot with
    buf := Lib.store slot.buf (slot.buf.length - payload.length) payload
    parked := payload.length
    seen := seenSet slot.seen index
    arrived := slot.arrived + 1
    bytes := (slot.bytes + payload.length) % sizeMod }

/-- The stride set, and the parked piece moved to its place. -/
def setStride (slot : Partial) (stride : ℕ) : Partial :=
  { slot with
    chunkSize := stride
    buf := Lib.store slot.buf ((slot.chunks - 1) * stride % sizeMod)
      (Lib.load slot.buf (slot.buf.length - slot.parked) slot.parked) }

/-- What `fzn_reasm_accept` comes to before the bounds check in front of the copy. -/
inductive Reached
  | done (err : ReasmErr) (slot : Partial)
  | guard (slot : Partial)
  deriving DecidableEq, Repr

/-- `fzn_reasm_accept` from the slot it found to the bounds check. -/
def beforeGuard (slot : Partial) (index : ℕ) (payload : Bytes) : Reached :=
  if slot.chunkSize = 0 then
    if index + 1 = slot.chunks then
      if slot.parked = 0 then .done .ok (parkPiece slot index payload)
      else if payload.length ≠ slot.parked ∨
          Lib.load slot.buf (slot.buf.length - slot.parked) payload.length ≠ payload then
        .done .conflict slot
      else .done .ok slot
    else if payload.length = 0 ∨ payload.length < slot.parked then .done .mismatch slot
    else if payload.length > slot.buf.length / slot.chunks then .done .tooLarge slot
    else .guard (setStride slot payload.length)
  else .guard slot

/-- The last check before a write. -/
def guardTaken (slot : Partial) (index : ℕ) (payload : Bytes) : Bool :=
  offsetOf slot index > slot.buf.length || payload.length > slot.buf.length - offsetOf slot index

/-- A piece written at its place. -/
def writePiece (slot : Partial) (index : ℕ) (payload : Bytes) : Partial :=
  { slot with
    buf := Lib.store slot.buf (offsetOf slot index) payload
    seen := seenSet slot.seen index
    arrived := slot.arrived + 1
    bytes := (slot.bytes + payload.length) % sizeMod }

/-- The end of `fzn_reasm_accept`: a complete slot is handed out once. -/
def handOut (slot : Partial) : ReasmErr × Bool × Partial :=
  if slot.arrived = slot.chunks ∧ slot.handed = false then (.ok, true, { slot with handed := true })
  else (.ok, false, slot)

/-- `fzn_reasm_accept` from the bounds check on. -/
def placePiece (slot : Partial) (index : ℕ) (payload : Bytes) : ReasmErr × Bool × Partial :=
  if guardTaken slot index payload then (.tooLarge, false, slot)
  else if seenGet slot index then
    if Lib.load slot.buf (offsetOf slot index) payload.length ≠ payload then (.conflict, false, slot)
    else handOut slot
  else handOut (writePiece slot index payload)

/-- `fzn_reasm_accept` behind the choice of the slot: the answer, whether the slot
is handed out, and the slot. -/
def takePiece (slot : Partial) (index : ℕ) (payload : Bytes) : ReasmErr × Bool × Partial :=
  match beforeGuard slot index payload with
  | .done err slot' => (err, false, slot')
  | .guard slot' => placePiece slot' index payload

/-- What `fzn_reasm_accept` answers once the slot at `i` has its piece. -/
def give (table : Reasm) (c : Piece) (slot : Partial) (i : ℕ) : ReasmErr × Option ℕ × Reasm :=
  ((takePiece slot c.index c.payload).1,
    if (takePiece slot c.index c.payload).2.1 then some i else none,
    { table with partials := table.partials.set i (takePiece slot c.index c.payload).2.2 })

/-- `fzn_reasm_accept`: the answer, the slot handed out, and the table. -/
def reasmAccept (table : Reasm) (c : Piece) (now : UInt64) : ReasmErr × Option ℕ × Reasm :=
  match slotFor (reasmExpire table now).2 c now with
  | .error (err, table') => (err, none, table')
  | .ok (slot, i) => give (reasmExpire table now).2 c slot i

/-! ## Set up -/

theorem reasmInit_ok {slots : List Partial} {perSenderMax : ℕ} {maxHold : UInt64} {table : Reasm}
    (h : reasmInit slots perSenderMax maxHold = .ok table) :
    table = ⟨slots, perSenderMax, maxHold⟩ := by
  unfold reasmInit at h
  split_ifs at h
  exact (Except.ok.inj h).symm

theorem slotInit_ok {buf : Buffer} {slot : Partial} (h : slotInit buf = .ok slot) :
    slot = emptySlot buf.bytes := by
  unfold slotInit at h
  split_ifs at h
  exact (Except.ok.inj h).symm

/-! ## Where a piece goes -/

theorem first_eq_some {table : Reasm} {p : Partial → Bool} {slot : Partial} {i : ℕ}
    (h : table.first p = some (slot, i)) : table.partials[i]? = some slot ∧ p slot = true :=
  ⟨List.mem_zipIdx_iff_getElem?.1 (List.mem_of_find?_eq_some h),
    List.find?_some (p := fun x : Partial × ℕ => p x.1) h⟩

theorem first_eq_none {table : Reasm} {p : Partial → Bool} (h : table.first p = none)
    {slot : Partial} (hslot : slot ∈ table.partials) : p slot = false := by
  obtain ⟨i, hi⟩ := List.mem_iff_getElem?.1 hslot
  have hmem : (slot, i) ∈ table.partials.zipIdx := List.mem_zipIdx_iff_getElem?.2 hi
  simpa using List.find?_eq_none.1 h _ hmem

/-- What `admit_first` has checked of the piece that takes `slot`. -/
structure Opens (table : Reasm) (c : Piece) (slot : Partial) : Prop where
  pos : 0 < c.chunks
  chunks_le : c.chunks ≤ maxChunks
  index_lt : c.index < c.chunks
  quota : heldBy table c.sender < table.perSenderMax
  payload_pos : 0 < c.payload.length
  payload_le : c.payload.length ≤ slot.buf.length / c.chunks

/-- **What the choice of a slot comes to**: a refusal that at most leaves a stride in
a free slot, a free slot opened, or the live slot of the message. -/
inductive SlotCase (table : Reasm) (c : Piece) (now : UInt64) :
    Except (ReasmErr × Reasm) (Partial × ℕ) → Prop
  | refused (err : ReasmErr) : SlotCase table c now (.error (err, table))
  | sized (slot : Partial) (i : ℕ) (hslot : table.partials[i]? = some slot)
      (hfree : slot.live = false) :
      SlotCase table c now (.error (.tooLarge,
        { table with partials := table.partials.set i { slot with chunkSize := firstStride c } }))
  | opened (slot : Partial) (i : ℕ) (hslot : table.partials[i]? = some slot)
      (hfree : slot.live = false) (hnew : ∀ s ∈ table.partials, s.isOf c.sender c.msg = false)
      (hopens : Opens table c slot) :
      SlotCase table c now (.ok (openSlot slot c (deadline table c.expiresAt now), i))
  | joined (slot : Partial) (i : ℕ) (hslot : table.partials[i]? = some slot)
      (hof : slot.isOf c.sender c.msg = true) (hagrees : agrees slot c = true) :
      SlotCase table c now (.ok (slot, i))

theorem admitFirst_cases {table : Reasm} {c : Piece} {now : UInt64}
    (hnew : ∀ s ∈ table.partials, s.isOf c.sender c.msg = false) :
    SlotCase table c now (admitFirst table c (deadline table c.expiresAt now)) := by
  unfold admitFirst
  by_cases hchunks : c.chunks = 0 ∨ c.chunks > maxChunks
  · rw [if_pos hchunks]
    exact .refused _
  by_cases hindex : c.index ≥ c.chunks
  · rw [if_neg hchunks, if_pos hindex]
    exact .refused _
  by_cases hquota : heldBy table c.sender ≥ table.perSenderMax
  · rw [if_neg hchunks, if_neg hindex, if_pos hquota]
    exact .refused _
  rw [if_neg hchunks, if_neg hindex, if_neg hquota]
  cases hfree : table.first fun slot => !slot.live with
  | none => exact .refused _
  | some x =>
    obtain ⟨hslot, hlive⟩ := first_eq_some hfree
    have hlive : x.1.live = false := by simpa using hlive
    show SlotCase table c now (if _ then _ else _)
    by_cases hsize : c.payload.length = 0 ∨ c.payload.length > x.1.buf.length / c.chunks
    · rw [if_pos hsize]
      exact .sized x.1 x.2 hslot hlive
    · rw [if_neg hsize]
      exact .opened x.1 x.2 hslot hlive hnew
        ⟨by omega, by omega, by omega, by omega, by omega, by omega⟩

theorem slotFor_cases (table : Reasm) (c : Piece) (now : UInt64) :
    SlotCase table c now (slotFor table c now) := by
  unfold slotFor
  by_cases hexpired : c.expiresAt ≠ 0 ∧ c.expiresAt ≤ now
  · rw [if_pos hexpired]
    exact .refused _
  rw [if_neg hexpired]
  cases hfind : find table c.sender c.msg with
  | none => exact admitFirst_cases fun s hs => first_eq_none hfind hs
  | some x =>
    obtain ⟨hslot, hof⟩ := first_eq_some hfind
    show SlotCase table c now (if _ then _ else _)
    by_cases hagrees : agrees x.1 c = true
    · rw [if_pos hagrees]
      exact .joined x.1 x.2 hslot hof hagrees
    · rw [if_neg hagrees]
      exact .refused _

end Chunk
end Fuzznet
