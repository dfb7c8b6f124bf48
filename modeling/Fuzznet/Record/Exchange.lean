/-
# The pull

`record/exchange.c`, the client, with the planner of `record/sync.c` it asks.  A pull
reads the peer's digest page by page, plans a range for every stream the journal follows
and the peer claims to be ahead on, and asks for each range until it is filled, refused or
empty.  It is a state in a struct: `fzn_exchange_pull_begin` sets it up and each
`fzn_exchange_pull_step` takes one reply and writes the next request.

The reply is whatever the peer sends, `none` where it is silent.  The state here is the
struct with the journal and the store it points at beside it; the pull's caller
drives the steps until one answers an error or says it is done (`drive`).  The buffers
are the caller's and as large as the source requires, so null pointers and `cap` are not
modelled.  A length, an offset and a count are natural numbers, `total - n` wraps as
`size_t` does, and the sequences are 64-bit.
-/

import Fuzznet.Lib.Buffer
import Fuzznet.Record.Format
import Mathlib.Algebra.GroupWithZero.Nat

namespace Fuzznet
namespace Record

open Wire Lib

/-! ## What to ask for -/

/-- `FZN_SYNC_MAX_POSITIONS`. -/
def syncMaxPositions : ℕ := 1024

/-- `fzn_sync_position_t`. -/
structure SyncPosition where
  key : StreamKey
  received : UInt64
  deriving DecidableEq, Repr

/-- `fzn_sync_request_t`. -/
structure SyncRequest where
  key : StreamKey
  fromSeq : UInt64
  count : UInt64
  deriving DecidableEq, Repr

/-- `fzn_sync_plan_t`, with the requests it counts. -/
structure SyncPlan where
  requests : List SyncRequest
  unknownIssuers : ℕ
  truncated : ℕ
  positionsIgnored : ℕ
  deriving DecidableEq, Repr

/-- `clear_plan`. -/
def clearPlan : SyncPlan := ⟨[], 0, 0, 0⟩

/-- One turn of `theirs_for`: the largest of the stream's positions so far. -/
def largerPosition (k : StreamKey) (hit : Option SyncPosition) (t : SyncPosition) :
    Option SyncPosition :=
  if t.key = k then
    match hit with
    | none => some t
    | some h => if t.received > h.received then some t else hit
  else hit

/-- `theirs_for`. -/
def theirsFor (theirs : List SyncPosition) (k : StreamKey) : Option SyncPosition :=
  theirs.foldl (largerPosition k) none

/-- `follows`. -/
def follows (j : Journal) (k : StreamKey) : Bool := j.entries.any fun e => decide (e.key = k)

/-- `add_range`. -/
def addRange (k : StreamKey) (behind ahead maxPerRequest : UInt64) (outCap : ℕ)
    (plan : SyncPlan) : SyncPlan :=
  if ahead ≤ behind then plan
  else if plan.requests.length ≥ outCap then { plan with truncated := plan.truncated + 1 }
  else { plan with requests := plan.requests ++ [⟨k, behind + 1, min (ahead - behind) maxPerRequest⟩] }

/-- One turn of the planner's second pass: this journal's entry against the peer's position. -/
def planEntry (theirs : List SyncPosition) (maxPerRequest : UInt64) (outCap : ℕ)
    (plan : SyncPlan) (mine : JournalEntry) : SyncPlan :=
  match theirsFor theirs mine.key with
  | none => plan
  | some t => addRange mine.key mine.received t.received maxPerRequest outCap plan

/-- `fzn_sync_plan_fetch`; `none` is `FZN_SYNC_ERR_MALFORMED`. -/
def planFetch (j : Journal) (theirs : List SyncPosition) (maxPerRequest : UInt64) (outCap : ℕ) :
    Option SyncPlan :=
  if maxPerRequest = 0 ∨ journalUsable j = false then none
  else some (j.entries.foldl (planEntry (theirs.take syncMaxPositions) maxPerRequest outCap)
    ⟨[], (theirs.take syncMaxPositions).countP fun t => follows j t.key = false, 0,
      theirs.length - syncMaxPositions⟩)

/-! ## The messages -/

/-- `fzn_exchange_err_t`. -/
inductive ExchangeErr
  | ok
  | malformed
  | noAnswer
  | shape
  | store
  deriving DecidableEq, Repr

/-- `is`: the version and the type. -/
def isMessage (m : Bytes) (type : ℕ) : Bool :=
  decide (2 ≤ m.length ∧ getBe m 0 1 = 5 ∧ getBe m 1 1 = type)

/-- `digest_query`. -/
def digestQuery (n : ℕ) : Bytes := [5, 1] ++ putBe 2 n

/-- `records_query`. -/
def recordsQuery (want : SyncRequest) (next left : UInt64) : Bytes :=
  [5, 3] ++ putBe 32 want.key.issuer.toNat ++ putBe 4 want.key.stream.toNat ++
    putBe 8 next.toNat ++ putBe 2 (min left.toNat 0xffff)

/-! ## The digest -/

/-- `fzn_exchange_digest_t`; `n` is how many positions there are. -/
structure Digest where
  theirs : List SyncPosition
  total : ℕ
  pages : ℕ
  deriving DecidableEq, Repr

/-- Position `i` of a DIGEST page. -/
def positionAt (reply : Bytes) (i : ℕ) : SyncPosition where
  key := ⟨BitVec.ofNat 256 (getBe reply (8 + i * 44) 32),
    UInt32.ofNat (getBe reply (8 + i * 44 + 32) 4)⟩
  received := UInt64.ofNat (getBe reply (8 + i * 44 + 36) 8)

/-- What `digest_take` answers: -1, 1 and 0. -/
inductive DigestAnswer
  | bad
  | more
  | read
  deriving DecidableEq, Repr

/-- The page does not go with what was asked: another start, another length, more than is
left of the total, or nothing while something is left. -/
def digestRefuses (n : ℕ) (reply : Bytes) : Bool :=
  decide (getBe reply 4 2 ≠ n ∨ reply.length ≠ 8 + getBe reply 6 2 * 44 ∨
    getBe reply 6 2 > (getBe reply 2 2 + 2 ^ 64 - n) % 2 ^ 64 ∨
    (getBe reply 6 2 = 0 ∧ n < getBe reply 2 2))

/-- The positions with a page's taken in, up to the bound. -/
def digestFill (theirs : List SyncPosition) (reply : Bytes) : List SyncPosition :=
  theirs ++
    ((List.range (getBe reply 6 2)).map (positionAt reply)).take (syncMaxPositions - theirs.length)

/-- `digest_take`. -/
def digestTake (d : Digest) (reply : Bytes) : DigestAnswer × Digest :=
  if isMessage reply 2 = false ∨ reply.length < 8 then (.bad, d)
  else if digestRefuses d.theirs.length reply then (.bad, { d with total := getBe reply 2 2 })
  else if (digestFill d.theirs reply).length < getBe reply 2 2 ∧
      (digestFill d.theirs reply).length < syncMaxPositions then
    (if d.pages + 1 ≤ syncMaxPositions then .more else .read,
      ⟨digestFill d.theirs reply, getBe reply 2 2, d.pages + 1⟩)
  else (.read, ⟨digestFill d.theirs reply, getBe reply 2 2, d.pages⟩)

/-! ## The records -/

/-- `fzn_exchange_tally_t`. -/
structure Tally where
  positions : ℕ
  requested : ℕ
  learned : ℕ
  refused : ℕ
  forks : ℕ
  missing : ℕ
  missed : List StreamKey
  deriving DecidableEq, Repr

/-- The tally cleared. -/
def clearTally : Tally := ⟨0, 0, 0, 0, 0, 0, []⟩

/-- A range the peer claims and sent nothing of; the first eight are named. -/
def Tally.miss (t : Tally) (k : StreamKey) : Tally :=
  { t with
    missing := t.missing + 1
    missed := if t.missing < 8 then t.missed ++ [k] else t.missed }

/-- What `take_records` reads and writes besides the reply. -/
structure Taking (S : Type) where
  journal : Journal
  store : S
  next : UInt64
  left : UInt64
  tally : Tally

/-- How `take_records` returns: 1, or 0 with an error that may be none. -/
inductive TakeEnd
  | more
  | over (err : ExchangeErr)
  deriving DecidableEq, Repr

/-- A turn of the loop: on to the next record at an offset, or a return of 0. -/
inductive TakeTurn (S : Type)
  | go (off : ℕ) (s : Taking S)
  | halt (err : ExchangeErr) (s : Taking S)

section Take

variable {S : Type} (sign : SignOps) (hash : HashOps) (ops : StoreOps S)

/-- The record of `len` bytes at `off`, and its id, when it is exactly the next one asked for,
of the stream asked about, signed by its issuer. -/
def nextRecord (want : SyncRequest) (next : UInt64) (bs : Bytes) : Option (RecordView × RecId) :=
  match recordOpen bs with
  | .error _ => none
  | .ok r =>
    if r.issuer ≠ want.key.issuer ∨ r.stream ≠ want.key.stream ∨ r.seq ≠ next ∨
        recordVerify r sign ≠ .ok () then none
    else (hash.hash r.bytes).map fun id => (r, id)

/-- The end of a turn: the next sequence, one less left. -/
def takeNext (off : ℕ) (s : Taking S) : TakeTurn S :=
  if s.left - 1 = 0 then .halt .ok { s with next := s.next + 1, left := s.left - 1 }
  else .go off { s with next := s.next + 1, left := s.left - 1 }

/-- The store's part: admitted, then stored. -/
def takeStored (off : ℕ) (r : RecordView) (s : Taking S) : TakeTurn S :=
  if (recordStorePut ops s.store r).1 ≠ .ok () then
    .halt .store { s with store := (recordStorePut ops s.store r).2 }
  else takeNext off { s with
    store := (recordStorePut ops s.store r).2
    tally := { s.tally with learned := s.tally.learned + 1 } }

/-- The journal's part, and what follows from its answer. -/
def takeAdmitted (want : SyncRequest) (off : ℕ) (r : RecordView) (id : RecId) (s : Taking S) :
    TakeTurn S :=
  match journalAdmitChained s.journal want.key s.next r.prev id with
  | (.fork, j) => .halt .ok { s with
      journal := j
      tally := { s.tally with forks := s.tally.forks + 1 } }
  | (.ok, j) => takeStored ops off r { s with journal := j }
  | (.duplicate, j) => takeNext off { s with journal := j }
  | (_, j) => .halt .ok { s with
      journal := j
      tally := { s.tally with refused := s.tally.refused + 1 } }

/-- One turn of the loop of `take_records`. -/
def takeOne (want : SyncRequest) (reply : Bytes) (off : ℕ) (s : Taking S) : TakeTurn S :=
  if reply.length - off < 2 then .halt .shape s
  else if reply.length - off - 2 < getBe reply off 2 then .halt .shape s
  else match nextRecord sign hash want s.next (load reply (off + 2) (getBe reply off 2)) with
    | none => .halt .ok { s with tally := { s.tally with refused := s.tally.refused + 1 } }
    | some (r, id) => takeAdmitted ops want (off + 2 + getBe reply off 2) r id s

/-- The loop, over the records still counted. -/
def takeLoop (want : SyncRequest) (reply : Bytes) : ℕ → ℕ → Taking S → TakeEnd × Taking S
  | 0, _, s => (.more, s)
  | n + 1, off, s =>
    match takeOne sign hash ops want reply off s with
    | .go off s => takeLoop want reply n off s
    | .halt err s => (.over err, s)

/-- `take_records`. -/
def takeRecords (want : SyncRequest) (reply : Bytes) (s : Taking S) : TakeEnd × Taking S :=
  if isMessage reply 4 = false ∨ reply.length < 4 then (.over .shape, s)
  else if getBe reply 2 2 = 0 then (.over .ok, { s with tally := s.tally.miss want.key })
  else takeLoop sign hash ops want reply (getBe reply 2 2) 4 s

end Take

/-! ## The steps -/

/-- `PULL_DIGEST`, `PULL_RECORDS`, `PULL_DONE`. -/
inductive PullPhase
  | digest
  | records
  | done
  deriving DecidableEq, Repr

/-- `fzn_exchange_pulling_t`, without what it points at. -/
structure Pulling where
  maxPerRequest : UInt64
  phase : PullPhase
  digest : Digest
  plan : SyncPlan
  want : ℕ
  next : UInt64
  left : UInt64
  tally : Tally
  deriving DecidableEq, Repr

/-- The pull, and the journal and the store it works on. -/
structure PullWorld (S : Type) where
  pulling : Pulling
  journal : Journal
  store : S

/-- What a step answers: the error, the next request, and whether the pull is over. -/
structure PullAnswer where
  err : ExchangeErr
  request : Option Bytes
  done : Bool
  deriving DecidableEq, Repr

/-- `next_want`, over the plan from `want` on. -/
def nextWantFrom : List SyncRequest → Pulling → PullAnswer × Pulling
  | [], p => (⟨.ok, none, true⟩, { p with phase := .done })
  | r :: rs, p =>
    if r.count ≠ 0 then
      (⟨.ok, some (recordsQuery r r.fromSeq r.count), false⟩,
        { p with next := r.fromSeq, left := r.count })
    else nextWantFrom rs { p with want := p.want + 1, next := r.fromSeq, left := r.count }

/-- `next_want`. -/
def nextWant (p : Pulling) : PullAnswer × Pulling :=
  nextWantFrom (p.plan.requests.drop p.want) p

/-- `fzn_exchange_pull_begin`: the pull set up, and its first request. -/
def pullBegin (maxPerRequest : UInt64) : Except ExchangeErr (Pulling × Bytes) :=
  if maxPerRequest = 0 then .error .malformed
  else .ok (⟨maxPerRequest, .digest, ⟨[], 0, 0⟩, clearPlan, 0, 0, 0, clearTally⟩, digestQuery 0)

section Step

variable {S : Type} (sign : SignOps) (hash : HashOps) (ops : StoreOps S)

/-- The pull over with an error. -/
def pullFails (err : ExchangeErr) (w : PullWorld S) : PullAnswer × PullWorld S :=
  (⟨err, none, false⟩, { w with pulling := { w.pulling with phase := .done } })

/-- The pull as `next_want` leaves it. -/
def pullWants (w : PullWorld S) : PullAnswer × PullWorld S :=
  ((nextWant w.pulling).1, { w with pulling := (nextWant w.pulling).2 })

/-- `fzn_exchange_pull_step` on a DIGEST. -/
def pullDigest (w : PullWorld S) (reply : Bytes) : PullAnswer × PullWorld S :=
  match digestTake w.pulling.digest reply with
  | (.bad, d) => pullFails .shape { w with pulling := { w.pulling with digest := d } }
  | (.more, d) =>
    (⟨.ok, some (digestQuery d.theirs.length), false⟩,
      { w with pulling := { w.pulling with digest := d } })
  | (.read, d) =>
    match planFetch w.journal d.theirs w.pulling.maxPerRequest syncMaxPositions with
    | none => pullFails .malformed { w with pulling := { w.pulling with
        digest := d
        plan := clearPlan
        tally := { w.pulling.tally with positions := d.theirs.length } } }
    | some plan => pullWants { w with pulling := { w.pulling with
        digest := d
        plan := plan
        tally := { w.pulling.tally with
          positions := d.theirs.length
          requested := plan.requests.length }
        phase := .records
        want := 0 } }

/-- What a step puts together from what `take_records` left. -/
def Taking.into (s : Taking S) (w : PullWorld S) : PullWorld S :=
  ⟨{ w.pulling with next := s.next, left := s.left, tally := s.tally }, s.journal, s.store⟩

/-- The same, past the request that was paged. -/
def Taking.past (s : Taking S) (w : PullWorld S) : PullWorld S :=
  { s.into w with pulling := { (s.into w).pulling with want := w.pulling.want + 1 } }

/-- `fzn_exchange_pull_step` on RECORDS, for the request being paged. -/
def pullRecords (want : SyncRequest) (w : PullWorld S) (reply : Bytes) :
    PullAnswer × PullWorld S :=
  match takeRecords sign hash ops want reply
      ⟨w.journal, w.store, w.pulling.next, w.pulling.left, w.pulling.tally⟩ with
  | (.more, s) =>
    if s.left ≠ 0 then
      (⟨.ok, some (recordsQuery want s.next s.left), false⟩, s.into w)
    else pullWants (s.past w)
  | (.over err, s) => if err ≠ .ok then pullFails err (s.into w) else pullWants (s.past w)

/-- `fzn_exchange_pull_step`. -/
def pullStep (w : PullWorld S) (reply : Option Bytes) : PullAnswer × PullWorld S :=
  match w.pulling.phase with
  | .done => (⟨.malformed, none, false⟩, w)
  | .digest =>
    match reply with
    | none => pullFails .noAnswer w
    | some bs => pullDigest w bs
  | .records =>
    match reply with
    | none => pullFails .noAnswer w
    | some bs =>
      match w.pulling.plan.requests[w.pulling.want]? with
      -- Out of the plan, which `want` never is while records are asked for.
      | none => pullFails .malformed w
      | some want => pullRecords sign hash ops want w bs

/-! ## The pull driven -/

/-- A pull under way or over: the last answer, and how many steps there were. -/
structure PullRun (S : Type) where
  world : PullWorld S
  answer : PullAnswer
  steps : ℕ

/-- The loop of `fzn_exchange_pull` goes on. -/
def PullRun.going (run : PullRun S) : Bool :=
  decide (run.answer.err = .ok) && !run.answer.done

/-- The records requested: what the plan's ranges count. -/
def PullRun.requested (run : PullRun S) : ℕ :=
  (run.world.pulling.plan.requests.map fun r => r.count.toNat).sum

/-- One turn of the loop of `fzn_exchange_pull`, the peer's reply being `reply`. -/
def driveStep (run : PullRun S) (reply : Option Bytes) : PullRun S :=
  if run.going then
    ⟨(pullStep sign hash ops run.world reply).2, (pullStep sign hash ops run.world reply).1,
      run.steps + 1⟩
  else run

/-- Where a pull of `journal` and `store` starts; over at once when `pull_begin` refuses. -/
def pullStart (maxPerRequest : UInt64) (journal : Journal) (store : S) : PullRun S :=
  match pullBegin maxPerRequest with
  | .ok (p, request) => ⟨⟨p, journal, store⟩, ⟨.ok, some request, false⟩, 0⟩
  | .error err =>
    ⟨⟨⟨maxPerRequest, .done, ⟨[], 0, 0⟩, clearPlan, 0, 0, 0, clearTally⟩, journal, store⟩,
      ⟨err, none, false⟩, 0⟩

/-- `fzn_exchange_pull`: the steps, on the peer's replies in their order. -/
def drive (maxPerRequest : UInt64) (journal : Journal) (store : S)
    (replies : List (Option Bytes)) : PullRun S :=
  replies.foldl (driveStep sign hash ops) (pullStart maxPerRequest journal store)

end Step

end Record
end Fuzznet
