/-
# Fetching what is lacked

`fetch` of `node/reconcile.c`.  The ids lacked stand in one array and are asked for from
`start` on, a batch at a time.  An object brought is judged if it hashes to an id of the
batch that has not come yet; the ids that did not come are moved to the batch's end, so that
the next request starts with them, and a batch that brings nothing is given up on.

What is asked and what is judged is written down as the loop goes (`FetchRound`), which the
code does not and nothing here reads.  Behind every turn the ids lacked are the ones still to
ask for, the ones judged and the ones given up on, and each is one of these (`Fetching`); a
turn moves `start` by one id at least.  So the loop ends, and loses and repeats nothing
(`fetch_settles`).

The peer, the judge of an object and the hash are the caller's, each over a state of its own.
-/

import Fuzznet.Lib.Buffer
import Fuzznet.Lib.Runs
import Fuzznet.Node.Pushes

namespace Fuzznet
namespace Node

open Wire Lib
open Session (bytes32)

/-- `FZN_RECONCILE_ASK_MAX`. -/
def askMax : ℕ := 32

/-- `FZN_RECONCILE_VERSION`. -/
def reconcileVersion : UInt8 := 6

/-- `FZN_RECONCILE_OBJECTS_QUERY`. -/
def objectsQuery : UInt8 := 5

/-- `FZN_RECONCILE_OBJECTS`. -/
def objectsAnswer : UInt8 := 6

/-- `FZN_RECONCILE_OBJECTS_HEAD_LEN`. -/
def objectsHeadLen : ℕ := 5

/-- `FZN_HOLDINGS_NOTES`. -/
def holdingsNotes : UInt8 := 8

/-- `fzn_reconcile_err_t`, of what `fetch` answers, without `FZN_RECONCILE_OK`. -/
inductive FetchErr
  | noAnswer
  | shape
  | store
  deriving DecidableEq, Repr

/-- The last object refused, of `fzn_reconcile_tally_t`. -/
structure RefusedObject where
  cls : UInt8
  issuer : Bytes
  stream : ℕ
  kind : ℕ
  deriving DecidableEq, Repr

/-- `fzn_reconcile_tally_t`, of what `fetch` writes. -/
structure FetchTally where
  applied : ℕ
  waiting : ℕ
  refused : ℕ
  last : RefusedObject
  deriving DecidableEq, Repr

/-- `note_refused`. -/
def noteRefused (tally : FetchTally) (cls : UInt8) (object : Bytes) : FetchTally :=
  let cls := if cls ≠ 0 then cls else 0xff
  { tally with last :=
      if 74 ≤ object.length then ⟨cls, load object 2 4, getBe object 66 4, getBe object 70 4⟩
      else { tally.last with cls := cls } }

/-- One ask: the ids asked for, what the peer answered, and the objects judged. -/
structure FetchRound where
  batch : List Bytes32
  reply : Option Bytes
  judged : List (Bytes32 × Bytes)
  deriving DecidableEq, Repr

/-- What `fetch` is called with: the peer, the two judges, of notes and of any other class, the
hash and the class. -/
structure Fetcher (P σ : Type) where
  ask : P → Bytes → Option Bytes × P
  notes : σ → Bytes → ApplyOutcome × σ
  applyObject : σ → Bytes → ApplyOutcome × σ
  hash : HashOps
  cls : UInt8

/-- A batch being read. -/
structure BatchRead (σ : Type) where
  pos : ℕ
  got : List Bool
  kept : ℕ
  node : σ
  tally : FetchTally
  judged : List (Bytes32 × Bytes)

/-- The loop's state. -/
structure FetchState (P σ : Type) where
  lacked : List Bytes32
  start : ℕ
  peer : P
  node : σ
  tally : FetchTally
  rounds : List FetchRound

variable {P σ : Type}

/-- The first id of the batch that is `id` and has not come. -/
def findAsked (batch : List Bytes32) (got : List Bool) (id : Bytes32) : Option ℕ :=
  (List.range batch.length).find? fun j => got[j]? = some false ∧ batch[j]? = some id

/-- What comes of an object's judgement. -/
def tallied (tally : FetchTally) (cls : UInt8) (object : Bytes) :
    ApplyOutcome → Option FetchErr × FetchTally
  | .applied => (none, { tally with applied := tally.applied + 1 })
  | .waiting => (none, { tally with waiting := tally.waiting + 1 })
  | .notSaved => (some .store, tally)
  | .refused => (none, noteRefused { tally with refused := tally.refused + 1 } cls object)

/-- One object of a reply. -/
def takeObject (f : Fetcher P σ) (batch : List Bytes32) (reply : Bytes) (b : BatchRead σ) :
    Option FetchErr × BatchRead σ :=
  if reply.length - b.pos < 2 ∨ reply.length - b.pos - 2 < getBe reply b.pos 2 then
    (some .shape, b)
  else
    let len := getBe reply b.pos 2
    let object := load reply (b.pos + 2) len
    let next := b.pos + 2 + len
    match f.hash.hash object with
    | none => (some .store, b)
    | some id =>
      match findAsked batch b.got id with
      | none =>
        (none, { b with pos := next, tally := { b.tally with refused := b.tally.refused + 1 } })
      | some j =>
        let (outcome, node) :=
          if f.cls = holdingsNotes then f.notes b.node object else f.applyObject b.node object
        let (err, tally) := tallied b.tally f.cls object outcome
        (err, ⟨next, b.got.set j true, b.kept + 1, node, tally, b.judged ++ [(id, object)]⟩)

/-- The objects of a reply. -/
def takeObjects (f : Fetcher P σ) (batch : List Bytes32) (reply : Bytes) :
    ℕ → BatchRead σ → Option FetchErr × BatchRead σ
  | 0, b => (none, b)
  | n + 1, b =>
    match takeObject f batch reply b with
    | (none, b) => takeObjects f batch reply n b
    | (some err, b) => (some err, b)

/-- The request for a batch. -/
def fetchRequest (cls : UInt8) (batch : List Bytes32) : Bytes :=
  [reconcileVersion, objectsQuery, cls, UInt8.ofNat batch.length] ++ batch.flatMap bytes32

/-- The head of a reply is one. -/
def isObjects (cls : UInt8) (reply : Bytes) : Bool :=
  decide (2 ≤ reply.length ∧ reply.getD 0 0 = reconcileVersion ∧ reply.getD 1 0 = objectsAnswer ∧
    objectsHeadLen ≤ reply.length ∧ reply.getD 2 0 = cls)

/-- The ids of a batch that have come, and the ones that have not. -/
def arrivals (batch : List Bytes32) (got : List Bool) (come : Bool) : List Bytes32 :=
  ((batch.zip got).filter fun x => x.2 = come).map Prod.fst

/-- The objects of a reply, from its first. -/
def readBatch (f : Fetcher P σ) (batch : List Bytes32) (reply : Bytes) (node : σ)
    (tally : FetchTally) : Option FetchErr × BatchRead σ :=
  takeObjects f batch reply (getBe reply 3 2)
    ⟨objectsHeadLen, List.replicate batch.length false, 0, node, tally, []⟩

/-- The ids of the next request. -/
def FetchState.batch (s : FetchState P σ) (n : ℕ) : List Bytes32 :=
  load s.lacked s.start (if n - s.start < askMax then n - s.start else askMax)

/-- A batch read to its end: given up on, or the ids that did not come at its end. -/
def FetchState.close (s : FetchState P σ) (batch : List Bytes32) (b : BatchRead σ) :
    FetchState P σ :=
  if b.kept = 0 then { s with start := s.start + batch.length }
  else
    let later := arrivals batch b.got false
    let start := s.start + (batch.length - later.length)
    { s with start := start, lacked := store s.lacked start later }

/-- One turn of the loop. -/
def fetchBatch (f : Fetcher P σ) (n : ℕ) (s : FetchState P σ) :
    Option FetchErr × FetchState P σ :=
  match f.ask s.peer (fetchRequest f.cls (s.batch n)) with
  | (none, peer) =>
    (some .noAnswer, { s with peer := peer, rounds := s.rounds ++ [⟨s.batch n, none, []⟩] })
  | (some reply, peer) =>
    if isObjects f.cls reply = false then
      (some .shape, { s with
        peer := peer, rounds := s.rounds ++ [⟨s.batch n, some reply, []⟩] })
    else
      let (err, b) := readBatch f (s.batch n) reply s.node s.tally
      let s' := { s with
        peer := peer, node := b.node, tally := b.tally,
        rounds := s.rounds ++ [⟨s.batch n, some reply, b.judged⟩] }
      match err with
      | some err => (some err, s')
      | none => if b.pos ≠ reply.length then (some .shape, s') else (none, s'.close (s.batch n) b)

/-- `fetch`, of so many turns at most. -/
def fetchLoop (f : Fetcher P σ) (n : ℕ) :
    ℕ → FetchState P σ → Option (Option FetchErr × FetchState P σ)
  | 0, _ => none
  | fuel + 1, s =>
    if s.start < n then
      match fetchBatch f n s with
      | (none, s) => fetchLoop f n fuel s
      | (some err, s) => some (some err, s)
    else some (none, s)

/-- `fetch` of the ids lacked. -/
def fetch (f : Fetcher P σ) (lacked : List Bytes32) (peer : P) (node : σ) (tally : FetchTally)
    (fuel : ℕ) : Option (Option FetchErr × FetchState P σ) :=
  fetchLoop f lacked.length fuel ⟨lacked, 0, peer, node, tally, []⟩

/-! ## A batch -/

section Batch

variable {batch : List Bytes32} {got : List Bool} {id : Bytes32} {reply : Bytes}

theorem findAsked_some {j : ℕ} (h : findAsked batch got id = some j) :
    got[j]? = some false ∧ batch[j]? = some id := by
  have hj := List.find?_some h
  simpa using hj

theorem arrivals_cons (a : Bytes32) (batch : List Bytes32) (g : Bool) (got : List Bool)
    (come : Bool) : arrivals (a :: batch) (g :: got) come =
      if g = come then a :: arrivals batch got come else arrivals batch got come := by
  rw [arrivals, List.zip_cons_cons]
  by_cases hg : g = come
  · rw [List.filter_cons_of_pos (by simpa using hg), if_pos hg]
    rfl
  · rw [List.filter_cons_of_neg (by simpa using hg), if_neg hg]
    rfl

theorem arrivals_perm (hlen : got.length = batch.length) :
    (arrivals batch got true ++ arrivals batch got false).Perm batch := by
  have hpart := List.filter_append_perm (fun x : Bytes32 × Bool => decide (x.2 = true))
    (batch.zip got)
  have hsame : (batch.zip got).filter (fun x => !decide (x.2 = true)) =
      (batch.zip got).filter fun x => x.2 = false :=
    List.filter_congr fun x _ => by cases x.2 <;> rfl
  rw [hsame] at hpart
  have hids := hpart.map Prod.fst
  rwa [List.map_append, List.map_fst_zip hlen.ge] at hids

theorem arrivals_replicate (batch : List Bytes32) :
    arrivals batch (List.replicate batch.length false) true = [] := by
  induction batch with
  | nil => rfl
  | cons a batch ih =>
    rw [List.length_cons, List.replicate_succ, arrivals_cons, if_neg (by decide), ih]

/-- **An id comes**, that had not. -/
theorem arrivals_set {j : ℕ} (hgot : got[j]? = some false) (hid : batch[j]? = some id) :
    (arrivals batch (got.set j true) true).Perm (arrivals batch got true ++ [id]) := by
  induction batch generalizing got j with
  | nil => cases hid
  | cons a batch ih =>
    cases got with
    | nil => cases hgot
    | cons g got =>
      cases j with
      | zero =>
        obtain rfl := Option.some.inj hgot
        obtain rfl := Option.some.inj hid
        rw [List.set_cons_zero, arrivals_cons, arrivals_cons, if_pos rfl, if_neg (by decide)]
        exact (List.perm_append_singleton a _).symm
      | succ j =>
        have hrest : (arrivals batch (got.set j true) true).Perm
            (arrivals batch got true ++ [id]) := ih hgot hid
        rw [List.set_cons_succ, arrivals_cons, arrivals_cons]
        split_ifs
        · exact hrest.cons a
        · exact hrest

/-- What is known of a batch being read. -/
structure Reading (hash : HashOps) (batch : List Bytes32) (reply : Bytes) (b : BatchRead σ) :
    Prop where
  size : b.got.length = batch.length
  come : (b.judged.map Prod.fst).Perm (arrivals batch b.got true)
  kept : b.kept = b.judged.length
  sent : ∀ x ∈ b.judged, hash.hash x.2 = some x.1 ∧ x.2 <:+: reply

theorem load_infix (reply : Bytes) (off len : ℕ) : load reply off len <:+: reply :=
  (List.take_prefix _ _).isInfix.trans (List.drop_suffix _ _).isInfix

/-- **One object of a reply.** -/
theorem takeObject_reading (f : Fetcher P σ) {b : BatchRead σ}
    (h : Reading f.hash batch reply b) : Reading f.hash batch reply (takeObject f batch reply b).2 := by
  unfold takeObject
  by_cases hshort : reply.length - b.pos < 2 ∨ reply.length - b.pos - 2 < getBe reply b.pos 2
  · rw [if_pos hshort]
    exact h
  rw [if_neg hshort]
  extract_lets len object next
  split
  next => exact h
  next id hhash =>
    split
    next => exact ⟨h.size, h.come, h.kept, h.sent⟩
    next j hfound =>
      obtain ⟨hgot, hid⟩ := findAsked_some hfound
      refine ⟨?_, ?_, ?_, fun x hx => ?_⟩
      · show (b.got.set j true).length = batch.length
        rw [List.length_set, h.size]
      · show ((b.judged ++ [(id, object)]).map Prod.fst).Perm (arrivals batch (b.got.set j true) true)
        rw [List.map_append]
        exact (h.come.append_right [id]).trans (arrivals_set hgot hid).symm
      · show b.kept + 1 = (b.judged ++ [(id, object)]).length
        rw [List.length_append, h.kept]
        rfl
      · rcases List.mem_append.1 hx with hx | hx
        · exact h.sent x hx
        · rw [List.mem_singleton.1 hx]
          exact ⟨hhash, load_infix reply _ _⟩

theorem takeObjects_reading (f : Fetcher P σ) {b : BatchRead σ} (n : ℕ)
    (h : Reading f.hash batch reply b) :
    Reading f.hash batch reply (takeObjects f batch reply n b).2 := by
  induction n generalizing b with
  | zero => exact h
  | succ n ih =>
    have hobject := takeObject_reading f h
    rw [takeObjects]
    split <;> rename_i heq <;> rw [heq] at hobject
    · exact ih hobject
    · exact hobject

end Batch

/-! ## A turn of the loop -/

/-- The ids still to ask for. -/
def FetchState.pending (s : FetchState P σ) : List Bytes32 := s.lacked.drop s.start

/-- A round asked for a batch, and judged objects that were sent and hash to ids of it. -/
structure RoundOf (hash : HashOps) (batch : List Bytes32) (r : FetchRound) (later : List Bytes32) :
    Prop where
  batch_eq : r.batch = batch
  parts : (r.judged.map Prod.fst ++ later).Perm batch
  sent : ∀ x ∈ r.judged, hash.hash x.2 = some x.1 ∧ ∃ reply, r.reply = some reply ∧ x.2 <:+: reply

/-- A round that judged nothing. -/
theorem RoundOf.nothing (hash : HashOps) (batch : List Bytes32) (reply : Option Bytes) :
    RoundOf hash batch ⟨batch, reply, []⟩ batch :=
  ⟨rfl, .refl batch, fun _ hx => absurd hx List.not_mem_nil⟩

theorem Reading.round {hash : HashOps} {batch : List Bytes32} {reply : Bytes} {b : BatchRead σ}
    (h : Reading hash batch reply b) :
    RoundOf hash batch ⟨batch, some reply, b.judged⟩ (arrivals batch b.got false) :=
  ⟨rfl, (h.come.append_right _).trans (arrivals_perm h.size),
    fun x hx => ⟨(h.sent x hx).1, reply, rfl, (h.sent x hx).2⟩⟩

theorem readBatch_reading (f : Fetcher P σ) (batch : List Bytes32) (reply : Bytes) (node : σ)
    (tally : FetchTally) : Reading f.hash batch reply (readBatch f batch reply node tally).2 := by
  refine takeObjects_reading f _ ⟨List.length_replicate, ?_, rfl, fun x hx => absurd hx List.not_mem_nil⟩
  rw [arrivals_replicate]
  exact .refl []

theorem FetchState.pending_eq (s : FetchState P σ) (n : ℕ) :
    s.pending = s.batch n ++ s.lacked.drop (s.start + (s.batch n).length) := by
  rw [pending, ← List.drop_drop]
  exact (List.prefix_iff_eq_append.1 (List.take_prefix _ _)).symm

theorem FetchState.batch_room (s : FetchState P σ) (n : ℕ) (hstart : s.start ≤ s.lacked.length) :
    s.start + (s.batch n).length ≤ s.lacked.length := by
  have hle := (List.take_prefix (if n - s.start < askMax then n - s.start else askMax)
    (s.lacked.drop s.start)).length_le
  rw [List.length_drop] at hle
  rw [batch, load]
  omega

/-- What a turn leaves to ask for: a batch that brought nothing is left, and of one that brought
some the others come first. -/
def Advances (s s' : FetchState P σ) (batch later : List Bytes32) (judged : ℕ) : Prop :=
  judged = 0 ∧ s'.start = s.start + batch.length ∧ s.pending = batch ++ s'.pending ∨
    judged ≠ 0 ∧ s'.start = s.start + judged ∧
      ∃ rest, s.pending = batch ++ rest ∧ s'.pending = later ++ rest

theorem FetchState.close_rounds (s : FetchState P σ) (batch : List Bytes32) (b : BatchRead σ) :
    (s.close batch b).rounds = s.rounds := by
  unfold close
  split_ifs
  · rfl
  · rfl

/-- **A batch read to its end.** -/
theorem FetchState.close_advances {hash : HashOps} {n : ℕ} {s : FetchState P σ} {reply : Bytes}
    {b : BatchRead σ} (hstart : s.start ≤ s.lacked.length)
    (h : Reading hash (s.batch n) reply b) :
    (s.close (s.batch n) b).lacked.length = s.lacked.length ∧
      Advances s (s.close (s.batch n) b) (s.batch n) (arrivals (s.batch n) b.got false)
        b.judged.length := by
  have hroom := s.batch_room n hstart
  have hparts := h.round.parts.length_eq
  rw [List.length_append, List.length_map] at hparts
  have hcount : b.judged.length + (arrivals (s.batch n) b.got false).length =
      (s.batch n).length := hparts
  unfold close
  by_cases hnone : b.kept = 0
  · rw [if_pos hnone]
    exact ⟨rfl, .inl ⟨h.kept.symm.trans hnone, rfl, s.pending_eq n⟩⟩
  rw [if_neg hnone]
  extract_lets later start
  have hat : start = s.start + b.judged.length := by
    unfold start later
    omega
  have hend : start + later.length = s.start + (s.batch n).length := by
    unfold later
    omega
  refine ⟨length_store (by omega), .inr ⟨fun h0 => hnone (h.kept.trans h0), hat,
    s.lacked.drop (s.start + (s.batch n).length), s.pending_eq n, ?_⟩⟩
  show (store s.lacked start later).drop start = later ++ _
  rw [drop_store (by omega), hend]

/-- **One turn** of the loop: an error behind a round, or a round and the next ids. -/
theorem fetchBatch_spec (f : Fetcher P σ) {n : ℕ} {s : FetchState P σ} (hn : s.lacked.length = n)
    (hstart : s.start < n) :
    ∃ r later, RoundOf f.hash (s.batch n) r later ∧
      (fetchBatch f n s).2.rounds = s.rounds ++ [r] ∧
      ((fetchBatch f n s).1 = none →
        (fetchBatch f n s).2.lacked.length = n ∧
          Advances s (fetchBatch f n s).2 (s.batch n) later r.judged.length) := by
  unfold fetchBatch
  split
  next peer hask => exact ⟨_, _, .nothing f.hash (s.batch n) none, rfl, fun h => by cases h⟩
  next reply peer hask =>
    split_ifs with hhead
    · exact ⟨_, _, .nothing f.hash (s.batch n) (some reply), rfl, fun h => by cases h⟩
    have hreading := readBatch_reading f (s.batch n) reply s.node s.tally
    rcases hread : readBatch f (s.batch n) reply s.node s.tally with ⟨err, b⟩
    rw [hread] at hreading
    refine ⟨_, _, hreading.round, ?_⟩
    dsimp only
    split
    next => exact ⟨rfl, fun h => by cases h⟩
    next =>
      split_ifs
      · exact ⟨rfl, fun h => by cases h⟩
      · have hle : s.start ≤ s.lacked.length := by omega
        obtain ⟨hlen, hadvances⟩ := FetchState.close_advances (s := { s with
          peer := peer, node := b.node, tally := b.tally,
          rounds := s.rounds ++ [⟨s.batch n, some reply, b.judged⟩] }) hle hreading
        exact ⟨FetchState.close_rounds .., fun _ => ⟨hlen.trans hn, hadvances⟩⟩

/-! ## The loop -/

/-- The ids judged. -/
def judgedIds (rounds : List FetchRound) : List Bytes32 :=
  rounds.flatMap fun r => r.judged.map Prod.fst

/-- The ids of batches that brought nothing. -/
def givenUp (rounds : List FetchRound) : List Bytes32 :=
  rounds.flatMap fun r => if r.judged = [] then r.batch else []

theorem judgedIds_concat (rounds : List FetchRound) (r : FetchRound) :
    judgedIds (rounds ++ [r]) = judgedIds rounds ++ r.judged.map Prod.fst := by
  rw [judgedIds, List.flatMap_append, List.flatMap_singleton]
  rfl

theorem givenUp_concat (rounds : List FetchRound) (r : FetchRound) :
    givenUp (rounds ++ [r]) = givenUp rounds ++ if r.judged = [] then r.batch else [] := by
  rw [givenUp, List.flatMap_append, List.flatMap_singleton]
  rfl

/-- What holds of the rounds however they end: an id is judged once, from bytes that a peer
asked for it sent and that hash to it, and there are no more rounds than ids lacked. -/
structure Sound (hash : HashOps) (lacked : List Bytes32) (rounds : List FetchRound) : Prop where
  once : (judgedIds rounds).Nodup
  asked : ∀ r ∈ rounds, ∀ id ∈ r.batch, id ∈ lacked
  sent : ∀ r ∈ rounds, ∀ x ∈ r.judged,
    x.1 ∈ r.batch ∧ hash.hash x.2 = some x.1 ∧ ∃ reply, r.reply = some reply ∧ x.2 <:+: reply
  few : rounds.length ≤ lacked.length

/-- An id of a batch that brought something and not it is still to ask for, or was asked for
again. -/
def AskedAgain (pending : List Bytes32) (rounds : List FetchRound) : Prop :=
  ∀ pre r post, rounds = pre ++ r :: post → r.judged ≠ [] →
    ∀ id ∈ r.batch, id ∉ r.judged.map Prod.fst → id ∈ pending ∨ ∃ r' ∈ post, id ∈ r'.batch

/-- The loop behind a turn: the ids lacked are the ones still to ask for, the ones judged and
the ones given up on. -/
structure Fetching (hash : HashOps) (lacked : List Bytes32) (s : FetchState P σ) : Prop where
  size : s.lacked.length = lacked.length
  inside : s.start ≤ lacked.length
  parts : (s.pending ++ (judgedIds s.rounds ++ givenUp s.rounds)).Perm lacked
  few : s.rounds.length ≤ s.start
  sound : Sound hash lacked s.rounds
  again : AskedAgain s.pending s.rounds

variable {hash : HashOps} {lacked : List Bytes32} {s s' : FetchState P σ} {r : FetchRound}
  {later : List Bytes32}

theorem FetchState.batch_subset (s : FetchState P σ) (n : ℕ) : s.batch n ⊆ s.pending := by
  rw [s.pending_eq n]
  exact List.subset_append_left _ _

theorem Fetching.pending_lacked (h : Fetching hash lacked s) {id : Bytes32}
    (hid : id ∈ s.pending) : id ∈ lacked :=
  h.parts.subset (List.mem_append_left _ hid)

/-- **A round more**, whatever comes of it. -/
theorem Fetching.sound_concat (h : Fetching hash lacked s) (hnodup : lacked.Nodup)
    (hstart : s.start < lacked.length) (hr : RoundOf hash (s.batch lacked.length) r later) :
    Sound hash lacked (s.rounds ++ [r]) := by
  refine ⟨?_, ?_, ?_, ?_⟩
  · have hall := h.parts.nodup_iff.2 hnodup
    rw [s.pending_eq lacked.length] at hall
    have hparts := ((hr.parts.append_right _).append_right _).nodup_iff.2 hall
    have hsub := ((List.sublist_append_left (r.judged.map Prod.fst) later).trans
      (List.sublist_append_left _ (s.lacked.drop (s.start + (s.batch lacked.length).length)))).append
        (List.sublist_append_left (judgedIds s.rounds) (givenUp s.rounds))
    rw [judgedIds_concat]
    exact List.perm_append_comm.nodup_iff.1 (hparts.sublist hsub)
  · intro r' hr' id hid
    rcases List.mem_append.1 hr' with hr' | hr'
    · exact h.sound.asked r' hr' id hid
    · rw [List.mem_singleton.1 hr', hr.batch_eq] at hid
      exact h.pending_lacked (s.batch_subset _ hid)
  · intro r' hr' x hx
    rcases List.mem_append.1 hr' with hr' | hr'
    · exact h.sound.sent r' hr' x hx
    · rw [List.mem_singleton.1 hr'] at hx ⊢
      refine ⟨?_, hr.sent x hx⟩
      rw [hr.batch_eq]
      exact hr.parts.subset (List.mem_append_left _ (List.mem_map_of_mem hx))
  · have hfew := h.few
    rw [List.length_append, List.length_singleton]
    omega

theorem askedAgain_concat {pending pending' : List Bytes32} {rounds : List FetchRound}
    (h : AskedAgain pending rounds) (hnext : ∀ id ∈ pending, id ∈ r.batch ∨ id ∈ pending')
    (hr : r.judged ≠ [] → ∀ id ∈ r.batch, id ∉ r.judged.map Prod.fst → id ∈ pending') :
    AskedAgain pending' (rounds ++ [r]) := by
  intro pre r₀ post heq hsome id hid hnot
  rcases List.eq_nil_or_concat post with rfl | ⟨post, r', rfl⟩
  · obtain ⟨rfl, rfl⟩ := List.append_singleton_inj.1 heq
    exact .inl (hr hsome id hid hnot)
  · rw [List.concat_eq_append, ← List.cons_append, ← List.append_assoc] at heq
    obtain ⟨hrounds, rfl⟩ := List.append_singleton_inj.1 heq
    rcases h pre r₀ post hrounds hsome id hid hnot with hpending | ⟨r', hr', hid'⟩
    · rcases hnext id hpending with hbatch | hpending'
      · exact .inr ⟨r, by simp, hbatch⟩
      · exact .inl hpending'
    · exact .inr ⟨r', by simp [hr'], hid'⟩

/-- **A turn of the loop**, that goes on. -/
theorem Fetching.next (h : Fetching hash lacked s) (hnodup : lacked.Nodup)
    (hstart : s.start < lacked.length) (hr : RoundOf hash (s.batch lacked.length) r later)
    (hrounds : s'.rounds = s.rounds ++ [r]) (hsize : s'.lacked.length = lacked.length)
    (hadvances : Advances s s' (s.batch lacked.length) later r.judged.length) :
    Fetching hash lacked s' ∧ s.start < s'.start := by
  have hroom := s.batch_room lacked.length (by rw [h.size]; omega)
  rw [h.size] at hroom
  have hlen := hr.parts.length_eq
  rw [List.length_append, List.length_map] at hlen
  have hbatch : 0 < (s.batch lacked.length).length := by
    have hsize := h.size
    rw [FetchState.batch, load, List.length_take, List.length_drop, askMax]
    split_ifs <;> omega
  have hmoves : s.start < s'.start ∧ s'.start ≤ lacked.length := by
    rcases hadvances with ⟨-, hat, -⟩ | ⟨hsome, hat, -⟩ <;> omega
  have hfew := h.few
  refine ⟨⟨hsize, hmoves.2, ?_, ?_, hrounds ▸ h.sound_concat hnodup hstart hr, ?_⟩, hmoves.1⟩
  · rw [hrounds, judgedIds_concat, givenUp_concat, hr.batch_eq]
    have hparts := h.parts
    have hbatchParts := hr.parts
    rcases hadvances with ⟨hnone, -, hpending⟩ | ⟨hsome, -, rest, hpending, hpending'⟩
    · rw [if_pos (List.length_eq_zero_iff.1 hnone), List.length_eq_zero_iff.1 hnone]
      rw [hpending] at hparts
      rw [List.perm_iff_count] at hparts ⊢
      intro a
      have := hparts a
      simp only [List.count_append, List.map_nil, List.count_nil] at this ⊢
      omega
    · rw [if_neg fun hnone => hsome (List.length_eq_zero_iff.2 hnone), hpending']
      rw [hpending] at hparts
      rw [List.perm_iff_count] at hparts hbatchParts ⊢
      intro a
      have := hparts a
      have := hbatchParts a
      simp only [List.count_append, List.count_nil] at *
      omega
  · rw [hrounds, List.length_append, List.length_singleton]
    omega
  · rw [hrounds]
    refine askedAgain_concat h.again (fun id hid => ?_) fun hsome id hid hnot => ?_
    · rw [hr.batch_eq]
      rcases hadvances with ⟨-, -, hpending⟩ | ⟨-, -, rest, hpending, hpending'⟩ <;>
        rw [hpending] at hid <;> rcases List.mem_append.1 hid with hid | hid
      · exact .inl hid
      · exact .inr hid
      · exact .inl hid
      · exact .inr (hpending' ▸ List.mem_append_right later hid)
    · rcases hadvances with ⟨hnone, -⟩ | ⟨-, -, rest, -, hpending'⟩
      · exact absurd (List.length_eq_zero_iff.1 hnone) hsome
      · rw [hr.batch_eq] at hid
        rw [hpending']
        refine List.mem_append_left rest ?_
        exact (List.mem_append.1 (hr.parts.symm.subset hid)).resolve_left hnot

/-- **The loop ends**, with an error or with nothing left to ask for. -/
theorem fetchLoop_settles (f : Fetcher P σ) (hnodup : lacked.Nodup)
    (h : Fetching f.hash lacked s) :
    ∃ answer, Returns (fun fuel => fetchLoop f lacked.length fuel s) answer ∧
      Sound f.hash lacked answer.2.rounds ∧
      (answer.1 = none → Fetching f.hash lacked answer.2 ∧ answer.2.start = lacked.length) := by
  induction hleft : lacked.length - s.start using Nat.strong_induction_on generalizing s with
  | _ left ih =>
    by_cases hstart : s.start < lacked.length
    · obtain ⟨r, later, hr, hrounds, hgoes⟩ := fetchBatch_spec f h.size hstart
      have hloop : ∀ fuel, fetchLoop f lacked.length (fuel + 1) s =
          match fetchBatch f lacked.length s with
          | (none, s) => fetchLoop f lacked.length fuel s
          | (some err, s) => some (some err, s) := fun fuel => by rw [fetchLoop, if_pos hstart]
      have hsound := h.sound_concat hnodup hstart hr
      rcases hturn : fetchBatch f lacked.length s with ⟨_ | err, s'⟩
      · rw [hturn] at hrounds hgoes
        obtain ⟨hsize, hadvances⟩ := hgoes rfl
        obtain ⟨hnext, hlt⟩ := h.next hnodup hstart hr hrounds hsize hadvances
        obtain ⟨answer, hreturns, hrest⟩ := ih _ (by omega) hnext rfl
        exact ⟨answer, hreturns.succ fun fuel => by rw [hloop, hturn], hrest⟩
      · rw [hturn] at hrounds
        refine ⟨(some err, s'), ⟨1, fun fuel hle => ?_⟩, hrounds ▸ hsound, fun hno => by cases hno⟩
        obtain ⟨fuel, rfl⟩ := Nat.exists_eq_add_of_le' hle
        exact (hloop fuel).trans (by rw [hturn])
    · refine ⟨(none, s), ⟨1, fun fuel hle => ?_⟩, h.sound, fun _ => ⟨h, ?_⟩⟩
      · obtain ⟨fuel, rfl⟩ := Nat.exists_eq_add_of_le' hle
        exact if_neg hstart
      · exact Nat.le_antisymm h.inside (Nat.not_lt.1 hstart)

/-- What a loop that ends without an error came to: every id was asked for, one that did not
come in a batch that brought some was asked for again, and one that never came was in a batch
that brought nothing. -/
structure FetchSettled (lacked : List Bytes32) (rounds : List FetchRound) : Prop where
  asked : ∀ id ∈ lacked, ∃ r ∈ rounds, id ∈ r.batch
  again : ∀ pre r post, rounds = pre ++ r :: post → r.judged ≠ [] →
    ∀ id ∈ r.batch, id ∉ r.judged.map Prod.fst → ∃ r' ∈ post, id ∈ r'.batch
  settled : ∀ id ∈ lacked,
    (∃ r ∈ rounds, id ∈ r.judged.map Prod.fst) ∨ ∃ r ∈ rounds, r.judged = [] ∧ id ∈ r.batch

theorem Fetching.settled (h : Fetching hash lacked s) (hend : s.start = lacked.length) :
    FetchSettled lacked s.rounds := by
  have hnone : s.pending = [] := by
    rw [FetchState.pending, hend, ← h.size]
    exact List.drop_length
  have hsettled : ∀ id ∈ lacked, (∃ r ∈ s.rounds, id ∈ r.judged.map Prod.fst) ∨
      ∃ r ∈ s.rounds, r.judged = [] ∧ id ∈ r.batch := by
    intro id hid
    have hmem := h.parts.symm.subset hid
    rw [hnone, List.nil_append] at hmem
    rcases List.mem_append.1 hmem with hmem | hmem
    · exact .inl (List.mem_flatMap.1 hmem)
    · obtain ⟨r, hr, hid'⟩ := List.mem_flatMap.1 hmem
      split_ifs at hid' with hempty
      · exact .inr ⟨r, hr, hempty, hid'⟩
      · cases hid'
  refine ⟨fun id hid => ?_, fun pre r post heq hsome id hid hnot => ?_, hsettled⟩
  · rcases hsettled id hid with ⟨r, hr, hid'⟩ | ⟨r, hr, -, hid'⟩
    · obtain ⟨x, hx, rfl⟩ := List.mem_map.1 hid'
      exact ⟨r, hr, (h.sound.sent r hr x hx).1⟩
    · exact ⟨r, hr, hid'⟩
  · refine (h.again pre r post heq hsome id hid hnot).resolve_left fun hid' => ?_
    rw [hnone] at hid'
    cases hid'

/-- **The fetch loop loses and repeats nothing.**  For every peer it ends, after at most as many
asks as there are ids lacked.  Each id is judged at most once, and only from bytes sent in answer
to an ask for it that hash to it; and where the loop stops with no error, every id was asked for,
an id that did not come beside others was asked for again, and every id was judged or was in a
batch that brought nothing. -/
theorem fetch_settles (f : Fetcher P σ) {lacked : List Bytes32} (hnodup : lacked.Nodup) (peer : P)
    (node : σ) (tally : FetchTally) :
    ∃ answer, Returns (fetch f lacked peer node tally) answer ∧
      Sound f.hash lacked answer.2.rounds ∧
      (answer.1 = none → FetchSettled lacked answer.2.rounds) := by
  have hstart : Fetching f.hash lacked
      (⟨lacked, 0, peer, node, tally, []⟩ : FetchState P σ) := by
    refine ⟨rfl, Nat.zero_le _, ?_, le_rfl, ?_, fun pre r post heq => ?_⟩
    · exact List.Perm.of_eq (List.append_nil lacked)
    · exact ⟨.nil, fun r hr => absurd hr List.not_mem_nil, fun r hr => absurd hr List.not_mem_nil,
        Nat.zero_le _⟩
    · exact absurd heq (by simp)
  obtain ⟨answer, hreturns, hsound, hdone⟩ := fetchLoop_settles f hnodup hstart
  exact ⟨answer, hreturns, hsound, fun hnone => (hdone hnone).1.settled (hdone hnone).2⟩

/-- A peer that sends one object, of one byte, in answer to every ask, where everything hashes
to 7. -/
def oneObject : Fetcher Unit Unit where
  ask _ _ := (some [6, 6, 1, 0, 1, 0, 1, 42], ())
  notes _ _ := (.refused, ())
  applyObject _ _ := (.applied, ())
  hash := ⟨fun _ => some 7⟩
  cls := 1

/-- Of two ids lacked one comes and one is given up on. -/
theorem fetch_settles_two :
    (∃ answer, Returns (fetch oneObject [7, 8] () () ⟨0, 0, 0, ⟨0, [], 0, 0⟩⟩) answer ∧
      Sound oneObject.hash [7, 8] answer.2.rounds ∧
      (answer.1 = none → FetchSettled [7, 8] answer.2.rounds)) ∧
    ((fetch oneObject [7, 8] () () ⟨0, 0, 0, ⟨0, [], 0, 0⟩⟩ 3).map fun answer => answer.2.rounds.map
      fun r => (r.batch, r.judged)) = some [([7, 8], [(7, [42])]), ([8], [])] :=
  ⟨fetch_settles oneObject (by decide) () () _, by decide⟩

end Node
end Fuzznet
