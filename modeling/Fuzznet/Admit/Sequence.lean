/-
# The receive sequence

`admit/admit.c`: `fzn_admit`, all eight steps.

| step | | reads | writes |
| ---: | --- | --- | --- |
| 1 | shape | the frame | |
| 2 | key select | `keys` | the candidate scratch |
| 3 | commitment | the candidates, the hash | |
| 4 | tag | the AEAD | |
| 5 | freshness | `expiry_rule`, the clock | |
| 6 | replay | the window | the window |
| 7 | chain | `root_for`, memo, chains, revocations, manifest | the memo |
| 8 | reassembly | the table | the table |

`authenticate` is steps 1 to 4, which read no table at all; each later step is one
definition over the tables (`AdmitState`).  `AdmitCase` lists where a frame can stop
and what the tables are there, and every rule about what a refusal costs is read off
it.  In every state a receiver comes to (`Receives`), a frame it admits was authentic, fresh
and unseen, and a chain to its sender is accepted there (`admitted_stands`).

The callbacks are parameters.  `keys` is given the caller's scratch and answers how
many keys it put there; that it fills what it claims to, from the sender alone, is what
`admit.h` asks of it (`KeysFill`), and only the comparison of two presentations needs it.
NULL arguments are not modelled.
-/

import Fuzznet.Admit.Receive
import Fuzznet.Chain.ChainStore
import Fuzznet.Chunk.Table
import Fuzznet.Wire.Seal

namespace Fuzznet
namespace Admit

open Wire Chain Fuzznet.Frame Chunk

/-- `fzn_admit_key_t`. -/
structure AdmitKey where
  aead : Bytes32
  commitment : Bytes32
  deriving DecidableEq, Repr

/-- `fzn_admit_ops_t`.  `keys` takes the scratch and answers a count and the scratch
behind the call. -/
structure AdmitOps where
  keys : Key → List AdmitKey → ℕ × List AdmitKey
  expiryRule : ℕ → ExpiryRule
  rootFor : Key → Option Key

/-- What a call reads and never writes: the callbacks, the seams and the horizon. -/
structure AdmitEnv where
  ops : AdmitOps
  hash : CommitHash
  aead : AeadOps
  sign : SignOps
  maxAhead : UInt64

/-- The tables of a receiver. -/
structure AdmitState where
  replay : ReplayWindow
  chains : ChainStore
  revocations : Option RevocationStore
  manifest : Option ManifestState
  memo : Option Memo
  reassembly : Option Reasm

/-- `fzn_admit_step_t`. -/
inductive AdmitStep
  | admitted
  | shape
  | keySelect
  | commitment
  | tag
  | freshness
  | replay
  | chain
  | reassembly
  deriving DecidableEq, Repr

/-- `fzn_admit_vocab_t` with the code of its vocabulary. -/
inductive AdmitErr
  | none
  | ofSeal (err : SealErr)
  | ofCommitment (err : CommitmentErr)
  | ofFresh (err : FreshErr)
  | ofChain (err : ChainErr)
  | ofReasm (err : ReasmErr)
  | unknownSender
  | noChain
  deriving DecidableEq, Repr

/-- `fzn_admit_result_t`; a message is the place of its slot. -/
structure AdmitResult where
  step : AdmitStep
  err : AdmitErr
  opened : Option Opened
  message : Option ℕ
  deriving DecidableEq, Repr

/-- `refuse`. -/
def refuse (step : AdmitStep) (err : AdmitErr) (opened : Option Opened) : AdmitResult :=
  ⟨step, err, opened, none⟩

/-- Step 3: the first candidate that derives the commitment the frame carries. -/
def chooseKey (hash : CommitHash) (peek : Peek) :
    List AdmitKey → Except CommitmentErr (Option AdmitKey)
  | [] => .ok none
  | key :: keys =>
    match commitmentForNonce hash key.commitment peek.nonce with
    | .error err => .error err
    | .ok derived => if derived = peek.commitment then .ok (some key) else chooseKey hash peek keys

/-- Steps 3 and 4 over the candidates. -/
def openWith (env : AdmitEnv) (frame : Bytes) (peek : Peek) (candidates : List AdmitKey) :
    Except AdmitResult Opened :=
  match chooseKey env.hash peek candidates with
  | .error err => .error (refuse .commitment (.ofCommitment err) none)
  | .ok none => .error (refuse .commitment (.ofCommitment .mismatch) none)
  | .ok (some key) =>
    match sealOpen frame key.aead key.commitment env.hash env.aead with
    | .error err => .error (refuse .tag (.ofSeal err) none)
    | .ok opened => .ok opened

/-- Steps 1 to 4: the refusal or the opened frame, and the scratch. -/
def authenticate (env : AdmitEnv) (frame : Bytes) (scratch : List AdmitKey) :
    Except AdmitResult Opened × List AdmitKey :=
  match sealPeek frame with
  | .error err => (.error (refuse .shape (.ofSeal err) none), scratch)
  | .ok peek =>
    if (env.ops.keys peek.sender scratch).1 = 0 ∨
        (env.ops.keys peek.sender scratch).1 > scratch.length then
      (.error (refuse .keySelect .unknownSender none), (env.ops.keys peek.sender scratch).2)
    else
      (openWith env frame peek
        ((env.ops.keys peek.sender scratch).2.take (env.ops.keys peek.sender scratch).1),
        (env.ops.keys peek.sender scratch).2)

/-- The tables behind the memo's question. -/
def askMemo (st : AdmitState) (root : Key) (opened : Opened) (now : UInt64) : AdmitState :=
  { st with memo := st.memo.map fun memo =>
      (memoAllows memo root opened.sender opened.capability (generationOf st.revocations) now).2 }

/-- Whether the memo passes the frame. -/
def memoPasses (st : AdmitState) (root : Key) (opened : Opened) (now : UInt64) : Bool :=
  st.memo.any fun memo =>
    (memoAllows memo root opened.sender opened.capability (generationOf st.revocations) now).1

/-- The tables behind an affirmative verdict. -/
def recordMemo (st : AdmitState) (verdict : VerifiedChain) : AdmitState :=
  { st with memo := st.memo.map fun memo =>
      (memoRecord memo verdict (generationOf st.revocations)).2 }

/-- Step 7 behind a memo that does not pass: look the chain up, open it, verify it. -/
def verifyHeld (env : AdmitEnv) (st : AdmitState) (root : Key) (opened : Opened) (now : UInt64) :
    AdmitErr × AdmitState :=
  match chainStoreLookup st.chains ⟨root, opened.capability, opened.sender⟩ now with
  | none => (.noChain, st)
  | some bytes =>
    match chainOpen bytes with
    | .error err => (.ofChain err, st)
    | .ok hops =>
      match chainVerify hops root opened.capability now env.sign st.revocations st.manifest with
      | .error err => (.ofChain err, st)
      | .ok verdict => (.none, recordMemo st verdict)

/-- Step 7. -/
def checkChain (env : AdmitEnv) (st : AdmitState) (opened : Opened) (now : UInt64) :
    AdmitErr × AdmitState :=
  match env.ops.rootFor opened.sender with
  | none => (.noChain, st)
  | some root =>
    if memoPasses st root opened now then (.none, askMemo st root opened now)
    else verifyHeld env (askMemo st root opened now) root opened now

/-- The piece an opened frame carries. -/
def pieceOf (opened : Opened) : Piece where
  sender := opened.sender
  msg := opened.msg
  index := opened.index
  chunks := opened.chunks
  payload := opened.payload
  expiresAt := opened.expiresAt

/-- Step 8. -/
def reassemble (st : AdmitState) (opened : Opened) (now : UInt64) : AdmitResult × AdmitState :=
  match st.reassembly with
  | none => (⟨.admitted, .none, some opened, none⟩, st)
  | some table =>
    if (reasmAccept table (pieceOf opened) now).1 = .ok then
      (⟨.admitted, .none, some opened, (reasmAccept table (pieceOf opened) now).2.1⟩,
        { st with reassembly := some (reasmAccept table (pieceOf opened) now).2.2 })
    else
      (refuse .reassembly (.ofReasm (reasmAccept table (pieceOf opened) now).1) (some opened),
        { st with reassembly := some (reasmAccept table (pieceOf opened) now).2.2 })

/-- Steps 7 and 8. -/
def authorise (env : AdmitEnv) (st : AdmitState) (opened : Opened) (now : UInt64) :
    AdmitResult × AdmitState :=
  if (checkChain env st opened now).1 = .none then
    reassemble (checkChain env st opened now).2 opened now
  else
    (refuse .chain (checkChain env st opened now).1 (some opened), (checkChain env st opened now).2)

/-- The tables behind step 6. -/
def remember (st : AdmitState) (opened : Opened) (rule : ExpiryRule) (now : UInt64) :
    FreshErr × AdmitState :=
  ((replayAdmit st.replay opened.nonce opened.expiresAt rule now).1,
    { st with replay := (replayAdmit st.replay opened.nonce opened.expiresAt rule now).2 })

/-- Steps 5 to 8, of an authentic frame. -/
def receive (env : AdmitEnv) (st : AdmitState) (opened : Opened) (now : UInt64) :
    AdmitResult × AdmitState :=
  match freshnessCheck opened.expiresAt (env.ops.expiryRule opened.kind) now env.maxAhead with
  | .ok =>
    match remember st opened (env.ops.expiryRule opened.kind) now with
    | (.ok, st') => authorise env st' opened now
    | (err, st') => (refuse .replay (.ofFresh err) (some opened), st')
  | err => (refuse .freshness (.ofFresh err) (some opened), st)

/-- `fzn_admit`: the result, the scratch and the tables. -/
def fznAdmit (env : AdmitEnv) (frame : Bytes) (now : UInt64) (scratch : List AdmitKey)
    (st : AdmitState) : AdmitResult × List AdmitKey × AdmitState :=
  match authenticate env frame scratch with
  | (.error result, scratch') => (result, scratch', st)
  | (.ok opened, scratch') =>
    ((receive env st opened now).1, scratch', (receive env st opened now).2)

/-! ## Step 7 with a memo -/

/-- What step 7 reports of the way the chain step ended. -/
def ChainStep.report : Admit.ChainStep → AdmitErr
  | .noChain => .noChain
  | .refused err => .ofChain err
  | .remembered => .none
  | .verified _ => .none

/-- The chain step of `admitChain`, read from a receiver's tables. -/
def chainSource (env : AdmitEnv) (st : AdmitState) : ChainSource where
  rootFor := env.ops.rootFor
  lookup := fun root capability sender now =>
    chainStoreLookup st.chains ⟨root, capability, sender⟩ now

/-- **Step 7 is the chain step of the run model**, where there is a memo. -/
theorem checkChain_eq_admitChain (env : AdmitEnv) {st : AdmitState} {memo : Memo}
    (hmemo : st.memo = some memo) (recorded : List (List Hop)) (opened : Opened) (now : UInt64) :
    checkChain env st opened now =
      (ChainStep.report (admitChain env.sign (chainSource env st)
          ⟨memo, recorded, st.revocations, st.manifest⟩ opened.sender opened.capability now).1,
        { st with memo := some (admitChain env.sign (chainSource env st)
          ⟨memo, recorded, st.revocations, st.manifest⟩ opened.sender opened.capability
            now).2.memo }) := by
  unfold checkChain admitChain
  cases hroot : env.ops.rootFor opened.sender with
  | none => simp [chainSource, hroot, ChainStep.report, ← hmemo]
  | some root =>
    have hask : askMemo st root opened now = { st with memo := some (memoAllows memo root
        opened.sender opened.capability (generationOf st.revocations) now).2 } := by
      rw [askMemo, hmemo, Option.map_some]
    have hpass : memoPasses st root opened now = (memoAllows memo root opened.sender
        opened.capability (generationOf st.revocations) now).1 := by
      rw [memoPasses, hmemo, Option.any_some]
    simp only [chainSource, hroot, hpass, hask]
    by_cases hhit : (memoAllows memo root opened.sender opened.capability
        (generationOf st.revocations) now).1 = true
    · rw [if_pos hhit, if_pos hhit]
      rfl
    · rw [if_neg hhit, if_neg hhit]
      unfold verifyHeld
      cases hheld : chainStoreLookup st.chains ⟨root, opened.capability, opened.sender⟩ now with
      | none => rfl
      | some bytes =>
        cases hopen : chainOpen bytes with
        | error err => simp only [hopen]; rfl
        | ok hops =>
          cases hverify : chainVerify hops root opened.capability now env.sign st.revocations
            st.manifest with
          | error err => simp only [hopen, hverify]; rfl
          | ok verdict => simp only [hopen, hverify]; rfl

/-! ## Where a frame stops -/

/-- The steps above the first mutation. -/
def AdmitStep.aboveReplay : AdmitStep → Bool
  | .shape | .keySelect | .commitment | .tag | .freshness => true
  | _ => false

/-- **The tables where a frame stops.** -/
inductive StopCase (st : AdmitState) (now : UInt64) : AdmitResult × AdmitState → Prop
  | above (result : AdmitResult) (hstep : result.step.aboveReplay = true) :
      StopCase st now (result, st)
  | replayed (err : AdmitErr) (opened : Option Opened) (w : ReplayWindow)
      (hw : w = st.replay ∨ w = swept st.replay now) :
      StopCase st now (refuse .replay err opened, { st with replay := w })
  | unproven (err : AdmitErr) (opened : Option Opened) (st' : AdmitState)
      (htable : st'.reassembly = st.reassembly) :
      StopCase st now (refuse .chain err opened, st')
  | passed (result : AdmitResult) (st' : AdmitState)
      (hstep : result.step = .admitted ∨ result.step = .reassembly) :
      StopCase st now (result, st')

/-- Step 7 writes the memo alone. -/
theorem checkChain_memo (env : AdmitEnv) (st : AdmitState) (opened : Opened) (now : UInt64) :
    ∃ f, (checkChain env st opened now).2 = { st with memo := st.memo.map f } := by
  unfold checkChain
  cases env.ops.rootFor opened.sender with
  | none => exact ⟨id, by rw [Option.map_id_fun, id]⟩
  | some root =>
    dsimp only
    split
    · exact ⟨_, rfl⟩
    · unfold verifyHeld
      split
      · exact ⟨_, rfl⟩
      · split
        · exact ⟨_, rfl⟩
        · split
          · exact ⟨_, rfl⟩
          · exact ⟨_, by rw [recordMemo, askMemo, Option.map_map]⟩

theorem reassemble_step (st : AdmitState) (opened : Opened) (now : UInt64) :
    (reassemble st opened now).1.step = .admitted ∨
      (reassemble st opened now).1.step = .reassembly := by
  unfold reassemble
  split
  · exact Or.inl rfl
  · split
    · exact Or.inl rfl
    · exact Or.inr rfl

theorem authorise_cases (env : AdmitEnv) (st st' : AdmitState) (opened : Opened) (now : UInt64)
    (hst : st'.reassembly = st.reassembly) :
    StopCase st now (authorise env st' opened now) := by
  unfold authorise
  split
  · exact .passed _ _ (reassemble_step _ opened now)
  · obtain ⟨f, heq⟩ := checkChain_memo env st' opened now
    exact .unproven _ _ _ (by rw [heq]; exact hst)

theorem receive_cases (env : AdmitEnv) (st : AdmitState) (opened : Opened) (now : UInt64) :
    StopCase st now (receive env st opened now) := by
  unfold receive
  cases freshnessCheck opened.expiresAt (env.ops.expiryRule opened.kind) now env.maxAhead with
  | ok =>
    have hcase := replayAdmit_cases st.replay opened.nonce opened.expiresAt
      (env.ops.expiryRule opened.kind) now
    simp only [remember]
    generalize replayAdmit st.replay opened.nonce opened.expiresAt
      (env.ops.expiryRule opened.kind) now = r at hcase ⊢
    cases hcase with
    | unsound hw => exact .replayed _ _ _ (Or.inl rfl)
    | refused hw err herr =>
      cases err with
      | ok => exact absurd rfl herr
      | _ => exact .replayed _ _ _ (Or.inr rfl)
    | unrecorded hw he => exact authorise_cases env st _ opened now rfl
    | recorded hw he hfresh hahead hnew hroom => exact authorise_cases env st _ opened now rfl
  | _ => exact .above _ rfl

variable {env : AdmitEnv}

/-- A refusal of steps 1 to 4 is one of those steps. -/
theorem authenticate_error {frame : Bytes} {scratch scratch' : List AdmitKey} {result : AdmitResult}
    (h : authenticate env frame scratch = (.error result, scratch')) :
    result.step.aboveReplay = true := by
  unfold authenticate at h
  cases hpeek : sealPeek frame with
  | error err =>
    rw [hpeek] at h
    obtain ⟨herr, -⟩ := Prod.mk.inj h
    rw [← Except.error.inj herr]
    rfl
  | ok peek =>
    simp only [hpeek] at h
    split at h
    · obtain ⟨herr, -⟩ := Prod.mk.inj h
      rw [← Except.error.inj herr]
      rfl
    · obtain ⟨herr, -⟩ := Prod.mk.inj h
      unfold openWith at herr
      split at herr
      · rw [← Except.error.inj herr]
        rfl
      · rw [← Except.error.inj herr]
        rfl
      · split at herr
        · rw [← Except.error.inj herr]
          rfl
        · exact absurd herr (by simp)

/-- **Every call stops somewhere**, and this is what it leaves there. -/
theorem fznAdmit_cases (env : AdmitEnv) (frame : Bytes) (now : UInt64) (scratch : List AdmitKey)
    (st : AdmitState) :
    StopCase st now
      ((fznAdmit env frame now scratch st).1, (fznAdmit env frame now scratch st).2.2) := by
  unfold fznAdmit
  cases h : authenticate env frame scratch with
  | mk r scratch' =>
    cases r with
    | error result => exact .above result (authenticate_error h)
    | ok opened => exact receive_cases env st opened now

/-! ## What a refusal costs -/

/-- What `admit.h` asks of `keys`: the scratch keeps its length, and the count and the
keys put there depend on the sender and the room alone. -/
structure KeysFill (ops : AdmitOps) : Prop where
  length : ∀ sender scratch, (ops.keys sender scratch).2.length = scratch.length
  count : ∀ sender (s s' : List AdmitKey), s.length = s'.length →
    (ops.keys sender s).1 = (ops.keys sender s').1
  filled : ∀ sender (s s' : List AdmitKey), s.length = s'.length →
    (ops.keys sender s).1 ≤ s.length →
    (ops.keys sender s).2.take (ops.keys sender s).1 =
      (ops.keys sender s').2.take (ops.keys sender s').1

theorem authenticate_scratch (hfill : KeysFill env.ops) (frame : Bytes) {s s' : List AdmitKey}
    (hlen : s.length = s'.length) :
    (authenticate env frame s).1 = (authenticate env frame s').1 ∧
      (authenticate env frame s).2.length = s.length := by
  unfold authenticate
  cases sealPeek frame with
  | error err => exact ⟨rfl, rfl⟩
  | ok peek =>
    have hcount := hfill.count peek.sender s s' hlen
    simp only
    by_cases hnone : (env.ops.keys peek.sender s).1 = 0 ∨
        (env.ops.keys peek.sender s).1 > s.length
    · rw [if_pos hnone, if_pos (by rw [← hcount, ← hlen]; exact hnone)]
      exact ⟨rfl, hfill.length _ _⟩
    · rw [if_neg hnone, if_neg (by rw [← hcount, ← hlen]; exact hnone)]
      refine ⟨?_, hfill.length _ _⟩
      rw [hfill.filled peek.sender s s' hlen (by omega)]

/-- The result and the tables of a call do not depend on what the scratch held. -/
theorem fznAdmit_scratch (hfill : KeysFill env.ops) (frame : Bytes) (now : UInt64)
    {s s' : List AdmitKey} (hlen : s.length = s'.length) (st : AdmitState) :
    (fznAdmit env frame now s st).1 = (fznAdmit env frame now s' st).1 ∧
      (fznAdmit env frame now s st).2.2 = (fznAdmit env frame now s' st).2.2 := by
  obtain ⟨hauth, -⟩ := authenticate_scratch hfill frame hlen
  unfold fznAdmit
  cases h : authenticate env frame s with
  | mk r t =>
    cases h' : authenticate env frame s' with
    | mk r' t' =>
      rw [h, h'] at hauth
      obtain rfl : r = r' := hauth
      cases r with
      | error result => exact ⟨rfl, rfl⟩
      | ok opened => exact ⟨rfl, rfl⟩

theorem fznAdmit_scratch_length (hfill : KeysFill env.ops) (frame : Bytes) (now : UInt64)
    (s : List AdmitKey) (st : AdmitState) :
    (fznAdmit env frame now s st).2.1.length = s.length := by
  have hlen := (authenticate_scratch hfill frame (rfl : s.length = s.length)).2
  unfold fznAdmit
  cases h : authenticate env frame s with
  | mk r t =>
    rw [h] at hlen
    cases r with
    | error result => exact hlen
    | ok opened => exact hlen

/-- **A frame stopped above the window leaves every table.** -/
theorem fznAdmit_aboveReplay {frame : Bytes} {now : UInt64} {scratch : List AdmitKey}
    {st : AdmitState} (hstep : (fznAdmit env frame now scratch st).1.step.aboveReplay = true) :
    (fznAdmit env frame now scratch st).2.2 = st := by
  have hcase := fznAdmit_cases env frame now scratch st
  generalize (fznAdmit env frame now scratch st).1 = result at hcase hstep
  generalize (fznAdmit env frame now scratch st).2.2 = st' at hcase ⊢
  cases hcase with
  | above _ _ => rfl
  | replayed err opened w hw => exact absurd hstep (by simp [refuse, AdmitStep.aboveReplay])
  | unproven err opened _ htable => exact absurd hstep (by simp [refuse, AdmitStep.aboveReplay])
  | passed _ _ hpassed =>
    rcases hpassed with hpassed | hpassed <;>
      exact absurd hstep (by simp [hpassed, AdmitStep.aboveReplay])

/-- The window lost nothing but what had expired at `now`. -/
structure OnlyExpiredGone (w w' : ReplayWindow) (now : UInt64) : Prop where
  sublist : w'.entries.Sublist w.entries
  expired : ∀ e ∈ w.entries, e ∉ w'.entries → e.expiresAt ≤ now
  capacity : w'.capacity = w.capacity
  maxAhead : w'.maxAhead = w.maxAhead

theorem onlyExpiredGone_swept (w : ReplayWindow) (now : UInt64) :
    OnlyExpiredGone w (swept w now) now := by
  by_cases hw : w.entries.length ≤ w.capacity
  · refine ⟨?_, fun e he hgone => ?_, swept_capacity w now, swept_maxAhead w now⟩
    · rw [swept_entries hw]
      exact List.filter_sublist
    · rw [mem_swept hw] at hgone
      exact UInt64.not_lt.1 fun hlt => hgone ⟨he, hlt⟩
  · have hsame : swept w now = w := by
      unfold swept replayExpire
      rw [if_pos (by omega)]
    rw [hsame]
    exact ⟨List.Sublist.refl _, fun e he hgone => absurd he hgone, rfl, rfl⟩

/-- **Refusals cost nothing downstream.**  A frame stopped above the replay window leaves
every table as it was; one stopped at the window takes at most expired entries from it; one
stopped at the chain leaves the reassembly table; and so a frame `g` stopped above the
window, presented before a frame `f`, changes neither the answer to `f` nor the tables
behind it. -/
theorem refusal_costs_nothing (env : AdmitEnv) (scratch : List AdmitKey) (st : AdmitState) :
    (∀ frame now, (fznAdmit env frame now scratch st).1.step.aboveReplay = true →
      (fznAdmit env frame now scratch st).2.2 = st) ∧
    (∀ frame now, (fznAdmit env frame now scratch st).1.step = .replay →
      ∃ w, (fznAdmit env frame now scratch st).2.2 = { st with replay := w } ∧
        OnlyExpiredGone st.replay w now) ∧
    (∀ frame now, (fznAdmit env frame now scratch st).1.step = .chain →
      (fznAdmit env frame now scratch st).2.2.reassembly = st.reassembly) ∧
    (KeysFill env.ops → ∀ f g now now',
      (fznAdmit env g now' scratch st).1.step.aboveReplay = true →
      (fznAdmit env f now (fznAdmit env g now' scratch st).2.1
          (fznAdmit env g now' scratch st).2.2).1 = (fznAdmit env f now scratch st).1 ∧
        (fznAdmit env f now (fznAdmit env g now' scratch st).2.1
          (fznAdmit env g now' scratch st).2.2).2.2 = (fznAdmit env f now scratch st).2.2) := by
  refine ⟨fun frame now hstep => fznAdmit_aboveReplay hstep, fun frame now hstep => ?_,
    fun frame now hstep => ?_, fun hfill f g now now' hstep => ?_⟩
  · have hcase := fznAdmit_cases env frame now scratch st
    generalize (fznAdmit env frame now scratch st).1 = result at hcase hstep
    generalize (fznAdmit env frame now scratch st).2.2 = st' at hcase ⊢
    cases hcase with
    | above _ habove => exact absurd habove (by simp [hstep, AdmitStep.aboveReplay])
    | replayed err opened w hw =>
      refine ⟨w, rfl, ?_⟩
      rcases hw with rfl | rfl
      · exact ⟨List.Sublist.refl _, fun e he hgone => absurd he hgone, rfl, rfl⟩
      · exact onlyExpiredGone_swept st.replay now
    | unproven err opened _ htable => exact absurd hstep (by simp [refuse])
    | passed _ _ hpassed =>
      rcases hpassed with hpassed | hpassed <;> exact absurd hstep (by simp [hpassed])
  · have hcase := fznAdmit_cases env frame now scratch st
    generalize (fznAdmit env frame now scratch st).1 = result at hcase hstep
    generalize (fznAdmit env frame now scratch st).2.2 = st' at hcase ⊢
    cases hcase with
    | above _ _ => rfl
    | replayed err opened w hw => rfl
    | unproven err opened _ htable => exact htable
    | passed _ _ hpassed =>
      rcases hpassed with hpassed | hpassed <;> exact absurd hstep (by simp [hpassed])
  · rw [fznAdmit_aboveReplay hstep]
    exact fznAdmit_scratch hfill f now (fznAdmit_scratch_length hfill g now' scratch st) st

/-- A receiver with one key for every sender.  Its hash answers zero, and its AEAD takes the
tag of sixteen zeros and leaves the text as it is. -/
def oneKeyEnv : AdmitEnv where
  ops :=
    { keys := fun _ scratch => (min 1 scratch.length, scratch.set 0 ⟨3, 4⟩)
      expiryRule := fun _ => .required
      rootFor := fun _ => some 1 }
  hash := ⟨fun _ => some 0⟩
  aead := ⟨fun _ _ _ text tag => if tag = List.replicate 16 0 then some text else none⟩
  sign := acceptingSign
  maxAhead := 50

/-- One byte from sender `2` under capability `7`, with the tag given. -/
def oneByteFrame (tag : UInt8) : Bytes :=
  [1, 0, 0, 0, 0, 1] ++ putBe 32 2 ++ putBe 8 40 ++ putBe 24 9 ++ putBe 16 0 ++ putBe 4 1 ++
    putBe 2 0 ++ putBe 2 1 ++ putBe 2 1 ++ putBe 32 7 ++ [5] ++ List.replicate 16 tag

/-- Tables that hold the chain of that sender, and nothing else. -/
def oneChainState : AdmitState where
  replay := ⟨[], 4, 50⟩
  chains := ⟨[⟨⟨1, 2, ⟨7⟩, 1, 0⟩, chainPack [grantHop]⟩], 1⟩
  revocations := some (emptyStore 1)
  manifest := none
  memo := some (memoInit 1)
  reassembly := some ⟨[emptySlot [0, 0]], 1, 9⟩

/-- The hypotheses are met: a frame with the nonce and the head of a genuine one and a tag
that does not verify is stopped at the tag, and the genuine one is admitted behind it. -/
theorem refusal_costs_nothing_forged :
    (fznAdmit oneKeyEnv (oneByteFrame 1) 5 [⟨0, 0⟩] oneChainState).1.step = .tag ∧
    (fznAdmit oneKeyEnv (oneByteFrame 0) 5 [⟨0, 0⟩] oneChainState).1.step = .admitted ∧
    (fznAdmit oneKeyEnv (oneByteFrame 0) 5
      (fznAdmit oneKeyEnv (oneByteFrame 1) 5 [⟨0, 0⟩] oneChainState).2.1
      (fznAdmit oneKeyEnv (oneByteFrame 1) 5 [⟨0, 0⟩] oneChainState).2.2).1 =
      (fznAdmit oneKeyEnv (oneByteFrame 0) 5 [⟨0, 0⟩] oneChainState).1 := by
  have hfill : KeysFill oneKeyEnv.ops := by
    refine ⟨fun _ s => List.length_set, fun _ s s' hlen => ?_, fun _ s s' hlen hn => ?_⟩
    · show min 1 s.length = min 1 s'.length
      rw [hlen]
    · cases s with
      | nil =>
        rw [List.eq_nil_of_length_eq_zero hlen.symm]
      | cons k s =>
        cases s' with
        | nil => exact absurd hlen (by simp)
        | cons k' s' => simp [oneKeyEnv]
  refine ⟨by decide +kernel, by decide +kernel, ?_⟩
  exact ((refusal_costs_nothing oneKeyEnv [⟨0, 0⟩] oneChainState).2.2.2 hfill _ _ 5 5
    (by decide +kernel)).1

/-! ## What is admitted -/

/-- The host of the run model, where there is a memo. -/
def AdmitState.host (st : AdmitState) (recorded : List (List Hop)) : Option Host :=
  st.memo.map fun memo => ⟨memo, recorded, st.revocations, st.manifest⟩

/-- The chains recorded behind step 7; like `Host.recorded` no part of the code's state. -/
def chainRecorded (env : AdmitEnv) (st : AdmitState) (recorded : List (List Hop)) (opened : Opened)
    (now : UInt64) : List (List Hop) :=
  (st.host recorded).elim recorded fun h =>
    (admitChain env.sign (chainSource env st) h opened.sender opened.capability now).2.recorded

/-- The chains recorded behind steps 5 to 8. -/
def receiveRecorded (env : AdmitEnv) (st : AdmitState) (recorded : List (List Hop))
    (opened : Opened) (now : UInt64) : List (List Hop) :=
  if freshnessCheck opened.expiresAt (env.ops.expiryRule opened.kind) now env.maxAhead = .ok ∧
      (remember st opened (env.ops.expiryRule opened.kind) now).1 = .ok then
    chainRecorded env st recorded opened now
  else recorded

/-- The chains recorded behind a frame. -/
def frameRecorded (env : AdmitEnv) (st : AdmitState) (recorded : List (List Hop)) (frame : Bytes)
    (now : UInt64) (scratch : List AdmitKey) : List (List Hop) :=
  match (authenticate env frame scratch).1 with
  | .error _ => recorded
  | .ok opened => receiveRecorded env st recorded opened now

/-- The states a receiver comes to, with the chain each memo slot's verdict was of.  It starts
with an empty memo and no chains, and takes frames, chains, revocations that are quiet where
they are written, and manifests that gate no chain remembered, in any order. -/
inductive Receives (env : AdmitEnv) : AdmitState → List (List Hop) → Prop
  | start (st : AdmitState) (n : ℕ) (hmemo : ∀ memo ∈ st.memo, memo = memoInit n)
      (hchains : st.chains.entries = []) : Receives env st (List.replicate n [])
  | frame {st : AdmitState} {recorded : List (List Hop)} (h : Receives env st recorded)
      (frame : Bytes) (now : UInt64) (scratch : List AdmitKey) :
      Receives env (fznAdmit env frame now scratch st).2.2
        (frameRecorded env st recorded frame now scratch)
  | chain {st : AdmitState} {recorded : List (List Hop)} (h : Receives env st recorded)
      (o : ChainOffer) : Receives env { st with chains := (o.admitTo env.sign st.chains).2 } recorded
  | revoke {st : AdmitState} {recorded : List (List Hop)} {s : RevocationStore}
      (h : Receives env st recorded) (hs : st.revocations = some s) (offer : RevocationOffer)
      (root : Key) (sign : SignOps) (hash : HashOps)
      (hcovered : ∀ host ∈ st.host recorded, (HostEvent.revoke offer root sign hash true).Covered host) :
      Receives env { st with
        revocations := some (revocationAdmit s offer root sign hash st.manifest).2.1
        manifest := (revocationAdmit s offer root sign hash st.manifest).2.2 } recorded
  | manifest {st : AdmitState} {recorded : List (List Hop)} {m : ManifestState}
      (h : Receives env st recorded) (hm : st.manifest = some m) (r : ManifestRecord)
      (sign : SignOps)
      (hcovered : ∀ host ∈ st.host recorded, (HostEvent.manifest r sign).Covered host) :
      Receives env { st with manifest := some (manifestAdmit m st.revocations r sign).2 } recorded

/-- The memo is sound, and every chain held is one to the grantee it is held under. -/
structure Standing (env : AdmitEnv) (st : AdmitState) (recorded : List (List Hop)) : Prop where
  memo : ∀ h ∈ st.host recorded, MemoSound env.sign h
  chains : ∀ e ∈ st.chains.entries, ∃ hops, chainOpen e.bytes = .ok hops ∧
    (hops.getLast?.map Hop.grantee).getD 0 = e.chain.grantee

/-- A chain to the sender, from its root, is accepted. -/
def Entitled (env : AdmitEnv) (st : AdmitState) (opened : Opened) (now : UInt64) : Prop :=
  ∃ root hops v, env.ops.rootFor opened.sender = some root ∧
    chainVerify hops root opened.capability now env.sign st.revocations st.manifest = .ok v ∧
    v.grantee = opened.sender

/-- What steps 5 to 7 ask of a frame that is authentic. -/
structure Stands (env : AdmitEnv) (st : AdmitState) (opened : Opened) (now : UInt64) : Prop where
  fresh : freshnessCheck opened.expiresAt (env.ops.expiryRule opened.kind) now env.maxAhead = .ok
  unseen : (replayAdmit st.replay opened.nonce opened.expiresAt (env.ops.expiryRule opened.kind)
    now).1 = .ok
  entitled : Entitled env st opened now

section Standing

variable {env : AdmitEnv} {st : AdmitState} {recorded : List (List Hop)} {opened : Opened}
  {now : UInt64}

theorem mem_host {memo : Memo} (h : memo ∈ st.memo) :
    ⟨memo, recorded, st.revocations, st.manifest⟩ ∈ st.host recorded :=
  Option.mem_map_of_mem _ h

/-- **What passes step 7 is entitled**, by the memo's word or by a chain held. -/
theorem Standing.entitled (h : Standing env st recorded)
    (hpass : (checkChain env st opened now).1 = .none) :
    Entitled env st opened now := by
  unfold checkChain at hpass
  cases hroot : env.ops.rootFor opened.sender with
  | none => simp [hroot] at hpass
  | some root =>
    simp only [hroot] at hpass
    split at hpass
    next hmemo =>
      obtain ⟨memo, hheld, hallows⟩ := (Option.any_eq_true _ _).1 hmemo
      cases hhit : memoHit memo root opened.sender opened.capability
          (generationOf st.revocations) now with
      | none => simp [memoAllows, hhit] at hallows
      | some slot =>
        have hsound := h.memo _ (mem_host hheld)
        obtain ⟨e, hslot, hne, hgen, rfl, hsender, hcap, hexp⟩ := memoHit_eq_some hhit
        obtain ⟨hops, -, hacc⟩ := hsound.accepted slot e ⟨hslot, hne, hgen⟩
        obtain ⟨v, hv, hgrantee⟩ := hacc now hexp
        exact ⟨_, hops, v, hroot, hcap ▸ hv, hgrantee.trans hsender⟩
    next =>
      unfold verifyHeld chainStoreLookup at hpass
      split at hpass
      next => cases hpass
      next bytes hbytes =>
      split_ifs at hbytes
      obtain ⟨e, hfound, hlive⟩ := Option.bind_eq_some_iff.1 hbytes
      obtain ⟨i, hi, he⟩ := Option.bind_eq_some_iff.1 hfound
      obtain ⟨hlt, htriple, -⟩ := List.findIdx?_eq_some_iff_getElem.1 hi
      split_ifs at hlive
      obtain rfl := Option.some.inj hlive
      obtain ⟨hops, hopen, hlast⟩ := h.chains e (List.mem_of_getElem? he)
      rw [hopen] at hpass
      dsimp only at hpass
      split at hpass
      next => cases hpass
      next v hv =>
      refine ⟨root, hops, v, hroot, hv, ?_⟩
      obtain ⟨-, -, -, -, -, hverdict⟩ := chainVerify_ok.1 hv
      rw [hverdict]
      refine hlast.trans ?_
      rw [← Option.some.inj ((List.getElem?_eq_getElem hlt).symm.trans he)]
      exact congrArg Triple.grantee (of_decide_eq_true htriple)

theorem Standing.checked (h : Standing env st recorded) :
    Standing env (checkChain env st opened now).2 (chainRecorded env st recorded opened now) := by
  cases hmemo : st.memo with
  | none =>
    obtain ⟨f, heq⟩ := checkChain_memo env st opened now
    refine ⟨fun host hhost => ?_, by rw [heq]; exact h.chains⟩
    rw [heq, AdmitState.host, hmemo] at hhost
    cases hhost
  | some memo =>
    have hhost : st.host recorded = some ⟨memo, recorded, st.revocations, st.manifest⟩ := by
      rw [AdmitState.host, hmemo, Option.map_some]
    have hreceived := (h.memo _ hhost).receive (chainSource env st) opened.sender
      opened.capability now
    rw [checkChain_eq_admitChain env hmemo recorded, chainRecorded, hhost, Option.elim_some]
    refine ⟨fun host' hhost' => ?_, h.chains⟩
    obtain rfl := Option.some.inj hhost'
    rcases admitChain_cases env.sign ⟨memo, recorded, st.revocations, st.manifest⟩
        (chainSource env st) opened.sender opened.capability now with
      ⟨_, -, heq⟩ | ⟨_, _, _, _, -, -, heq⟩
    · rw [heq] at hreceived ⊢
      exact hreceived
    · rw [heq] at hreceived ⊢
      exact hreceived

theorem Standing.authorise (h : Standing env st recorded) :
    Standing env (authorise env st opened now).2 (chainRecorded env st recorded opened now) := by
  have hchecked : Standing env (checkChain env st opened now).2
      (chainRecorded env st recorded opened now) := h.checked
  unfold Admit.authorise
  split
  · unfold reassemble
    split
    · exact hchecked
    · split <;> exact ⟨hchecked.memo, hchecked.chains⟩
  · exact hchecked

theorem Standing.receive (h : Standing env st recorded) :
    Standing env (receive env st opened now).2 (receiveRecorded env st recorded opened now) := by
  unfold Admit.receive receiveRecorded
  split
  next hfresh =>
    split
    next heq =>
      obtain ⟨hok, rfl⟩ := Prod.mk.inj heq
      rw [if_pos ⟨hfresh, hok⟩]
      exact Standing.authorise ⟨h.memo, h.chains⟩
    next hne heq =>
      obtain ⟨herr, rfl⟩ := Prod.mk.inj heq
      rw [if_neg fun hok => hne (herr.symm.trans hok.2)]
      exact ⟨h.memo, h.chains⟩
  next hstale => rw [if_neg fun hok => hstale hok.1]; exact h

/-- What steps 5 to 8 admit passed each of them. -/
theorem receive_admitted (hstep : (receive env st opened now).1.step = .admitted) :
    (receive env st opened now).1.opened = some opened ∧
      freshnessCheck opened.expiresAt (env.ops.expiryRule opened.kind) now env.maxAhead = .ok ∧
      (remember st opened (env.ops.expiryRule opened.kind) now).1 = .ok ∧
      (checkChain env (remember st opened (env.ops.expiryRule opened.kind) now).2 opened now).1 =
        .none := by
  unfold receive at hstep ⊢
  split at hstep
  next hfresh =>
    split at hstep
    next hkept =>
      unfold authorise at hstep ⊢
      split_ifs at hstep with hpass
      · rw [hkept, if_pos hpass]
        refine ⟨?_, hfresh, rfl, hpass⟩
        unfold reassemble
        split
        · rfl
        · split <;> rfl
      · cases hstep
    next => cases hstep
  next => cases hstep

/-- What the tables come to over a call of theirs, what stands comes to with them. -/
theorem Standing.stepped (h : Standing env st recorded) {event : HostEvent}
    (hcovered : ∀ host ∈ st.host recorded, event.Covered host)
    {revocations : Option RevocationStore} {manifest : Option ManifestState}
    (htables : ∀ memo, Host.step env.sign ⟨memo, recorded, st.revocations, st.manifest⟩ event =
      ⟨memo, recorded, revocations, manifest⟩) :
    Standing env { st with revocations, manifest } recorded := by
  refine ⟨fun host hhost => ?_, h.chains⟩
  obtain ⟨memo, hmem, rfl⟩ := Option.mem_map.1 hhost
  rw [← htables memo]
  exact (h.memo _ (mem_host hmem)).step (hcovered _ (mem_host hmem))

theorem Receives.standing (hrun : Receives env st recorded) : Standing env st recorded := by
  induction hrun with
  | start st n hmemo hchains =>
    refine ⟨fun host hhost => ?_, fun e he => ?_⟩
    · obtain ⟨memo, hmem, rfl⟩ := Option.mem_map.1 hhost
      rw [hmemo memo hmem]
      exact memoSound_init env.sign n st.revocations st.manifest
    · rw [hchains] at he
      cases he
  | frame _ frame now scratch ih =>
    unfold fznAdmit frameRecorded
    cases hauth : authenticate env frame scratch with
    | mk result scratch' =>
      cases result with
      | error _ => exact ih
      | ok _ => exact ih.receive
  | chain _ o ih =>
    refine ⟨ih.memo, fun e (he : e ∈ (o.admitTo env.sign _).2.entries) => ?_⟩
    unfold ChainOffer.admitTo at he
    rcases chainStoreAdmit_cases _ o.hops o.root o.capability o.now env.sign o.revocations
        o.manifest with ⟨-, heq⟩ | ⟨v, hv, -, hstep⟩
    · rw [heq] at he
      exact ih.chains e he
    · rcases hstep.mem he with he | rfl
      · exact ih.chains e he
      · obtain ⟨hne, hlen, -⟩ := chainPackInto_of_verified hv
        obtain ⟨-, -, -, -, -, hverdict⟩ := chainVerify_ok.1 hv
        exact ⟨o.hops, chainOpen_chainPack hne hlen, by rw [hverdict]; rfl⟩
  | revoke _ hs _ _ _ _ hcovered ih =>
    exact ih.stepped hcovered fun memo => by simp only [Host.step, hs]; rfl
  | manifest _ hm _ _ hcovered ih =>
    exact ih.stepped hcovered fun memo => by simp only [Host.step, hm]

end Standing

/-- **What is admitted stands**: in every state a receiver comes to, a frame that `fzn_admit`
admits was authentic, fresh and not seen before, and a chain to its sender from that sender's
root is accepted in this store and behind this gate, whether the memo was asked or not. -/
theorem admitted_stands {env : AdmitEnv} {st : AdmitState} {recorded : List (List Hop)}
    (hrun : Receives env st recorded) {frame : Bytes} {now : UInt64} {scratch : List AdmitKey}
    (hadmitted : (fznAdmit env frame now scratch st).1.step = .admitted) :
    ∃ opened, (authenticate env frame scratch).1 = .ok opened ∧
      (fznAdmit env frame now scratch st).1.opened = some opened ∧ Stands env st opened now := by
  unfold fznAdmit at hadmitted ⊢
  split at hadmitted
  next result scratch' hauth =>
    exact absurd (authenticate_error hauth) (by rw [hadmitted]; decide)
  next opened scratch' hauth =>
    obtain ⟨hopened, hfresh, hkept, hpass⟩ := receive_admitted hadmitted
    rw [hauth]
    have hstanding : Standing env (remember st opened (env.ops.expiryRule opened.kind) now).2
        recorded :=
      ⟨hrun.standing.memo, hrun.standing.chains⟩
    exact ⟨opened, rfl, hopened, hfresh, hkept, hstanding.entitled hpass⟩

/-- A host that follows the root and key `2`. -/
def followingTwo : ManifestState := ⟨[⟨1, 0, false⟩, ⟨2, 0, false⟩], 2, [], 1⟩

/-- The tables with that chain, at such a host. -/
def followingState : AdmitState := { oneChainState with manifest := some followingTwo }

/-- A frame is admitted there, and then a manifest of key `2`'s own that names a pair. -/
def heardState : AdmitState :=
  let st := (fznAdmit oneKeyEnv (oneByteFrame 0) 5 [⟨0, 0⟩] followingState).2.2
  { st with manifest := some (manifestAdmit followingTwo st.revocations
      { onePairManifest with issuer := 2 } acceptingSign).2 }

/-- The hypotheses are met: a chain is admitted, a frame of its sender, a manifest of a key
that grants no hop of the chain, and a second frame, of another nonce, which the memo passes. -/
theorem admitted_stands_heard :
    ∃ opened, (authenticate oneKeyEnv ((oneByteFrame 0).set 69 8) [⟨0, 0⟩]).1 = .ok opened ∧
      (fznAdmit oneKeyEnv ((oneByteFrame 0).set 69 8) 6 [⟨0, 0⟩] heardState).1.opened =
        some opened ∧
      Stands oneKeyEnv heardState opened 6 := by
  have hempty : Receives oneKeyEnv { followingState with chains := ⟨[], 1⟩ } [[]] :=
    .start _ 1 (fun memo hmemo => (Option.some.inj hmemo).symm) rfl
  have hchain : (ChainOffer.admitTo ⟨[grantHop], 1, ⟨7⟩, 5, none, none⟩ oneKeyEnv.sign
      ⟨[], 1⟩).2 = oneChainState.chains := by
    decide +kernel
  have hheld : Receives oneKeyEnv followingState [[]] := by
    have hrun := hempty.chain ⟨[grantHop], 1, ⟨7⟩, 5, none, none⟩
    rwa [hchain] at hrun
  have hrecorded : frameRecorded oneKeyEnv followingState [[]] (oneByteFrame 0) 5 [⟨0, 0⟩] =
      [[grantHop]] := by
    decide +kernel
  have hframe := hheld.frame (oneByteFrame 0) 5 [⟨0, 0⟩]
  have hheard : Receives oneKeyEnv heardState _ := hframe.manifest (m := followingTwo)
    (by decide +kernel) { onePairManifest with issuer := 2 } acceptingSign (fun host hhost m _ _ => by
      obtain ⟨memo, -, rfl⟩ := Option.mem_map.1 hhost
      refine .inr (.inr fun slot e _ hops hrec hop hhop => ?_)
      rw [hrecorded] at hrec
      obtain rfl : hops = [grantHop] := List.mem_singleton.1 (List.mem_of_getElem? hrec)
      rw [List.mem_singleton.1 hhop]
      decide)
  exact admitted_stands hheard (by decide +kernel)

end Admit
end Fuzznet
