/-
# The group an act log says

`node/group_log.h` and `node/group_log.c`: a group's members, admins, proposals, hosts and
epoch commitments, and what one act does to them.

| act | signed by | does |
| --- | --- | --- |
| `create` | anyone | a group of its signer alone, epoch 1 |
| `add`, `remove` | an admin | a member more, a member that is no admin less |
| `leave` | the member | itself less, and as an admin unless it is the last |
| `adminAdd`, `adminRemove` | an admin | a proposal, or an approval of the one there |
| `approve` | an admin | an approval of the proposal of a hash |
| `set` | an admin | the backfill setting |
| `host` | a member | its host listed, or named again |
| `keys` | a listed host | an epoch's secret given to listed hosts |

`groupApply` answers an error or takes the act; what an act taken may do is `JudgeStep`, one
case a kind of change (`judge_cases`).
-/

import Mathlib.Data.Fintype.Pi
import Fuzznet.Groups.Act

namespace Fuzznet
namespace Groups

open Wire

/-! ## The group -/

/-- `FZN_GROUP_MEMBERS_MAX`, `FZN_GROUP_ADMINS_MAX`, `FZN_GROUP_PROPOSALS_MAX`,
`FZN_GROUP_HOSTS_MAX`, `FZN_GROUP_KEY_ENTRY_LEN`, `FZN_GROUP_KEYS_PER_ACT`; the epochs kept,
`FZN_GROUP_EPOCHS_KEPT`, are 64. -/
def membersMax : ℕ := 65535
def adminsMax : ℕ := 16
def proposalsMax : ℕ := 8
def hostsMax : ℕ := 65535
def keyEntryLen : ℕ := 114
def keysPerAct : ℕ := 32

/-- `FZN_GROUP_SETTING_BACKFILL`. -/
def settingBackfill : UInt8 := 1

/-- `fzn_group_log_err_t`. -/
inductive GroupLogErr
  | malformed
  | refused
  | notNext
  | denied
  | moot
  | full
  | absent
  | gap
  | backend
  deriving DecidableEq, Repr

/-- `fzn_group_proposal_t`. -/
structure Proposal where
  hash : Bytes32
  kind : UInt8
  subject : Key
  approvals : List Key
  deriving DecidableEq

/-- `fzn_group_host_t`. -/
structure GroupHost where
  owner : Key
  key : Key
  seq : ℕ
  joinedEpoch : ℕ
  keyedEpoch : ℕ
  backfilledTo : ℕ
  deriving DecidableEq

/-- `fzn_group_commit_t`, epoch 0 for an empty slot. -/
structure EpochCommit where
  epoch : ℕ
  commit : Bytes32
  deriving DecidableEq

/-- `fzn_group_t`; a commitment is in the slot of its epoch modulo 64. -/
structure Group where
  id : Bytes32
  seq : ℕ
  head : Bytes32
  epoch : ℕ
  backfill : ℕ
  members : List Key
  admins : List Key
  proposals : List Proposal
  hosts : List GroupHost
  commits : Fin 64 → EpochCommit
  deriving DecidableEq

/-- A group of zero bytes. -/
def blank : Group where
  id := 0
  seq := 0
  head := 0
  epoch := 0
  backfill := 0
  members := []
  admins := []
  proposals := []
  hosts := []
  commits := fun _ => ⟨0, 0⟩

/-- `fzn_group_host`: the first entry of a key. -/
def groupHost (g : Group) (key : Key) : Option GroupHost := g.hosts.find? (·.key = key)

/-- The slot of an epoch's commitment. -/
def slot (epoch : ℕ) : Fin 64 := Fin.ofNat 64 epoch

/-- `fzn_group_commit`. -/
def groupCommit (g : Group) (epoch : ℕ) : Option Bytes32 :=
  if epoch = 0 then none
  else if (g.commits (slot epoch)).epoch = epoch then some (g.commits (slot epoch)).commit
  else none

/-! ## What an act does -/

/-- `drop_hosts_of`. -/
def dropHostsOf (g : Group) (owner : Key) : Group :=
  { g with hosts := g.hosts.filter (·.owner ≠ owner) }

/-- `add_host`. -/
def addHost (g : Group) (owner key : Key) (seq : ℕ) : Except GroupLogErr Group :=
  if (groupHost g key).isSome then .error .moot
  else if g.hosts.length = hostsMax then .error .full
  else .ok { g with hosts := g.hosts ++ [⟨owner, key, seq, g.epoch, 0, g.epoch⟩] }

/-- The first entry of a key changed. -/
def updateHost (key : Key) (f : GroupHost → GroupHost) : List GroupHost → List GroupHost
  | [] => []
  | h :: hosts => if h.key = key then f h :: hosts else h :: updateHost key f hosts

/-- `rename_host`. -/
def renameHost (g : Group) (owner key : Key) (seq : ℕ) (holds : Bool) :
    Except GroupLogErr Group :=
  match groupHost g key with
  | none => .error .moot
  | some h =>
    if h.owner ≠ owner then .error .denied
    else .ok { g with hosts := updateHost key (fun h =>
      if holds then { h with seq := seq }
      else { h with seq := seq, keyedEpoch := 0, backfilledTo := g.epoch }) g.hosts }

/-- One box of a `KEYS` act, for the host `key`; the count is of what it changed. -/
def keyHost (g : Group) (e : ℕ) (acc : List GroupHost × ℕ) (key : Key) :
    Except GroupLogErr (List GroupHost × ℕ) :=
  match acc.1.find? (·.key = key) with
  | none => .error .denied
  | some h =>
    if e < g.epoch ∧ g.backfill = 0 ∧ e < h.joinedEpoch then .error .denied
    else if e = g.epoch ∧ h.keyedEpoch ≠ e then
      .ok (updateHost key (fun h => { h with keyedEpoch := e }) acc.1, acc.2 + 1)
    else if e < g.epoch then
      if h.backfilledTo ≤ e then .error .moot
      else if e + 1 ≠ h.backfilledTo then .error .denied
      else .ok (updateHost key (fun h => { h with backfilledTo := e }) acc.1, acc.2 + 1)
    else .ok acc

/-- The keys a `KEYS` act's payload has boxes for. -/
def boxKeys (a : GroupAct) : List Key :=
  (List.range (a.payload.length / keyEntryLen)).map fun i =>
    BitVec.ofNat 256 (getBe a.payload (i * keyEntryLen) 32)

/-- What a `KEYS` act may commit an epoch to: what it is committed to, or anything where it is
the current one and has no commitment. -/
def commitFits (g : Group) (e : ℕ) (commit : Bytes32) : Bool :=
  match groupCommit g e with
  | some c => c = commit
  | none => e = g.epoch

/-- `keys`. -/
def keys (g : Group) (a : GroupAct) : Except GroupLogErr Group :=
  let e := a.value % 2 ^ 32
  let n := a.payload.length / keyEntryLen
  if a.signer.owner ∉ g.members ∨ groupHost g (deviceKey a.signer) = none then .error .denied
  else if a.value = 0 ∨ g.epoch < a.value ∨ n = 0 ∨ keysPerAct < n ∨
      a.payload.length % keyEntryLen ≠ 0 then .error .malformed
  else if commitFits g e a.subject = false then .error .denied
  else
    match (boxKeys a).foldlM (keyHost g e) (g.hosts, 0) with
    | .error err => .error err
    | .ok (hosts, fresh) =>
      match groupCommit g e with
      | some _ => if fresh = 0 then .error .moot else .ok { g with hosts := hosts }
      | none => .ok { g with
          hosts := hosts
          commits := Function.update g.commits (slot e) ⟨e, a.subject⟩ }

/-- `majority`: more than half of the admins. -/
def majority (g : Group) : ℕ := g.admins.length / 2 + 1

/-- `enact`: a proposal carried, and every open one ended. -/
def enact (g : Group) (p : Proposal) : Group :=
  if p.kind = ActKind.adminAdd.byte then
    if p.subject ∉ g.admins ∧ p.subject ∈ g.members ∧ g.admins.length < adminsMax then
      { g with admins := g.admins ++ [p.subject], proposals := [] }
    else { g with proposals := [] }
  else if p.subject ∈ g.admins ∧ 1 < g.admins.length then
    { g with admins := g.admins.erase p.subject, proposals := [] }
  else { g with proposals := [] }

/-- `approve`: an approval by `who` of the proposal `p` at `k`. -/
def approve (g : Group) (k : ℕ) (p : Proposal) (who : Key) : Except GroupLogErr Group :=
  if who ∈ p.approvals then .error .moot
  else
    let p := { p with approvals := p.approvals ++ [who] }
    let g := { g with proposals := g.proposals.set k p }
    if majority g ≤ p.approvals.length then .ok (enact g p) else .ok g

/-- The first proposal `f` holds of, with its place. -/
def findProposal (g : Group) (f : Proposal → Bool) : Option (ℕ × Proposal) :=
  (g.proposals.findIdx? f).bind fun k => g.proposals[k]?.map (k, ·)

/-- A change of the admins that changes nothing, or takes the last. -/
def proposalMoot (g : Group) (a : GroupAct) : Bool :=
  if a.kind = .adminAdd then a.subject ∉ g.members ∨ a.subject ∈ g.admins
  else a.subject ∉ g.admins ∨ g.admins.length = 1

/-- A member gone, its hosts and its admin's part with it. -/
def dropMember (g : Group) (subject : Key) : Group :=
  let g := if subject ∈ g.admins then
      { g with admins := g.admins.erase subject, proposals := [] } else g
  let g := dropHostsOf { g with members := g.members.erase subject } subject
  { g with epoch := (g.epoch + 1) % 2 ^ 32 }

/-- `judge`, of a copy of the group. -/
def judge (g : Group) (a : GroupAct) (hash : Bytes32) : Except GroupLogErr Group :=
  let who := a.signer.owner
  match a.kind with
  | .add =>
    if who ∉ g.admins then .error .denied
    else if a.subject ∈ g.members then .error .moot
    else if g.members.length = membersMax then .error .full
    else .ok { g with members := g.members ++ [a.subject], epoch := (g.epoch + 1) % 2 ^ 32 }
  | .remove =>
    if who ∉ g.admins then .error .denied
    else if a.subject ∉ g.members then .error .moot
    else if a.subject ∈ g.admins then .error .denied
    else .ok (dropMember g a.subject)
  | .leave =>
    if who ≠ a.subject then .error .denied
    else if a.subject ∉ g.members then .error .moot
    else if a.subject ∈ g.admins ∧ g.admins.length = 1 then .error .denied
    else .ok (dropMember g a.subject)
  | .adminAdd | .adminRemove =>
    if who ∉ g.admins then .error .denied
    else if proposalMoot g a then .error .moot
    else
      match findProposal g fun p => p.kind = a.kind.byte ∧ p.subject = a.subject with
      | some (k, p) => approve g k p who
      | none =>
        if a.kind = .adminAdd ∧ g.admins.length = adminsMax then .error .full
        else if g.proposals.length = proposalsMax then .error .full
        else
          let p := ⟨hash, a.kind.byte, a.subject, []⟩
          approve { g with proposals := g.proposals ++ [p] } g.proposals.length p who
  | .approve =>
    if who ∉ g.admins then .error .denied
    else
      match findProposal g fun p => p.hash = a.subject with
      | some (k, p) => approve g k p who
      | none => .error .moot
  | .set =>
    if who ∉ g.admins then .error .denied
    else if a.setting ≠ settingBackfill ∨ 1 < a.value then .error .malformed
    else if g.backfill = a.value then .error .moot
    else .ok { g with backfill := a.value }
  | .host =>
    if who ∉ g.members then .error .denied
    else if 1 < a.value then .error .malformed
    else if (groupHost g (deviceKey a.signer)).isSome then
      renameHost g who (deviceKey a.signer) a.seq (a.value ≠ 0)
    else addHost g who (deviceKey a.signer) a.seq
  | .keys => keys g a
  | .create => .error .malformed

/-- `fzn_group_apply`: its answer, and the group behind it. -/
def groupApply (g : Group) (a : GroupAct) (hash : Bytes32) : Except GroupLogErr Unit × Group :=
  if a.kind = .create then
    if a.seq ≠ 0 ∨ a.group ≠ 0 ∨ a.prev ≠ 0 then (.error .notNext, g)
    else
      let g := { blank with
        id := hash, head := hash, seq := 1, epoch := 1, backfill := 1
        members := [a.signer.owner], admins := [a.signer.owner] }
      match addHost g a.signer.owner (deviceKey a.signer) 0 with
      | .error e => (.error e, g)
      | .ok g => (.ok (), g)
  else if g.seq = 0 ∨ a.seq ≠ g.seq ∨ a.group ≠ g.id ∨ a.prev ≠ g.head then (.error .notNext, g)
  else
    match judge g a hash with
    | .error e => (.error e, g)
    | .ok next => (.ok (), { next with head := hash, seq := (next.seq + 1) % 2 ^ 32 })

end Groups
end Fuzznet
