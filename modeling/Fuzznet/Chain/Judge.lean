/-
# Judging a hop: the k-of-n rule, the latch, the root's pass, the admins

`chain/revocation.c`: `root_entry`, `counts`, `epoch_closed`, `open_epoch`,
`root_pass`, `judge_hop`, `judge_links`, `root_confirms`, `admin_rooted`,
`confirm_admins`, `standing_admins` and the questions built on them,
`fzn_revocation_covers_links`, `fzn_revocation_admin_stands`,
`fzn_revocation_confirmed`, `fzn_revocation_act_stands`,
`fzn_revocation_current_epoch`, `fzn_revocation_covers_chain`.

A hop is revoked by a live entry of a root, by `quorum` live entries of counted
issuers, or by the latch: in the lowest epoch not closed `quorum` issuers have
voted and fewer than `quorum` of them have withdrawn.  Every count the rule
takes is one `tally` of the counted entries by flag and epoch.

Which admins count is settled in rounds (`Lib.rounds`), twice: `confirmAdmins`
over all admins, then over those whose own chain is not revoked.
-/

import Fuzznet.Chain.Store
import Fuzznet.Lib.Rounds

namespace Fuzznet
namespace Chain

open Wire

/-- `UINT64_MAX`. -/
def maxEpoch : UInt64 := 18446744073709551615

/-- `struct hop_question`: which entries a hop counts.  `grantors` are those of
hops `0` to `i`, the ancestors; `adminOk` is a flag per admin-table slot. -/
structure HopQuestion where
  grantors : List Key
  grantee : Key
  capability : CapId
  adminOk : Option (ℕ → Bool)
  anyIssuer : Bool
  floor : Option UInt64

/-- `root_entry`: the entry is a root's that counts.  With a root set a member
whose record held the set says counts, without one the root the question
names. -/
def rootEntry (s : RevocationStore) (rootKey : Option Key) (e : Revocation) : Bool :=
  match s.roots with
  | some r => r.member e.issuer && r.counts e.issuer e.held
  | none => rootKey.any fun k => e.issuer = k

/-- The issuer is an admin `adminOk` lets count. -/
def adminCounts (s : RevocationStore) (adminOk : Option (ℕ → Bool)) (issuer : Key) : Bool :=
  (findAdmin s issuer).any fun a => adminOk.all fun ok => ok a

/-- The issuer is an admin `adminOk` does not let count. -/
def adminRefused (s : RevocationStore) (adminOk : Option (ℕ → Bool)) (issuer : Key) : Bool :=
  (findAdmin s issuer).any fun a => adminOk.any fun ok => !ok a

/-- Who may vote on the hop, whatever the entry says. -/
def entitled (s : RevocationStore) (h : HopQuestion) (e : Revocation) : Bool :=
  if h.anyIssuer then
    !(s.hasAdmin && !rootMember s e.issuer && adminRefused s h.adminOk e.issuer)
  else if rootMember s e.issuer then rootEntry s none e
  else decide (e.issuer ∈ h.grantors) || (s.hasAdmin && adminCounts s h.adminOk e.issuer)

/-- The entry was cast in an epoch the root has undone. -/
def undone (floor : Option UInt64) (epoch : UInt64) : Bool :=
  floor.any fun f => epoch ≤ f

/-- `counts`. -/
def counts (s : RevocationStore) (h : HopQuestion) (e : Revocation) : Bool :=
  decide (e.capability = h.capability ∧ e.grantee = h.grantee) && !undone h.floor e.epoch &&
    entitled s h e

/-- How many counted entries have a flag and an epoch that `p` takes. -/
def tally (s : RevocationStore) (h : HopQuestion) (p : Bool → UInt64 → Bool) : ℕ :=
  s.entries.countP fun e => counts s h e && p e.withdrawn e.epoch

/-- An issuer has left an epoch: it withdrew in it, or voted in a later one. -/
def leftEpoch (epoch : UInt64) (withdrawn : Bool) (at_ : UInt64) : Bool :=
  decide (epoch < at_) || (decide (at_ = epoch) && withdrawn)

/-- `epoch_closed`: `q` counted issuers have left it. -/
def epochClosed (s : RevocationStore) (h : HopQuestion) (epoch : UInt64) (q : ℕ) : Bool :=
  q ≤ tally s h (leftEpoch epoch)

/-- One candidate of `open_epoch`'s search: kept when it is at or past `first`,
below the best so far, and not closed. -/
def offerEpoch (closed : UInt64 → Bool) (first : UInt64) (best : Option UInt64) (c : UInt64) :
    Option UInt64 :=
  if first ≤ c ∧ (best.all fun b => c < b) ∧ closed c = false then some c else best

/-- The two candidates an entry brings: its epoch and, unless that is the last,
the one past it. -/
def offerEntry (closed : UInt64 → Bool) (first : UInt64) (best : Option UInt64) (epoch : UInt64) :
    Option UInt64 :=
  if epoch = maxEpoch then offerEpoch closed first best epoch
  else offerEpoch closed first (offerEpoch closed first best epoch) (epoch + 1)

/-- The search of `open_epoch` from `first`: the best candidate, if any is open. -/
def searchOpen (s : RevocationStore) (h : HopQuestion) (q : ℕ) (first : UInt64) : Option UInt64 :=
  s.entries.foldl (fun best e =>
      if counts s h e then offerEntry (fun c => epochClosed s h c q) first best e.epoch else best)
    (if epochClosed s h first q then none else some first)

/-- What `open_epoch` answers from `first`: `UINT64_MAX` when nothing is open. -/
def openFrom (s : RevocationStore) (h : HopQuestion) (q : ℕ) (first : UInt64) : UInt64 :=
  (searchOpen s h q first).getD maxEpoch

/-- `open_epoch`: the lowest epoch not closed, past the root's undo. -/
def openEpoch (s : RevocationStore) (h : HopQuestion) (q : ℕ) : UInt64 :=
  match h.floor with
  | none => openFrom s h q 0
  | some f => if f = maxEpoch then maxEpoch else openFrom s h q (f + 1)

/-- `h->floor` raised to an undo in `epoch`. -/
def raiseFloor (floor : Option UInt64) (epoch : UInt64) : Option UInt64 :=
  if floor.all fun f => f < epoch then some epoch else floor

/-- The loop of `root_pass`: whether a live root entry was met, and the floor
the withdrawn ones before it left.  `reads` is the loop's test, which the floor
raised so far is part of. -/
def scanRoots (reads : Option UInt64 → Revocation → Bool) :
    List Revocation → Option UInt64 → Bool × Option UInt64
  | [], floor => (false, floor)
  | e :: es, floor =>
    if reads floor e then
      if e.withdrawn then scanRoots reads es (raiseFloor floor e.epoch) else (true, floor)
    else scanRoots reads es floor

/-- The loop of `root_pass` over `es`, from a floor: the entries that count and are
a root's. -/
def rootScan (s : RevocationStore) (h : HopQuestion) (rootKey : Option Key)
    (es : List Revocation) (floor : Option UInt64) : Bool × Option UInt64 :=
  scanRoots (fun floor e => counts s { h with floor := floor } e && rootEntry s rootKey e) es floor

/-- `root_pass`: whether a root's live entry settles the hop, and the floor of
the question it leaves. -/
def rootPass (s : RevocationStore) (h : HopQuestion) (rootKey : Option Key) : Bool × Option UInt64 :=
  if rootKey.isNone ∧ s.roots.isNone then (false, none)
  else rootScan s h rootKey s.entries none

/-- `enum hop_verdict`, with the epoch that holds a latch. -/
inductive HopVerdict
  | free
  | root
  | live
  | latched (current : UInt64)
  deriving DecidableEq, Repr

/-- Any verdict but `HOP_FREE`. -/
def HopVerdict.revoked : HopVerdict → Bool
  | .free => false
  | _ => true

/-- The latch of an epoch: `q` issuers voted in it, and fewer have withdrawn. -/
def latchedIn (s : RevocationStore) (h : HopQuestion) (q : ℕ) (epoch : UInt64) : Bool :=
  decide (q ≤ tally s h fun _ a => a = epoch) &&
    decide (tally s h (fun w a => decide (a = epoch) && w) < q)

/-- `judge_hop` behind the root's pass: live votes, else the latch of the open
epoch. -/
def judgeVotes (s : RevocationStore) (h : HopQuestion) (q : ℕ) : HopVerdict :=
  if q ≤ tally s h (fun w _ => !w) then .live
  else if tally s h (fun _ _ => true) < q then .free
  else if latchedIn s h q (openEpoch s h q) then .latched (openEpoch s h q)
  else .free

/-- `judge_hop`. -/
def judgeHop (s : RevocationStore) (h : HopQuestion) (rootKey : Option Key) (q : ℕ) : HopVerdict :=
  if (rootPass s h rootKey).1 then .root
  else judgeVotes s { h with floor := (rootPass s h rootKey).2 } q

/-- The question `judge_links` asks about hop `i`. -/
def hopQuestion (links : List Link) (capability : CapId) (adminOk : ℕ → Bool) (i : ℕ) :
    HopQuestion where
  grantors := (links.take (i + 1)).map Link.grantor
  grantee := (links[i]?.map Link.grantee).getD 0
  capability := capability
  adminOk := some adminOk
  anyIssuer := false
  floor := none

/-- `grantors[0]`: the root a chain was verified from. -/
def firstGrantor (links : List Link) : Option Key := links.head?.map Link.grantor

/-- `judge_links`: the verdict on each hop, and no mark past the last. -/
def judgeLinks (s : RevocationStore) (links : List Link) (capability : CapId) (adminOk : ℕ → Bool)
    (i : ℕ) : Bool :=
  decide (i < links.length) &&
    (judgeHop s (hopQuestion links capability adminOk i) (firstGrantor links) (quorumOf s)).revoked

/-- `root_confirms`: `key` confirms as a root for a chain that starts at
`first`. -/
def rootConfirms (s : RevocationStore) (key first : Key) (act : RecId) : Bool :=
  match s.roots with
  | some r => r.member key && r.counts key act
  | none => decide (key = first)

/-- `admin_rooted`: the admin's chain still starts at a root that counts. -/
def adminRooted (s : RevocationStore) (ad : Admin) : Bool :=
  match s.roots, ad.hops with
  | some r, hop :: _ => r.counts hop.grantor ad.firstAct
  | _, _ => true

/-- The confirmation is one of `grant` by another than `grantor`. -/
def confirmsGrant (grant : RecId) (grantor : Key) (c : Confirm) : Bool :=
  decide (c.grant = grant ∧ c.confirmer ≠ grantor)

/-- The scan for confirmations that are `wanted`: one `byRoot`, or `need` from
distinct keys that `stands` names. -/
def scanWith (wanted byRoot : Confirm → Bool) (stands : Key → Bool) (need : ℕ) :
    List Confirm → List Key → Bool
  | [], seen => need ≤ seen.length
  | c :: cs, seen =>
    if need ≤ seen.length then true
    else if wanted c = false then scanWith wanted byRoot stands need cs seen
    else if byRoot c then true
    else if stands c.confirmer ∧ c.confirmer ∉ seen then
      scanWith wanted byRoot stands need cs (c.confirmer :: seen)
    else scanWith wanted byRoot stands need cs seen

/-- The scan for confirmations of `grant` by others than `grantor`, for a chain
that starts at `first`: one from a root, or `need` from distinct admins that
`stands` names. -/
def scanConfirms (s : RevocationStore) (grant : RecId) (grantor first : Key) (need : ℕ)
    (stands : ℕ → Bool) (cs : List Confirm) (seen : List Key) : Bool :=
  scanWith (confirmsGrant grant grantor) (fun c => rootConfirms s c.confirmer first c.act)
    (fun key => (findAdmin s key).any stands) need cs seen

/-- How many confirmations a grant needs besides its own: `k - 1`. -/
def confirmsNeeded (s : RevocationStore) : ℕ := quorumOf s - 1

/-- A root granted the hop: the chain's own first grantor, or a member. -/
def rootGranted (s : RevocationStore) (first : Key) (hop : AdminHop) : Bool :=
  decide (hop.grantor = first) || rootMember s hop.grantor

/-- A confirmer counts: confirmed, and eligible when that is asked. -/
def confirmerStands (eligible : Option (ℕ → Bool)) (confirmed : ℕ → Bool) (b : ℕ) : Bool :=
  confirmed b && eligible.all fun el => el b

/-- Every hop behind the first is a root's or is confirmed. -/
def hopsConfirmed (s : RevocationStore) (stands : ℕ → Bool) (ad : Admin) : Bool :=
  match ad.hops with
  | [] => true
  | hop0 :: hops => hops.all fun hop =>
    rootGranted s hop0.grantor hop ||
      scanConfirms s hop.hopId hop.grantor hop0.grantor (confirmsNeeded s) stands s.confirms []

/-- The test a round of `confirm_admins` puts to slot `a`. -/
def adminTest (s : RevocationStore) (eligible : Option (ℕ → Bool)) (confirmed : ℕ → Bool) (a : ℕ) :
    Bool :=
  s.admins[a]?.any fun ad =>
    adminRooted s ad && hopsConfirmed s (confirmerStands eligible confirmed) ad

/-- No confirmation is asked for: none are kept, or `k` is one. -/
def confirmsAll (s : RevocationStore) : Bool := s.confirmHash.isNone || confirmsNeeded s == 0

/-- `confirm_admins`: the flags the rounds leave. -/
def confirmAdmins (s : RevocationStore) (eligible : Option (ℕ → Bool)) : ℕ → Bool :=
  if confirmsAll s then fun a => s.admins[a]?.any (adminRooted s)
  else Lib.rounds (adminTest s eligible) (List.range s.admins.length) (s.admins.length + 1)
    fun _ => false

/-- The links of an admin's own chain. -/
def Admin.links (ad : Admin) : List Link := ad.hops.map AdminHop.link

/-- A hop of the admin's own chain is revoked, counting the admins `confirmed`
names. -/
def adminRevoked (s : RevocationStore) (confirmed : ℕ → Bool) (ad : Admin) : Bool :=
  (List.range ad.hops.length).any (judgeLinks s ad.links s.adminCapability confirmed)

/-- The first stratum of `standing_admins`: confirmed, and not revoked counting
every confirmed admin's vote. -/
def firstStratum (s : RevocationStore) (a : ℕ) : Bool :=
  s.admins[a]?.any fun ad =>
    confirmAdmins s none a && !adminRevoked s (confirmAdmins s none) ad

/-- `standing_admins`: the first stratum, confirmed again by itself. -/
def standingAdmins (s : RevocationStore) (a : ℕ) : Bool :=
  firstStratum s a && confirmAdmins s (some (firstStratum s)) a

/-- `fzn_revocation_admin_stands`. -/
def adminStands (s : RevocationStore) (key : Key) : Bool :=
  storeSound s && s.hasAdmin && (findAdmin s key).any (standingAdmins s)

/-- `fzn_revocation_confirmed`. -/
def revocationConfirmed (s : RevocationStore) (issuer : Key) (act : RecId) (root : Key) : Bool :=
  storeSound s && (rootConfirms s issuer root act || (adminStands s issuer &&
    (confirmsAll s ||
      scanConfirms s act issuer root (confirmsNeeded s) (standingAdmins s) s.confirms [])))

/-- The question `fzn_revocation_current_epoch` asks: every issuer's entries, but
not those of an admin who does not stand. -/
def anyQuestion (s : RevocationStore) (capability : CapId) (grantee : Key) : HopQuestion where
  grantors := []
  grantee := grantee
  capability := capability
  adminOk := if s.hasAdmin ∧ s.admins ≠ [] then some (standingAdmins s) else none
  anyIssuer := true
  floor := none

/-- `fzn_revocation_current_epoch`: the epoch the next vote is cast in. -/
def currentEpoch (s : RevocationStore) (root : Option Key) (capability : CapId) (grantee : Key) :
    UInt64 :=
  if storeSound s = false then 0
  else openEpoch s { anyQuestion s capability grantee with
    floor := (rootPass s (anyQuestion s capability grantee) root).2 } (quorumOf s)

/-- `fzn_revocation_covers_links`: a store that cannot be read denies every hop,
and a chain of no hops or too many is a question without a subject. -/
def coversLinks (s : RevocationStore) (links : List Link) (capability : CapId) (i : ℕ) : Bool :=
  if storeSound s = false then decide (i < chainMaxHops)
  else if links.length = 0 ∨ chainMaxHops < links.length then false
  else judgeLinks s links capability (standingAdmins s) i

/-- The root's undo in full, which `root_pass` may stop short of. -/
def fullFloor (s : RevocationStore) (h : HopQuestion) (rootKey : Option Key) : Option UInt64 :=
  s.entries.foldl (fun floor e =>
    if e.withdrawn && counts s { h with floor := floor } e && rootEntry s rootKey e then
      raiseFloor floor e.epoch
    else floor) none

/-- The entry's vote draws the line: it is live, or it was cast in the epoch
that holds the latch. -/
def binds (verdict : HopVerdict) (e : Revocation) : Bool :=
  !e.withdrawn || decide (verdict = .latched e.epoch)

/-- The lines the binding votes draw, a vote the root has undone drawing none. -/
def bindingCuts (s : RevocationStore) (h : HopQuestion) (rootKey : Option Key)
    (verdict : HopVerdict) : List RecId :=
  (s.entries.filter fun e =>
    counts s { h with floor := fullFloor s h rootKey } e && binds verdict e).map Revocation.cut

/-- An act of a grantee judged `verdict`: it stands under every binding vote's
cut, or not at all. -/
def actStandsUnder (s : RevocationStore) (h : HopQuestion) (rootKey : Option Key)
    (verdict : HopVerdict) (act : RecId) : Bool :=
  if verdict.revoked then
    s.acts.any fun acts =>
      (bindingCuts s h rootKey verdict).all (fun cut => cut != 0 && acts.stands h.grantee cut act) &&
        !(bindingCuts s h rootKey verdict).isEmpty
  else true

/-- `fzn_revocation_act_stands`. -/
def actStands (s : RevocationStore) (links : List Link) (capability : CapId) (i : ℕ) (act : RecId) :
    Bool :=
  if storeSound s = false then false
  else if links.length = 0 ∨ chainMaxHops < links.length ∨ links.length ≤ i then false
  else actStandsUnder s (hopQuestion links capability (standingAdmins s) i) (firstGrantor links)
    (judgeHop s (hopQuestion links capability (standingAdmins s) i) (firstGrantor links)
      (quorumOf s)) act

/-- `fzn_revocation_covers_chain`: the hops' links; no store knows of no
revocation. -/
def coversChain (s : Option RevocationStore) (hops : List Hop) (capability : CapId) (i : ℕ) : Bool :=
  s.any fun s => coversLinks s (hops.map Hop.link) capability i

end Chain
end Fuzznet
