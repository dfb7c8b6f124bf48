/-
# The root set

`chain/root_log.c`: an estate starts from one genesis root and changes its roots by
signed records.  `fzn_root_set_admit` checks a record's bytes and signature and keeps
it under its hash; nothing is judged there.  What the records come to is settled when
the set is read: with the removals fixed membership is grown from the genesis root
(`growMembers`), the removals are recomputed from the members, and so on until they
stop changing; a set that does not settle in one round more than it has records takes
every removal a round saw (`settleRounds`).

The flags of a reading (`add_ok`, `rem_ok`, `seen`, `next`) are one byte per record;
they are functions of the record's index here.  The bytes of a set of records are held
by the caller; `FZN_ROOT_SET_MAX` flags come with a reading, and a set holding more is
read through a view on the caller's own storage.
-/

import Fuzznet.Chain.Store
import Fuzznet.Lib.Rounds
import Fuzznet.Lib.Runs

namespace Fuzznet
namespace Chain

open Wire

/-- `fzn_root_log_err_t`. -/
inductive RootLogErr
  | ok
  | malformed
  | shape
  | signature
  | full
  | crypto
  deriving DecidableEq, Repr

/-- The two objects a root set is made of. -/
inductive RootObject
  | rootAdd
  | rootRemove
  deriving DecidableEq, Repr

/-- `FZN_OBJECT_ROOT_ADD` and `FZN_OBJECT_ROOT_REMOVE`. -/
def RootObject.tag : RootObject → UInt8
  | .rootAdd => 140
  | .rootRemove => 141

/-- `FZN_ROOT_ADD_BODY_LEN` and `FZN_ROOT_REMOVE_BODY_LEN`: what the signature
covers. -/
def RootObject.bodyLen : RootObject → ℕ
  | .rootAdd => 66
  | .rootRemove => 98

/-- `fzn_root_change_t`: a root-set record as a set keeps it. -/
structure RootChange where
  object : RootObject
  signer : Key
  subject : Key
  cut : RecId
  id : RecId
  deriving DecidableEq, Repr

/-- `is_add`. -/
def RootChange.isAdd (c : RootChange) : Bool := decide (c.object = .rootAdd)

/-- `fzn_root_set_t`. -/
structure RootSet where
  genesis : Key
  changes : List RootChange
  capacity : ℕ
  deriving DecidableEq, Repr

/-- `set_sound`. -/
def rootSetSound (set : RootSet) : Bool := decide (set.changes.length ≤ set.capacity)

/-- `fzn_root_set_init` over an array of `capacity` changes. -/
def rootSetInit (genesis : Key) (capacity : ℕ) : Except RootLogErr RootSet :=
  if capacity = 0 then .error .malformed else .ok ⟨genesis, [], capacity⟩

/-- The body of a record, as `sign_change` lays it out: a removal carries its cut. -/
def rootRecordBody (object : RootObject) (signer subject : Key) (cut : RecId) : Bytes :=
  [signedVersion, object.tag] ++ putBe 32 signer.toNat ++ putBe 32 subject.toNat ++
    match object with
    | .rootAdd => []
    | .rootRemove => putBe 32 cut.toNat

/-- A record: its body and a signature. -/
def rootRecordBytes (object : RootObject) (signer subject : Key) (cut : RecId)
    (signature : Sig) : Bytes :=
  rootRecordBody object signer subject cut ++ putBe 64 signature.toNat

/-- The object the bytes are: version, tag and length. -/
def rootRecordShape (bs : Bytes) : Option RootObject :=
  if bs.length < 2 ∨ getBe bs 0 1 ≠ signedVersion.toNat then none
  else if getBe bs 1 1 = RootObject.rootAdd.tag.toNat then
    if bs.length = RootObject.rootAdd.bodyLen + 64 then some .rootAdd else none
  else if getBe bs 1 1 = RootObject.rootRemove.tag.toNat then
    if bs.length = RootObject.rootRemove.bodyLen + 64 then some .rootRemove else none
  else none

/-- `FZN_ROOT_SET_OFF_SIGNER`: the key the record is signed under. -/
def rootRecordSigner (bs : Bytes) : Key := BitVec.ofNat 256 (getBe bs 2 32)

/-- The change a record of this shape and hash is kept as. -/
def rootChangeOf (object : RootObject) (bs : Bytes) (id : RecId) : RootChange where
  object := object
  signer := rootRecordSigner bs
  subject := BitVec.ofNat 256 (getBe bs 34 32)
  cut := match object with
    | .rootAdd => 0
    | .rootRemove => BitVec.ofNat 256 (getBe bs 66 32)
  id := id

/-- The end of `fzn_root_set_admit`: once per id. -/
def keepChange (set : RootSet) (c : RootChange) : RootLogErr × RootSet :=
  if set.changes.any (fun held => held.id = c.id) then (.ok, set)
  else if set.changes.length ≥ set.capacity then (.full, set)
  else (.ok, { set with changes := set.changes ++ [c] })

/-- `fzn_root_set_admit`. -/
def rootSetAdmit (set : RootSet) (bs : Bytes) (sign : SignOps) (hash : HashOps) :
    RootLogErr × RootSet :=
  if rootSetSound set = false then (.malformed, set)
  else match rootRecordShape bs with
    | none => (.shape, set)
    | some object =>
      if sign.verify (rootRecordSigner bs) (bs.take object.bodyLen)
          (BitVec.ofNat 512 (getBe bs object.bodyLen 64)) = false then (.signature, set)
      else match hash.hash bs with
        | none => (.crypto, set)
        | some id => keepChange set (rootChangeOf object bs id)

/-! ## A reading -/

/-- `fzn_root_view_t`, `struct settled`: which adds and which removals count, by the record's index. -/
structure RootView where
  addOk : ℕ → Bool
  remOk : ℕ → Bool

/-- `member_in`. -/
def memberIn (set : RootSet) (addOk : ℕ → Bool) (key : Key) : Bool :=
  decide (set.genesis = key) ||
    set.changes.zipIdx.any fun p => p.1.isAdd && addOk p.2 && decide (p.1.subject = key)

/-- `removed_in`. -/
def removedIn (set : RootSet) (remOk : ℕ → Bool) (key : Key) : Bool :=
  set.changes.zipIdx.any fun p => !p.1.isAdd && remOk p.2 && decide (p.1.subject = key)

/-- Whether `act` stands under a removal's cut: the removal names one, and the log of
acts has `act` at or before it. -/
def standsUnder (acts : Option ActLogOps) (root : Key) (cut act : RecId) : Bool :=
  acts.any fun ops => decide (cut ≠ 0) && ops.stands root cut act

/-- `counts_in`, the act rule. -/
def countsIn (set : RootSet) (acts : Option ActLogOps) (st : RootView) (root : Key) (act : RecId) :
    Bool :=
  memberIn set st.addOk root &&
    set.changes.zipIdx.all fun p => p.1.isAdd || !st.remOk p.2 || decide (p.1.subject ≠ root) ||
      standsUnder acts root p.1.cut act

/-- Whether the add at index `i` counts, under the flags so far. -/
def addTest (set : RootSet) (acts : Option ActLogOps) (remOk addOk : ℕ → Bool) (i : ℕ) : Bool :=
  set.changes[i]?.any fun c => c.isAdd && countsIn set acts ⟨addOk, remOk⟩ c.signer c.id

/-- `grow_members`: passes over the records until one raises nothing, which a pass more
than there are records is. -/
def growMembers (set : RootSet) (acts : Option ActLogOps) (remOk : ℕ → Bool) : ℕ → Bool :=
  Lib.rounds (addTest set acts remOk) (List.range set.changes.length) (set.changes.length + 1)
    fun _ => false

/-- The removals recomputed, `st->next`. -/
def nextRemovals (set : RootSet) (addOk : ℕ → Bool) (i : ℕ) : Bool :=
  set.changes[i]?.any fun c => !c.isAdd && memberIn set addOk c.signer

/-- `memcmp` of two arrays of `n` flags. -/
def sameFlags (n : ℕ) (f g : ℕ → Bool) : Bool := (List.range n).all fun i => f i == g i

/-- The rounds of `settle`, the first argument being how many are left, and whether
the removals stopped changing in one. -/
def settleRounds (set : RootSet) (acts : Option ActLogOps) :
    ℕ → (ℕ → Bool) → (ℕ → Bool) → RootView × Bool
  | 0, _, seen => (⟨growMembers set acts seen, seen⟩, false)
  | left + 1, remOk, seen =>
    if sameFlags set.changes.length (nextRemovals set (growMembers set acts remOk)) remOk then
      (⟨growMembers set acts remOk, remOk⟩, true)
    else
      settleRounds set acts left (nextRemovals set (growMembers set acts remOk)) fun i =>
        seen i || nextRemovals set (growMembers set acts remOk) i

/-- `settle`. -/
def settle (set : RootSet) (acts : Option ActLogOps) : RootView × Bool :=
  settleRounds set acts (set.changes.length + 1) (fun _ => false) fun _ => false

/-- `FZN_ROOT_SET_MAX`: the flags a reading brings along. -/
def rootSetMax : ℕ := 64

/-- `fzn_root_view_init_with`: a view on the caller's `capacity` flags, or on its own
for `none`. -/
def rootViewInit (set : RootSet) (acts : Option ActLogOps) (capacity : Option ℕ) :
    Except RootLogErr RootView :=
  if rootSetSound set = false ∨ capacity = some 0 then .error .malformed
  else if set.changes.length > capacity.getD rootSetMax then .error .full
  else .ok (settle set acts).1

/-- The flags `fzn_root_set_member` and its kind read: none for a set that cannot be
read, or that holds more than they have flags for. -/
def rootReading (set : RootSet) (acts : Option ActLogOps) : Option RootView :=
  (rootViewInit set acts none).toOption

/-- `fzn_root_set_member`. -/
def rootSetMember (set : RootSet) (acts : Option ActLogOps) (key : Key) : Bool :=
  (rootReading set acts).any fun st => memberIn set st.addOk key

/-- `fzn_root_set_stands`. -/
def rootSetStands (set : RootSet) (acts : Option ActLogOps) (key : Key) : Bool :=
  (rootReading set acts).any fun st => memberIn set st.addOk key && !removedIn set st.remOk key

/-- `fzn_root_set_counts`. -/
def rootSetCounts (set : RootSet) (acts : Option ActLogOps) (root : Key) (act : RecId) : Bool :=
  (rootReading set acts).any fun st => countsIn set acts st root act

/-- The rounds of a reading settle: there is one, and its removals stop changing. -/
def rootSetSettles (set : RootSet) (acts : Option ActLogOps) : Bool :=
  (rootReading set acts).isSome && (settle set acts).2

/-- The set behind a run of admissions. -/
def rootSetRun (sign : SignOps) (hash : HashOps) (set : RootSet) (records : List Bytes) : RootSet :=
  records.foldl (fun set bs => (rootSetAdmit set bs sign hash).2) set

/-- Every admission of the run answers OK, in the set it meets. -/
def AllAdmitted (sign : SignOps) (hash : HashOps) (set : RootSet) (records : List Bytes) : Prop :=
  ∀ pre bs, pre ++ [bs] <+: records →
    (rootSetAdmit (rootSetRun sign hash set pre) bs sign hash).1 = .ok

end Chain
end Fuzznet
