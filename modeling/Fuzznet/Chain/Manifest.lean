/-
# The revocation manifest and the deficit table

`chain/manifest.h`, `chain/manifest.c`: `fzn_manifest_issue`,
`fzn_manifest_admit`, `fzn_manifest_satisfy`, `fzn_manifest_pending`,
`fzn_manifest_overflowed`.

A manifest is an issuer's signed list of the pairs it has an opinion about:
for each the id of its last revocation and whether that is withdrawn, strictly
ascending by capability and grantee.  A host that follows the issuer records in
its deficit table each pair it is *behind* about: it holds nothing, another id,
or the same id not withdrawn where the manifest says withdrawn.

The order and the bound `fzn_manifest_open` insists on are fields of the record,
so a manifest out of order cannot be built.  `memcmp` over the 64 bytes of a pair
is the order of the number they spell.
-/

import Fuzznet.Chain.Store

namespace Fuzznet
namespace Chain

open Wire

/-- `fzn_manifest_err_t`. -/
inductive ManifestErr
  | ok
  | malformed
  | shape
  | signature
  | unknownIssuer
  | full
  | deficitFull
  deriving DecidableEq, Repr

/-- The answers of `fzn_manifest_admit` that recorded the manifest: with `deficitFull`
some of its pairs found no room. -/
def ManifestErr.recorded : ManifestErr → Bool
  | .ok => true
  | .deficitFull => true
  | _ => false

/-- `FZN_MANIFEST_MAX_PAIRS`. -/
def manifestMaxPairs : ℕ := 2701

/-- `FZN_MANIFEST_LEN(pairs)`: header, entries and signature. -/
def manifestLen (pairs : ℕ) : ℕ := 36 + 97 * pairs + 64

/-- `fzn_manifest_entry_t`: a pair, the id of its last revocation and the state. -/
structure ManifestEntry where
  capability : CapId
  grantee : Key
  id : RecId
  withdrawn : Bool
  deriving DecidableEq, Repr

/-- The 64 bytes of the pair as a number: what `pair_cmp` orders by. -/
def ManifestEntry.key (e : ManifestEntry) : ℕ := (e.capability.b ++ e.grantee).toNat

/-- The triple an entry of `issuer`'s manifest is about. -/
def ManifestEntry.triple (issuer : Key) (e : ManifestEntry) : Triple :=
  ⟨issuer, e.capability, e.grantee⟩

/-- `fzn_manifest_record_t`, opened. -/
structure ManifestRecord where
  issuer : Key
  entries : List ManifestEntry
  signature : Sig
  ascending : entries.Pairwise fun a b => a.key < b.key
  bounded : entries.length ≤ manifestMaxPairs
  deriving DecidableEq

/-- `FZN_MANIFEST_REVOKED` is 0 and `FZN_MANIFEST_WITHDRAWN` is 1. -/
def ManifestEntry.bytes (e : ManifestEntry) : Bytes :=
  putBe 32 e.capability.b.toNat ++ putBe 32 e.grantee.toNat ++ putBe 32 e.id.toNat ++
    [if e.withdrawn then 1 else 0]

/-- The body of a manifest, what its signature covers. -/
def manifestBody (issuer : Key) (entries : List ManifestEntry) : Bytes :=
  [signedVersion, SignedObject.manifest.tag] ++ putBe 32 issuer.toNat ++ putBe 2 entries.length ++
    entries.flatMap ManifestEntry.bytes

/-- `fzn_manifest_signed_bytes`. -/
def ManifestRecord.signedBytes (m : ManifestRecord) : Bytes := manifestBody m.issuer m.entries

/-- `fzn_manifest_issue`'s insertion: in place in the order, a pair already there
passed over. -/
def insertEntry (c : ManifestEntry) : List ManifestEntry → List ManifestEntry
  | [] => [c]
  | e :: es =>
    if e.key = c.key then e :: es
    else if c.key < e.key then c :: e :: es
    else e :: insertEntry c es

/-- A store entry as the manifest states it. -/
def Revocation.manifestEntry (e : Revocation) : ManifestEntry :=
  ⟨e.capability, e.grantee, e.id, e.withdrawn⟩

/-- The loop of `fzn_manifest_issue` over the store, `outCap` being the room in
the output buffer. -/
def issueEntries (issuer : Key) (outCap : ℕ) :
    List Revocation → List ManifestEntry → Except ManifestErr (List ManifestEntry)
  | [], acc => .ok acc
  | e :: es, acc =>
    if e.issuer ≠ issuer then issueEntries issuer outCap es acc
    else if manifestMaxPairs ≤ acc.length then .error .shape
    else if outCap < manifestLen (acc.length + 1) then .error .malformed
    else issueEntries issuer outCap es (insertEntry e.manifestEntry acc)

/-- `fzn_manifest_issue`: the issuer's own entries, sorted, opened as a reader
would, and signed. -/
def manifestIssue (issuer : Key) (s : Option RevocationStore) (sign : SignOps) (outCap : ℕ) :
    Except ManifestErr ManifestRecord :=
  if s.any (fun s => !storeSound s) then .error .malformed
  else if outCap < manifestLen 0 then .error .malformed
  else match issueEntries issuer outCap (s.elim [] RevocationStore.entries) [] with
    | .error err => .error err
    | .ok entries =>
      if h : entries.length ≤ manifestMaxPairs ∧ entries.Pairwise fun a b => a.key < b.key then
        match sign.sign (manifestBody issuer entries) with
        | none => .error .signature
        | some sig => .ok ⟨issuer, entries, sig, h.2, h.1⟩
      else .error .shape

/-- `fzn_manifest_issuer_t`: a followed issuer, the largest manifest seen of it,
and whether a pair of one was dropped since. -/
structure ManifestIssuer where
  issuer : Key
  pairsSeen : ℕ
  overflowed : Bool
  deriving DecidableEq, Repr

/-- `fzn_manifest_state_t`. -/
structure ManifestState where
  issuers : List ManifestIssuer
  issuerCapacity : ℕ
  deficit : List Triple
  deficitCapacity : ℕ
  deriving DecidableEq, Repr

/-- `state_sound`. -/
def stateSound (m : ManifestState) : Bool :=
  m.issuers.length ≤ m.issuerCapacity && m.deficit.length ≤ m.deficitCapacity

/-- `find_issuer`. -/
def findIssuer (m : ManifestState) (issuer : Key) : Option ManifestIssuer :=
  Lib.row ManifestIssuer.issuer issuer m.issuers

/-- The host is behind the issuer about a pair. -/
def behind (s : Option RevocationStore) (issuer : Key) (e : ManifestEntry) : Bool :=
  match s.bind fun s => lookup s issuer e.capability e.grantee with
  | none => true
  | some (id, withdrawn) => id != e.id || (e.withdrawn && !withdrawn)

/-- The loop of `fzn_manifest_admit`: the deficit table after it, and how many
pairs found no room. -/
def recordDeficit (s : Option RevocationStore) (issuer : Key) (capacity : ℕ) :
    List ManifestEntry → List Triple → List Triple × ℕ
  | [], d => (d, 0)
  | e :: es, d =>
    if behind s issuer e = false ∨ e.triple issuer ∈ d then recordDeficit s issuer capacity es d
    else if capacity ≤ d.length then
      ((recordDeficit s issuer capacity es d).1, (recordDeficit s issuer capacity es d).2 + 1)
    else recordDeficit s issuer capacity es (d ++ [e.triple issuer])

/-- The issuer's row behind an admission that dropped `dropped` of `count` pairs:
the flag goes up with a drop, and down only with a manifest at least as large as
any seen that dropped none. -/
def ManifestIssuer.admitted (i : ManifestIssuer) (count dropped : ℕ) : ManifestIssuer :=
  if i.pairsSeen ≤ count then
    { i with pairsSeen := count, overflowed := decide (dropped ≠ 0) }
  else { i with overflowed := i.overflowed || decide (dropped ≠ 0) }

/-- The state an admission leaves, `d` being the deficit table and the drops of
its loop. -/
def ManifestState.recorded (m : ManifestState) (row : ManifestIssuer) (count : ℕ)
    (d : List Triple × ℕ) : ManifestState :=
  { m with
    issuers := Lib.writeRow ManifestIssuer.issuer (row.admitted count d.2) m.issuers
    deficit := d.1 }

/-- `fzn_manifest_admit`. -/
def manifestAdmit (m : ManifestState) (s : Option RevocationStore) (r : ManifestRecord)
    (sign : SignOps) : ManifestErr × ManifestState :=
  if stateSound m = false then (.malformed, m)
  else match findIssuer m r.issuer with
    | none => (.unknownIssuer, m)
    | some row =>
      if s.any (fun s => !storeSound s) then (.malformed, m)
      else if sign.verify r.issuer r.signedBytes r.signature = false then (.signature, m)
      else
        (if (recordDeficit s r.issuer m.deficitCapacity r.entries m.deficit).2 = 0 then .ok
          else .deficitFull,
          m.recorded row r.entries.length
            (recordDeficit s r.issuer m.deficitCapacity r.entries m.deficit))

/-- `fzn_manifest_satisfy`. -/
def satisfy (m : ManifestState) (t : Triple) : ManifestState :=
  if stateSound m = false then m
  else { m with deficit := m.deficit.filter fun d => d ≠ t }

/-- `fzn_manifest_pending`. -/
def pending (m : ManifestState) (issuer : Key) : ℕ :=
  if stateSound m = false then 0 else m.deficit.countP fun d => d.issuer = issuer

/-- `fzn_manifest_overflowed`: a state that cannot be read, and an issuer nobody
follows, may have dropped anything. -/
def overflowed (m : ManifestState) (issuer : Key) : Bool :=
  if stateSound m = false then true
  else (findIssuer m issuer).all ManifestIssuer.overflowed

end Chain
end Fuzznet
