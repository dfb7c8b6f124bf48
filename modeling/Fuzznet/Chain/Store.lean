/-
# The revocation store

`chain/revocation.h` (`fzn_revocation_t`, `fzn_revocation_admin_t`,
`fzn_revocation_confirm_t`, `fzn_root_ops_t`, `fzn_act_log_ops_t`,
`struct fzn_revocation_store`) and the store half of `chain/revocation.c`: the
setters, `find_entry`, `fzn_revocation_covers`, `fzn_revocation_lookup`.

An array with a fill count is the list of its rows in use, so `used`,
`admins_used` and `confirms_used` are lengths; the capacity stays a field,
because a caller owns the memory and a store may describe more rows than it
has (`storeSound`).  A row found by a scan is `Lib.row` of its triple.

A store keeps confirmations exactly when it has a hash for them, and a root set
comes with the hash its chains are asked about under, as the two setters
arrange; each such pair is one field here.
-/

import Fuzznet.Chain.Basic
import Fuzznet.Lib.Table

namespace Fuzznet
namespace Chain

open Wire

/-- `fzn_revocation_t`: what one issuer last said about one pair. -/
structure Revocation where
  capability : CapId
  grantee : Key
  issuer : Key
  id : RecId
  withdrawn : Bool
  epoch : UInt64
  held : RecId
  cut : RecId
  deriving DecidableEq, Repr

/-- The triple an entry is about. -/
def Revocation.triple (e : Revocation) : Triple :=
  ⟨e.issuer, e.capability, e.grantee⟩

/-- One hop of an admin's chain as the store remembers it: `grantor[i]`,
`grantee[i]` and `hop_id[i]`, the hash a confirmation names. -/
structure AdminHop where
  grantor : Key
  grantee : Key
  hopId : RecId
  deriving DecidableEq, Repr

/-- The hop's grantor and grantee. -/
def AdminHop.link (h : AdminHop) : Link := ⟨h.grantor, h.grantee⟩

/-- `fzn_revocation_admin_t`: a key that showed a chain for the store's admin
capability. -/
structure Admin where
  key : Key
  hops : List AdminHop
  firstAct : RecId
  deriving DecidableEq, Repr

/-- `fzn_revocation_confirm_t`: who confirmed which admin grant, and the hash of
the record that says so. -/
structure Confirm where
  confirmer : Key
  grant : RecId
  act : RecId
  deriving DecidableEq, Repr

/-- `fzn_root_ops_t` with the store's `root_hash`: which keys are roots, which
of a root's records still count, and the hash that names a hop. -/
structure RootOps where
  member : Key → Bool
  counts : Key → RecId → Bool
  hash : HashOps

/-- `fzn_act_log_ops_t`: whether an act of `key` is logged at or before the
entry `cut`. -/
structure ActLogOps where
  stands : Key → RecId → RecId → Bool

/-- `struct fzn_revocation_store`. -/
structure RevocationStore where
  entries : List Revocation
  capacity : ℕ
  generation : ℕ
  quorum : ℕ
  hasAdmin : Bool
  adminCapability : CapId
  admins : List Admin
  adminCapacity : ℕ
  roots : Option RootOps
  confirms : List Confirm
  confirmCapacity : ℕ
  confirmHash : Option HashOps
  acts : Option ActLogOps

/-- `REVOCATION_ADMINS_MAX`. -/
def revocationAdminsMax : ℕ := 32

/-- `fzn_revocation_store_sound`: no count is past its array. -/
def storeSound (s : RevocationStore) : Bool :=
  s.entries.length ≤ s.capacity && s.admins.length ≤ s.adminCapacity &&
    s.confirms.length ≤ s.confirmCapacity

/-- The quorum as it is read: `0` reads as `1`. -/
def quorumOf (s : RevocationStore) : ℕ := if s.quorum = 0 then 1 else s.quorum

theorem quorumOf_pos (s : RevocationStore) : 0 < quorumOf s := by
  unfold quorumOf; split_ifs <;> omega

/-- A store as `fzn_revocation_store_init` leaves it: one issuer revokes, no
admins, one root, no confirmations, no act log.  The generation starts at one,
so that a memo entry left zero never matches it. -/
def emptyStore (capacity : ℕ) : RevocationStore where
  entries := []
  capacity := capacity
  generation := 1
  quorum := 1
  hasAdmin := false
  adminCapability := ⟨0⟩
  admins := []
  adminCapacity := 0
  roots := none
  confirms := []
  confirmCapacity := 0
  confirmHash := none
  acts := none

/-- The generation, one further. -/
def bump (s : RevocationStore) : RevocationStore :=
  { s with generation := s.generation + 1 }

/-- `fzn_revocation_store_use`: the entries moved onto a table of `capacity`. -/
def storeUse (s : RevocationStore) (capacity : ℕ) : ChainErr × RevocationStore :=
  if capacity = 0 ∨ storeSound s = false ∨ capacity < s.entries.length then (.malformed, s)
  else (.ok, bump { s with capacity := capacity })

/-- `fzn_revocation_store_use_confirmations`. -/
def storeUseConfirmations (s : RevocationStore) (capacity : ℕ) : ChainErr × RevocationStore :=
  if capacity = 0 ∨ s.confirmHash.isNone ∨ storeSound s = false ∨ capacity < s.confirms.length then
    (.malformed, s)
  else (.ok, bump { s with confirmCapacity := capacity })

/-- `fzn_revocation_store_set_confirmations`: before any admin is held. -/
def storeSetConfirmations (s : RevocationStore) (capacity : ℕ) (hash : HashOps) :
    ChainErr × RevocationStore :=
  if capacity = 0 ∨ s.admins ≠ [] then (.malformed, s)
  else (.ok, bump { s with
    confirms := []
    confirmCapacity := capacity
    confirmHash := some hash })

/-- `fzn_revocation_store_set_roots`; `none` goes back to the one root each
call names. -/
def storeSetRoots (s : RevocationStore) (roots : Option RootOps) : ChainErr × RevocationStore :=
  (.ok, bump { s with roots := roots })

/-- `fzn_revocation_store_set_k`: the quorum alone. -/
def storeSetK (s : RevocationStore) (quorum : ℕ) : ChainErr × RevocationStore :=
  if quorum = 0 then (.malformed, s)
  else if s.quorum ≠ quorum then (.ok, bump { s with quorum := quorum })
  else (.ok, s)

/-- `fzn_revocation_store_set_quorum`: the quorum, and the admin capability with
a table of `adminCapacity` rows for its holders, emptied. -/
def storeSetQuorum (s : RevocationStore) (quorum : ℕ) (adminCapability : Option CapId)
    (adminCapacity : ℕ) : ChainErr × RevocationStore :=
  if quorum = 0 then (.malformed, s)
  else if adminCapability.isSome ∧ (adminCapacity = 0 ∨ revocationAdminsMax < adminCapacity) then
    (.malformed, s)
  else (.ok, bump { s with
    quorum := quorum
    hasAdmin := adminCapability.isSome
    adminCapability := adminCapability.getD s.adminCapability
    admins := []
    adminCapacity := if adminCapability.isSome then adminCapacity else 0 })

/-- `fzn_revocation_store_set_acts`. -/
def storeSetActs (s : RevocationStore) (acts : Option ActLogOps) : ChainErr × RevocationStore :=
  (.ok, bump { s with acts := acts })

/-- `find_entry`: the entry of a triple. -/
def findEntry (s : RevocationStore) (t : Triple) : Option Revocation :=
  Lib.row Revocation.triple t s.entries

/-- **One entry per triple**, what `find_entry` calls the invariant that makes
it a lookup. -/
def OneEntryPerTriple (s : RevocationStore) : Prop :=
  (s.entries.map Revocation.triple).Nodup

instance (s : RevocationStore) : Decidable (OneEntryPerTriple s) :=
  inferInstanceAs (Decidable (List.Nodup _))

/-- `fzn_revocation_covers`, for a store that is given: a store that cannot be
read denies. -/
def covers (s : RevocationStore) (issuer : Key) (capability : CapId) (grantee : Key) : Bool :=
  if storeSound s = false then true
  else (findEntry s ⟨issuer, capability, grantee⟩).any fun e => !e.withdrawn

/-- `fzn_revocation_lookup`: the id held for a triple, and whether it is
withdrawn. -/
def lookup (s : RevocationStore) (issuer : Key) (capability : CapId) (grantee : Key) :
    Option (RecId × Bool) :=
  if storeSound s = false then none
  else (findEntry s ⟨issuer, capability, grantee⟩).map fun e => (e.id, e.withdrawn)

/-- `fzn_revocation_generation`; no store is generation `0`, which the memo
never takes. -/
def generationOf (s : Option RevocationStore) : ℕ := s.elim 0 RevocationStore.generation

/-- `find_admin`: the admin-table slot of a key. -/
def findAdmin (s : RevocationStore) (key : Key) : Option ℕ :=
  s.admins.findIdx? fun a => a.key = key

/-- The store's set names `key` as a root. -/
def rootMember (s : RevocationStore) (key : Key) : Bool :=
  s.roots.any fun r => r.member key

theorem findEntry_mem {s : RevocationStore} {t : Triple} {e : Revocation}
    (h : findEntry s t = some e) : e ∈ s.entries :=
  Lib.row_mem h

theorem findEntry_triple {s : RevocationStore} {t : Triple} {e : Revocation}
    (h : findEntry s t = some e) : e.triple = t :=
  Lib.row_key h

theorem covers_eq {s : RevocationStore} (hs : storeSound s = true) (t : Triple) :
    covers s t.issuer t.capability t.grantee = (findEntry s t).any fun e => !e.withdrawn := by
  simp [covers, hs]

end Chain
end Fuzznet
