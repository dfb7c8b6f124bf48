/-
# Hops, chains and revocation records

`chain/chain.h`, `chain/chain.c` (`fzn_hop_open`, `fzn_chain_open`) and the
record half of `chain/revocation.h`.

A hop and a revocation record are views over fixed layouts, and every field is
read from the bytes the signature covers:

| object | bytes | signed | layout |
| --- | ---: | ---: | --- |
| hop | 179 | 115 | version, tag, grantor, grantee, capability, issued, expires, delegable |
| record | 242 | 178 | version, tag, capability, grantee, issuer, issued, supersedes, epoch, cut |

each followed by its 64-byte signature.  A view that opened is modelled by the
fields it reads; what opening refuses (a withdrawal naming nothing, a withdrawal
drawing a cut) is a field of the record, so that no record breaks it.
-/

import Fuzznet.Lib.Pieces
import Fuzznet.Wire.Bytes
import Fuzznet.Wire.Codec

namespace Fuzznet
namespace Chain

open Wire

/-- `fzn_chain_err_t`. -/
inductive ChainErr
  | ok
  | malformed
  | chainInvalid
  | wrongRoot
  | expired
  | revoked
  | notDelegable
  | storeFull
  | shape
  | unknownTarget
  | incomplete
  deriving DecidableEq, Repr

/-- `FZN_CHAIN_MAX_HOPS`. -/
def chainMaxHops : ℕ := 8

/-- `FZN_NO_EXPIRY`: a grant without an expiry, which is `0`. -/
def noExpiry : UInt64 := 0

/-- `fzn_chain_hop_t`, opened: one delegation step. -/
structure Hop where
  grantor : Key
  grantee : Key
  capability : CapId
  issuedAt : UInt64
  expiresAt : UInt64
  delegable : Bool
  signature : Sig
  deriving DecidableEq, Repr

/-- `fzn_hop_signed_bytes`: the body, from the first byte. -/
def Hop.signedBytes (h : Hop) : Bytes :=
  [signedVersion, SignedObject.hop.tag] ++ putBe 32 h.grantor.toNat ++ putBe 32 h.grantee.toNat ++
    putBe 32 h.capability.b.toNat ++ putBe 8 h.issuedAt.toNat ++ putBe 8 h.expiresAt.toNat ++
    [if h.delegable then 1 else 0]

/-- The whole hop, `FZN_HOP_LEN` bytes. -/
def Hop.bytes (h : Hop) : Bytes :=
  h.signedBytes ++ putBe 64 h.signature.toNat

/-- `FZN_HOP_LEN`. -/
def hopLen : ℕ := 179

/-- `fzn_hop_open`: a wrong length, a foreign version or tag, or a `delegable`
outside `{0, 1}` is `FZN_CHAIN_ERR_SHAPE`. -/
def hopOpen (bs : Bytes) : Except ChainErr Hop :=
  if bs.length ≠ hopLen then .error .shape
  else if getBe bs 0 1 ≠ signedVersion.toNat then .error .shape
  else if getBe bs 1 1 ≠ SignedObject.hop.tag.toNat then .error .shape
  else if 1 < getBe bs 114 1 then .error .shape
  else .ok {
    grantor := BitVec.ofNat 256 (getBe bs 2 32)
    grantee := BitVec.ofNat 256 (getBe bs 34 32)
    capability := ⟨BitVec.ofNat 256 (getBe bs 66 32)⟩
    issuedAt := UInt64.ofNat (getBe bs 98 8)
    expiresAt := UInt64.ofNat (getBe bs 106 8)
    delegable := getBe bs 114 1 != 0
    signature := BitVec.ofNat 512 (getBe bs 115 64) }

/-- The hops of a container, `n` of them from byte 2 on, each opened. -/
def hopsOpen (bs : Bytes) : ℕ → Except ChainErr (List Hop)
  | 0 => .ok []
  | n + 1 => do
    let hops ← hopsOpen bs n
    let hop ← hopOpen ((bs.drop (2 + n * hopLen)).take hopLen)
    return hops ++ [hop]

/-- `fzn_chain_open`: the container's version and count, exactly that many
hops behind them, and each hop opened. -/
def chainOpen (bs : Bytes) : Except ChainErr (List Hop) :=
  if bs.length < 2 then .error .shape
  else if getBe bs 0 1 ≠ signedVersion.toNat then .error .shape
  else
    let n := getBe bs 1 1
    if n = 0 ∨ chainMaxHops < n then .error .shape
    else if bs.length ≠ 2 + n * hopLen then .error .shape
    else hopsOpen bs n

/-- `fzn_chain_pack`'s container: version, count, and the hops' bytes. -/
def chainPack (hops : List Hop) : Bytes :=
  [signedVersion, UInt8.ofNat hops.length] ++ hops.flatMap Hop.bytes

/-- `fzn_chain_t`: what a verified chain turned out to say. -/
structure VerifiedChain where
  root : Key
  grantee : Key
  capability : CapId
  hopCount : ℕ
  expiresAt : UInt64
  deriving DecidableEq, Repr

/-- `fzn_chain_expired_at`. -/
def chainExpiredAt (c : VerifiedChain) (now : UInt64) : Bool :=
  c.expiresAt != noExpiry && c.expiresAt ≤ now

/-- One hop of a chain as the revocation rule reads it: `grantors[i]` and
`grantees[i]`. -/
structure Link where
  grantor : Key
  grantee : Key
  deriving DecidableEq, Repr

/-- The hop's grantor and grantee. -/
def Hop.link (h : Hop) : Link := ⟨h.grantor, h.grantee⟩

/-- A triple: the issuer of a record, and the pair it is about. -/
structure Triple where
  issuer : Key
  capability : CapId
  grantee : Key
  deriving DecidableEq, Repr

/-- `fzn_revocation_record_t`, opened.  `withdrawal` is the object tag.  The
last two fields are what `fzn_revocation_open` refuses a withdrawal without. -/
structure RevocationRecord where
  withdrawal : Bool
  capability : CapId
  grantee : Key
  issuer : Key
  issuedAt : UInt64
  supersedes : RecId
  epoch : UInt64
  cut : RecId
  signature : Sig
  names : withdrawal = true → supersedes ≠ 0
  noCut : withdrawal = true → cut = 0
  deriving DecidableEq

/-- The triple a record is about. -/
def RevocationRecord.triple (r : RevocationRecord) : Triple :=
  ⟨r.issuer, r.capability, r.grantee⟩

/-- `fzn_revocation_signed_bytes`. -/
def RevocationRecord.signedBytes (r : RevocationRecord) : Bytes :=
  [signedVersion, if r.withdrawal then SignedObject.withdrawal.tag else SignedObject.revocation.tag] ++
    putBe 32 r.capability.b.toNat ++ putBe 32 r.grantee.toNat ++ putBe 32 r.issuer.toNat ++
    putBe 8 r.issuedAt.toNat ++ putBe 32 r.supersedes.toNat ++ putBe 8 r.epoch.toNat ++
    putBe 32 r.cut.toNat

/-- The whole record, `FZN_REVOCATION_LEN` bytes: what its id is the hash of. -/
def RevocationRecord.bytes (r : RevocationRecord) : Bytes :=
  r.signedBytes ++ putBe 64 r.signature.toNat

/-- `tailHash` reads the signature alone. -/
theorem tailHash_bytes (r : RevocationRecord) :
    tailHash.hash r.bytes =
      some (BitVec.ofNat 256 (getBe (putBe 64 r.signature.toNat) 32 32)) := by
  have hlen : (putBe 64 r.signature.toNat).length = 64 := by simp [putBe]
  have hoff : r.signedBytes.length + 64 - 32 - r.signedBytes.length = 32 := by omega
  simp only [tailHash, RevocationRecord.bytes, getBe, List.length_append, hlen, List.drop_append]
  rw [hoff, List.drop_of_length_le (by omega), List.nil_append]

/-- A revocation of capability `7`, for the runs on fixed records. -/
def revocationBy (issuer grantee : Key) (supersedes : RecId) (epoch : UInt64) (cut : RecId)
    (signature : Sig) : RevocationRecord where
  withdrawal := false
  capability := ⟨7⟩
  grantee := grantee
  issuer := issuer
  issuedAt := 0
  supersedes := supersedes
  epoch := epoch
  cut := cut
  signature := signature
  names := nofun
  noCut := nofun

/-- A withdrawal for capability `7`, for the runs on fixed records. -/
def withdrawalBy (issuer grantee : Key) (supersedes : RecId) (epoch : UInt64) (signature : Sig)
    (names : supersedes ≠ 0) : RevocationRecord where
  withdrawal := true
  capability := ⟨7⟩
  grantee := grantee
  issuer := issuer
  issuedAt := 0
  supersedes := supersedes
  epoch := epoch
  cut := 0
  signature := signature
  names := fun _ => names
  noCut := fun _ => rfl

/-! ## The chain container, there and back

`fzn_chain_pack` lays hops end to end behind a version and a count, and
`fzn_chain_open` reads them back.  A hop is a view over its bytes, so what opens is the
hop that was packed (`hopOpen_bytes`), and a container of one to eight hops opens to the
hops it was packed from (`chainOpen_chainPack`). -/

theorem Hop.length_signedBytes (h : Hop) : h.signedBytes.length = 115 := by
  simp [Hop.signedBytes]

theorem Hop.length_bytes (h : Hop) : h.bytes.length = hopLen := by
  simp [Hop.bytes, Hop.length_signedBytes, hopLen]

/-- A hop's bytes, field by field. -/
theorem Hop.bytes_eq (h : Hop) : h.bytes =
    signedVersion :: SignedObject.hop.tag :: (putBe 32 h.grantor.toNat ++
      (putBe 32 h.grantee.toNat ++ (putBe 32 h.capability.b.toNat ++
        (putBe 8 h.issuedAt.toNat ++ (putBe 8 h.expiresAt.toNat ++
          ((if h.delegable then 1 else 0) :: (putBe 64 h.signature.toNat ++ []))))))) := by
  simp [Hop.bytes, Hop.signedBytes]

/-- The fields of a hop are read back from its bytes. -/
theorem Hop.getBe_bytes (h : Hop) :
    getBe h.bytes 0 1 = signedVersion.toNat ∧ getBe h.bytes 1 1 = SignedObject.hop.tag.toNat ∧
      getBe h.bytes 2 32 = h.grantor.toNat ∧ getBe h.bytes 34 32 = h.grantee.toNat ∧
      getBe h.bytes 66 32 = h.capability.b.toNat ∧ getBe h.bytes 98 8 = h.issuedAt.toNat ∧
      getBe h.bytes 106 8 = h.expiresAt.toNat ∧
      getBe h.bytes 114 1 = (if h.delegable then 1 else 0 : UInt8).toNat ∧
      getBe h.bytes 115 64 = h.signature.toNat := by
  rw [Hop.bytes_eq]
  simp (disch := omega) only [getBe_cons, getBe_skip, Nat.reduceSub]
  exact ⟨getBe_byte _ _, getBe_byte _ _, getBe_putBe_of_lt _ (toNat_lt_bytes _),
    getBe_putBe_of_lt _ (toNat_lt_bytes _), getBe_putBe_of_lt _ (toNat_lt_bytes _),
    getBe_putBe_of_lt _ (toNat_lt_be64 _), getBe_putBe_of_lt _ (toNat_lt_be64 _), getBe_byte _ _,
    getBe_putBe_of_lt _ (toNat_lt_sig _)⟩

/-- **A hop's bytes open to the hop.** -/
theorem hopOpen_bytes (h : Hop) : hopOpen h.bytes = .ok h := by
  obtain ⟨hversion, htag, hgrantor, hgrantee, hcap, hissued, hexpires, hdelegable, hsig⟩ :=
    h.getBe_bytes
  have hbit : (if h.delegable then 1 else 0 : UInt8).toNat ≤ 1 := by
    cases h.delegable <;> decide
  have hback : ((if h.delegable then 1 else 0 : UInt8).toNat != 0) = h.delegable := by
    cases h.delegable <;> decide
  unfold hopOpen
  rw [if_neg (by simp [Hop.length_bytes]), if_neg (by simp [hversion]), if_neg (by simp [htag]),
    if_neg (by rw [hdelegable]; omega), hgrantor, hgrantee, hcap, hissued, hexpires, hdelegable,
    hback, hsig]
  simp

/-- The container's hops are cut out where they were laid. -/
theorem block_chainPack {hops : List Hop} {n : ℕ} (hn : n < hops.length) :
    ((chainPack hops).drop (2 + n * hopLen)).take hopLen = hops[n].bytes := by
  unfold chainPack
  rw [← List.drop_drop]
  exact Lib.block_flatMap (fun h _ => h.length_bytes) hn

theorem hopsOpen_chainPack (hops : List Hop) {n : ℕ} (hn : n ≤ hops.length) :
    hopsOpen (chainPack hops) n = .ok (hops.take n) := by
  induction n with
  | zero => rfl
  | succ n ih =>
    rw [hopsOpen, ih (by omega), block_chainPack (by omega), hopOpen_bytes,
      List.take_succ_eq_append_getElem (by omega)]
    rfl

theorem length_chainPack (hops : List Hop) :
    (chainPack hops).length = 2 + hops.length * hopLen := by
  unfold chainPack
  rw [List.length_append, Lib.length_flatMap_blocks fun h _ => h.length_bytes]
  rfl

/-- **A container of one to eight hops opens to the hops it was packed from.** -/
theorem chainOpen_chainPack {hops : List Hop} (hne : hops ≠ [])
    (hlen : hops.length ≤ chainMaxHops) : chainOpen (chainPack hops) = .ok hops := by
  have hpos : hops.length ≠ 0 := fun h => hne (List.length_eq_zero_iff.1 h)
  have hcount : getBe (chainPack hops) 1 1 = hops.length := by
    have hbyte : (UInt8.ofNat hops.length).toNat = hops.length := by
      rw [UInt8.toNat_ofNat', Nat.mod_eq_of_lt]
      unfold chainMaxHops at hlen
      omega
    unfold chainPack
    rw [List.cons_append, getBe_cons (by omega), List.cons_append, getBe_byte, hbyte]
  unfold chainOpen
  rw [if_neg (by rw [length_chainPack]; omega), if_neg (by simp [chainPack, getBe_byte])]
  dsimp only
  rw [hcount, if_neg (by omega), if_neg (by simp [length_chainPack]),
    hopsOpen_chainPack hops (Nat.le_refl _), List.take_length]

end Chain
end Fuzznet
