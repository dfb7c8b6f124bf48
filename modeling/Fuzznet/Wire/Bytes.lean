/-
# Bytes: big-endian integers, 32-byte values and the object tags

`wire/bytes.h`.  Every signed object of the library is a fixed layout of
big-endian integers and 32-byte strings behind a version byte and an object
tag.  A public key, a capability id and a record id are 32 bytes each; read
most significant byte first they are numbers below `2^256`, and the order
`memcmp` gives them is the order of those numbers.  They are modelled as
`BitVec 256`, the signature as `BitVec 512`, and a byte range a signature or a
hash covers as the list of its bytes.
-/

import Fuzznet.Lib.Checks
import Mathlib.Data.Nat.Notation
import Mathlib.Data.Set.Defs

namespace Fuzznet
namespace Wire

/-- A byte range: what a signature covers and what a hash reads. -/
abbrev Bytes := List UInt8

/-- 32 bytes: `FZN_PUBKEY_LEN`, `FZN_CAP_ID_LEN` and `FZN_REVOCATION_ID_LEN`. -/
abbrev Bytes32 := BitVec 256

/-- A public key. -/
abbrev Key := Bytes32

instance : LawfulBEq Key := inferInstance

/-- The hash that names a signed record (`FZN_REVOCATION_ID_LEN`). -/
abbrev RecId := Bytes32

/-- A signature, `FZN_SIG_LEN` bytes. -/
abbrev Sig := BitVec 512

/-- `fzn_cap_id_t`: a type of its own, so that a key is not taken for one. -/
structure CapId where
  b : Bytes32
  deriving DecidableEq, Repr

/-- The `n` bytes of `v`, most significant first: `fzn_put_be16`,
`fzn_put_be64`, and a 32- or 64-byte string copied out. -/
def putBe (n v : ℕ) : Bytes :=
  (List.range n).map fun i => UInt8.ofNat (v >>> (8 * (n - 1 - i)))

/-- The number `len` bytes spell at `off`: `fzn_get_be16`, `fzn_get_be64`, and
a 32- or 64-byte string read in place. -/
def getBe (bs : Bytes) (off len : ℕ) : ℕ :=
  ((bs.drop off).take len).foldl (fun v b => v * 256 + b.toNat) 0

/-- `FZN_SIGNED_VERSION`. -/
def signedVersion : UInt8 := 1

/-- `fzn_signed_object`: the tags of the objects modelled here. -/
inductive SignedObject
  | hop
  | revocation
  | manifest
  | withdrawal
  | adminConfirm
  deriving DecidableEq, Repr

/-- The tag byte of each object. -/
def SignedObject.tag : SignedObject → UInt8
  | .hop => 128
  | .revocation => 129
  | .manifest => 131
  | .withdrawal => 133
  | .adminConfirm => 143

/-- The signature seam, `fzn_sign_ops_t`.  `verify` answers for a public key, a
byte range and a signature; `sign` may refuse. -/
structure SignOps where
  verify : Key → Bytes → Sig → Bool
  sign : Bytes → Option Sig

/-- The hash seam, `fzn_hash_ops_t`, at the 32-byte output every record id
asks for.  `none` is a hash that refuses. -/
structure HashOps where
  hash : Bytes → Option RecId

/-- On `T` the hash is injective: no collision among what is hashed. -/
def HashOps.InjOn (ops : HashOps) (T : Set Bytes) : Prop :=
  ∀ x ∈ T, ∀ y ∈ T, ∀ d, ops.hash x = some d → ops.hash y = some d → x = y

/-- A hash that refuses nothing. -/
def answering (H : Bytes → RecId) : HashOps := ⟨fun bs => some (H bs)⟩

/-- A signature seam that takes every signature, for the runs on fixed records. -/
def acceptingSign : SignOps := ⟨fun _ _ _ => true, fun _ => some 0⟩

/-- A hash seam for the runs on fixed records: the last 32 bytes, which are the end
of the signature and tell those records apart. -/
def tailHash : HashOps := ⟨fun bs => some (BitVec.ofNat 256 (getBe bs (bs.length - 32) 32))⟩

end Wire
end Fuzznet
