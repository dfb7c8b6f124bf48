/-
# One hash, two keys

`session/commitment.c`: the root derivation.  A session's AEAD key and its commitment
key are the two halves of one hash over the transcript behind a domain label, and a
step of the ratchet (`ratchet/ratchet.c`) splits its hash the same way.
-/

import Fuzznet.Wire.Codec

namespace Fuzznet
namespace Session

open Wire

/-- `fzn_hash_ops_t` at the two output lengths a session asks it for: 64 bytes for two
keys at once, 32 for one.  `none` is a hash that refuses. -/
structure KdfOps where
  wide : Bytes → Option (BitVec 512)
  narrow : Bytes → Option Bytes32

/-- The first 32 of 64 bytes. -/
def firstHalf (d : BitVec 512) : Bytes32 := d.extractLsb' 256 256

/-- The last 32 of 64 bytes. -/
def lastHalf (d : BitVec 512) : Bytes32 := d.extractLsb' 0 256

/-- A 32-byte string copied out. -/
def bytes32 (b : Bytes32) : Bytes := putBe 32 b.toNat

/-- `FZN_ROOT_LABEL`, `"fuzznet-kdf-v2\0\0"`. -/
def rootLabel : Bytes :=
  [0x66, 0x75, 0x7a, 0x7a, 0x6e, 0x65, 0x74, 0x2d, 0x6b, 0x64, 0x66, 0x2d, 0x76, 0x32, 0, 0]

/-- `FZN_TRANSCRIPT_MAX`. -/
def transcriptMax : ℕ := 512

/-- `fzn_commitment_err_t`, the codes the derivation returns. -/
inductive CommitmentErr
  | malformed
  | hash
  deriving DecidableEq, Repr

/-- The keys of a session: the AEAD key and the commitment key. -/
structure RootKeys where
  key : Bytes32
  commitmentKey : Bytes32
  deriving DecidableEq, Repr

/-- `fzn_commitment_derive_root`. -/
def deriveRoot (ops : KdfOps) (transcript : Bytes) : Except CommitmentErr RootKeys :=
  if transcript.length = 0 ∨ transcript.length > transcriptMax then .error .malformed
  else match ops.wide (rootLabel ++ transcript) with
    | none => .error .hash
    | some derived => .ok ⟨firstHalf derived, lastHalf derived⟩

/-! ## Fields of 32 bytes -/

@[simp] theorem length_bytes32 (b : Bytes32) : (bytes32 b).length = 32 := length_putBe 32 _

theorem bytes32_injective {a b : Bytes32} (h : bytes32 a = bytes32 b) : a = b := by
  have hread : ∀ c : Bytes32, getBe (bytes32 c) 0 32 = c.toNat := by
    intro c
    have := getBe_putBe_of_lt (n := 32) [] (toNat_lt_bytes c)
    rwa [List.append_nil] at this
  exact BitVec.eq_of_toNat_eq (by rw [← hread a, h, hread b])

theorem bytes32_inj {a b : Bytes32} : bytes32 a = bytes32 b ↔ a = b :=
  ⟨bytes32_injective, congrArg bytes32⟩

/-- **A field of a fixed width ends where it ends.** -/
theorem bytes32_append_inj {a b : Bytes32} {x y : Bytes} :
    bytes32 a ++ x = bytes32 b ++ y ↔ a = b ∧ x = y := by
  constructor
  · intro h
    obtain ⟨hab, hxy⟩ := List.append_inj h (by simp)
    exact ⟨bytes32_injective hab, hxy⟩
  · rintro ⟨rfl, rfl⟩
    rfl

/-- A root is one hash over the label and the transcript, split in two. -/
theorem deriveRoot_ok {ops : KdfOps} {transcript : Bytes} {k : RootKeys}
    (h : deriveRoot ops transcript = .ok k) :
    ∃ d, ops.wide (rootLabel ++ transcript) = some d ∧ k = ⟨firstHalf d, lastHalf d⟩ := by
  unfold deriveRoot at h
  split at h
  · exact absurd h (by simp)
  split at h
  · exact absurd h (by simp)
  next d hd => exact ⟨d, hd, (Except.ok.inj h).symm⟩

end Session
end Fuzznet
