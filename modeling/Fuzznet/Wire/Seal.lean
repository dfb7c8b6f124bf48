/-
# A frame, its head and its seal

`wire/frame.situ` with the checks generated from it (`wire/generated/frame.c`), and
`wire/seal.c`: `fzn_seal_peek` and `fzn_seal_open`; `session/commitment.c`:
`fzn_commitment_for_nonce` and `fzn_commitment_check`.

| at | bytes | field |
| ---: | ---: | --- |
| 0 | 5 | hop: version 1, hops left, service hint, a reserved zero |
| 5 | 1 | kind |
| 6 | 32 | sender |
| 38 | 8 | expires_at |
| 46 | 24 | nonce |
| 70 | 16 | commitment |
| 86 | 4 | msg |
| 90 | 2 | index |
| 92 | 2 | chunks |
| 94 | 2 | length of the payload |
| 96 | 32 | capability, sealed |
| 128 | length | payload, sealed |
| 128 + length | 16 | tag |

The head is authenticated and not encrypted; capability and payload are both.  The
AEAD and the hash are seams: `open` answers the text in clear, or that the tag does
not verify.  The three guards between the commitment and the AEAD ask again what the
shape check has answered, and have no branch of their own here.
-/

import Fuzznet.Lib.Buffer
import Fuzznet.Wire.Bytes

namespace Fuzznet
namespace Wire

/-- `fzn_seal_err_t`, the codes of the receiving side. -/
inductive SealErr
  | malformed
  | shape
  | tag
  | commitment
  | hash
  deriving DecidableEq, Repr

/-- `fzn_commitment_err_t`. -/
inductive CommitmentErr
  | malformed
  | hash
  | mismatch
  deriving DecidableEq, Repr

/-- The hash seam, asked for `FZN_COMMITMENT_LEN` bytes. -/
structure CommitHash where
  hash : Bytes → Option (BitVec 128)

/-- The opening half of `fzn_aead_ops_t`: key, nonce, associated data, text and tag. -/
structure AeadOps where
  openText : Bytes32 → BitVec 192 → Bytes → Bytes → Bytes → Option Bytes

/-- `FZN_BIND_LABEL`, `"fuzznet-bind-v1"` and a zero. -/
def bindLabel : Bytes := [102, 117, 122, 122, 110, 101, 116, 45, 98, 105, 110, 100, 45, 118, 49, 0]

/-- `fzn_commitment_for_nonce`. -/
def commitmentForNonce (hash : CommitHash) (key : Bytes32) (nonce : BitVec 192) :
    Except CommitmentErr (BitVec 128) :=
  match hash.hash (bindLabel ++ putBe 32 key.toNat ++ putBe 24 nonce.toNat) with
  | none => .error .hash
  | some derived => .ok derived

/-- `fzn_peek_t`. -/
structure Peek where
  sender : Bytes32
  nonce : BitVec 192
  commitment : BitVec 128
  expiresAt : UInt64
  msg : UInt32
  index : ℕ
  chunks : ℕ
  kind : ℕ
  deriving DecidableEq, Repr

/-- `fzn_opened_t`. -/
structure Opened where
  capability : CapId
  payload : Bytes
  sender : Bytes32
  nonce : BitVec 192
  expiresAt : UInt64
  msg : UInt32
  index : ℕ
  chunks : ℕ
  kind : ℕ
  deriving DecidableEq, Repr

/-- The payload length the head states. -/
def framePayloadLen (frame : Bytes) : ℕ := getBe frame 94 2

/-- The plaintext head. -/
def frameHead (frame : Bytes) : Peek where
  sender := BitVec.ofNat 256 (getBe frame 6 32)
  nonce := BitVec.ofNat 192 (getBe frame 46 24)
  commitment := BitVec.ofNat 128 (getBe frame 70 16)
  expiresAt := UInt64.ofNat (getBe frame 38 8)
  msg := UInt32.ofNat (getBe frame 86 4)
  index := getBe frame 90 2
  chunks := getBe frame 92 2
  kind := getBe frame 5 1

/-- `views`: the size bounds, the constraints of the schema, and not a byte behind the
tag. -/
def views (frame : Bytes) : Bool :=
  decide (frame.length ≤ 4294967295) && decide (144 ≤ frame.length) &&
    decide (getBe frame 0 1 = 1) && decide (getBe frame 4 1 = 0) &&
    decide ((frameHead frame).kind ≤ 3) &&
    decide (((frameHead frame).index : Int) ≤ (frameHead frame).chunks - 1) &&
    decide (framePayloadLen frame ≤ 1024) &&
    decide (frame.length = 128 + framePayloadLen frame + 16)

/-- `fzn_seal_peek`. -/
def sealPeek (frame : Bytes) : Except SealErr Peek :=
  if views frame then .ok (frameHead frame) else .error .shape

/-- What a frame opens to, its text in clear. -/
def openedOf (frame text : Bytes) : Opened where
  capability := ⟨BitVec.ofNat 256 (getBe text 0 32)⟩
  payload := Lib.load text 32 (framePayloadLen frame)
  sender := (frameHead frame).sender
  nonce := (frameHead frame).nonce
  expiresAt := (frameHead frame).expiresAt
  msg := (frameHead frame).msg
  index := (frameHead frame).index
  chunks := (frameHead frame).chunks
  kind := (frameHead frame).kind

/-- `fzn_seal_open`. -/
def sealOpen (frame : Bytes) (key commitmentKey : Bytes32) (hash : CommitHash) (aead : AeadOps) :
    Except SealErr Opened :=
  if views frame = false then .error .shape
  else match commitmentForNonce hash commitmentKey (frameHead frame).nonce with
    | .error _ => .error .hash
    | .ok derived =>
      if derived ≠ (frameHead frame).commitment then .error .commitment
      else match aead.openText key (frameHead frame).nonce (Lib.load frame 5 91)
          (Lib.load frame 96 (32 + framePayloadLen frame))
          (Lib.load frame (128 + framePayloadLen frame) 16) with
        | none => .error .tag
        | some text => .ok (openedOf frame text)

end Wire
end Fuzznet
