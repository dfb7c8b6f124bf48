/-
# A record and where it is kept

`record/record.c`: a record is a view over the bytes that carry it.  `fzn_record_open`
answers for its shape alone, and every field is read out of the bytes at a fixed offset:

| off | size | field |
| ---: | ---: | --- |
| 0 | 1 | version |
| 1 | 1 | object |
| 2 | 32 | issuer |
| 66 | 4 | stream |
| 74 | 8 | seq |
| 82 | 32 | prev |
| 122 | 2 | body length |
| 124 + n | 64 | signature |

`record/store.c`: the store is the caller's, two operations over a state of its own.
`fzn_record_store_put` files a record under the address it carries, and
`fzn_record_store_get` compares what it reads with what was asked for.  What a second
record at one address does is the backend's to define, a log may hold both and return the
first and a map may replace, so `StoreKeeps`, what a backend owes, speaks of what is held
rather than of what is read.

The subject, the kind and the time of issue are fields nothing here reads.
-/

import Fuzznet.Record.Journal

namespace Fuzznet
namespace Record

open Wire

/-- `fzn_record_err_t`, without `FZN_RECORD_OK`. -/
inductive RecordErr
  | unsigned
  | bodyTooLarge
  | seqZero
  | shape
  deriving DecidableEq, Repr

/-- `FZN_OBJECT_RECORD`. -/
def recordTag : UInt8 := 130

/-- `FZN_RECORD_HEADER_LEN`. -/
def recordHeaderLen : ℕ := 124

/-- `FZN_RECORD_BODY_MAX`. -/
def recordBodyMax : ℕ := 512

/-- `FZN_SIG_LEN`. -/
def sigLen : ℕ := 64

/-- What `fzn_record_open` asks of the bytes, in its order; `fzn_record_is_open` asks the
same. -/
def recordCheck (bs : Bytes) : Except RecordErr Unit :=
  if bs.length < recordHeaderLen + sigLen then .error .shape
  else if getBe bs 0 1 ≠ signedVersion.toNat then .error .shape
  else if getBe bs 1 1 ≠ recordTag.toNat then .error .shape
  else if getBe bs 122 2 > recordBodyMax then .error .bodyTooLarge
  else if bs.length ≠ recordHeaderLen + getBe bs 122 2 + sigLen then .error .shape
  else if getBe bs 74 8 = 0 then .error .seqZero
  else if getBe bs 74 8 = 1 ∧ getBe bs 82 32 ≠ 0 then .error .shape
  else .ok ()

/-- `fzn_record_t`: bytes that were opened. -/
structure RecordView where
  bytes : Bytes
  isOpen : recordCheck bytes = .ok ()

/-- `fzn_record_open`. -/
def recordOpen (bs : Bytes) : Except RecordErr RecordView :=
  match h : recordCheck bs with
  | .ok () => .ok ⟨bs, h⟩
  | .error err => .error err

namespace RecordView

variable (r : RecordView)

/-- `fzn_record_issuer`. -/
def issuer : Key := BitVec.ofNat 256 (getBe r.bytes 2 32)

/-- `fzn_record_stream`. -/
def stream : UInt32 := UInt32.ofNat (getBe r.bytes 66 4)

/-- `fzn_record_seq`. -/
def seq : UInt64 := UInt64.ofNat (getBe r.bytes 74 8)

/-- `fzn_record_prev`. -/
def prev : RecId := BitVec.ofNat 256 (getBe r.bytes 82 32)

/-- `fzn_record_signed_bytes`: everything but the signature. -/
def signedBytes : Bytes := r.bytes.take (r.bytes.length - sigLen)

/-- `fzn_record_signature`. -/
def signature : Sig := BitVec.ofNat 512 (getBe r.bytes (r.bytes.length - sigLen) sigLen)

/-- The stream a record belongs to. -/
def key : StreamKey := ⟨r.issuer, r.stream⟩

end RecordView

/-- `fzn_record_verify`. -/
def recordVerify (r : RecordView) (sign : SignOps) : Except RecordErr Unit :=
  if sign.verify r.issuer r.signedBytes r.signature then .ok () else .error .unsigned

theorem recordOpen_bytes {bs : Bytes} {r : RecordView} (h : recordOpen bs = .ok r) :
    r.bytes = bs := by
  unfold recordOpen at h
  split at h
  · exact congrArg RecordView.bytes (Except.ok.inj h).symm
  · cases h

theorem RecordView.ext {r s : RecordView} (h : r.bytes = s.bytes) : r = s := by
  cases r
  cases s
  cases h
  rfl

theorem length_of_open (r : RecordView) : r.bytes.length ≤ 700 := by
  have h := r.isOpen
  unfold recordCheck at h
  split_ifs at h with h₁ h₂ h₃ h₄ h₅ h₆ h₇
  have hbody : getBe r.bytes 122 2 ≤ 512 := Nat.not_lt.1 h₄
  have hlen := not_not.1 h₅
  simp only [recordHeaderLen, sigLen] at hlen
  omega

theorem length_pos_of_open (r : RecordView) : 0 < r.bytes.length := by
  by_contra hzero
  have h := r.isOpen
  unfold recordCheck at h
  rw [if_pos (by rw [Nat.eq_zero_of_not_pos hzero]; decide)] at h
  exact absurd h (by simp)

/-- Bytes that were opened open again. -/
theorem recordOpen_self (r : RecordView) : recordOpen r.bytes = .ok r := by
  unfold recordOpen
  split
  · rfl
  · next err h => exact absurd (h.symm.trans r.isOpen) (by simp)

/-! ## The store -/

/-- `fzn_record_store_err_t`, without `FZN_RECORD_STORE_OK`. -/
inductive StoreErr
  | malformed
  | absent
  | backend
  | shape
  | misplaced
  deriving DecidableEq, Repr

/-- Where a record is filed. -/
structure StoreAddr where
  key : StreamKey
  seq : UInt64
  deriving DecidableEq, Repr

/-- `fzn_record_store_ops_t` over a backend's state.  `get` tells a record not held from a
store that could not look. -/
structure StoreOps (S : Type) where
  put : S → StoreAddr → Bytes → Bool × S
  get : S → StoreAddr → Except StoreErr Bytes

/-- The address a record carries. -/
def RecordView.addr (r : RecordView) : StoreAddr := ⟨r.key, r.seq⟩

/-- `fzn_record_store_put`: the address comes out of the record. -/
def recordStorePut {S : Type} (ops : StoreOps S) (st : S) (r : RecordView) :
    Except StoreErr Unit × S :=
  (if (ops.put st r.addr r.bytes).1 then .ok () else .error .backend, (ops.put st r.addr r.bytes).2)

/-- `fzn_record_store_get`: shape, then placement. -/
def recordStoreGet {S : Type} (ops : StoreOps S) (st : S) (a : StoreAddr) :
    Except StoreErr RecordView :=
  if a.seq = 0 then .error .malformed
  else match ops.get st a with
    | .error err => .error err
    | .ok bs => match recordOpen bs with
      | .error _ => .error .shape
      | .ok r => if r.addr ≠ a then .error .misplaced else .ok r

/-- What a backend owes, `holds` being what it has at an address.  A put that answers
success holds the bytes, beside what was there or in its place, and a put, whatever it
answers, leaves every other address as it is.  What is read is held. -/
structure StoreKeeps {S : Type} (ops : StoreOps S) (holds : S → StoreAddr → Bytes → Prop) :
    Prop where
  put_holds : ∀ st a bs, (ops.put st a bs).1 = true → holds (ops.put st a bs).2 a bs
  put_eq : ∀ st a bs c, (ops.put st a bs).1 = true → holds (ops.put st a bs).2 a c →
    holds st a c ∨ c = bs
  put_ne : ∀ st a bs b c, b ≠ a → (holds (ops.put st a bs).2 b c ↔ holds st b c)
  get_holds : ∀ st a bs, ops.get st a = .ok bs → holds st a bs

/-- What `fzn_record_store_get` answers is held, under the address it was asked for. -/
theorem StoreKeeps.recordStoreGet_holds {S : Type} {ops : StoreOps S}
    {holds : S → StoreAddr → Bytes → Prop} (hkeeps : StoreKeeps ops holds) {st : S}
    {a : StoreAddr} {r : RecordView} (h : recordStoreGet ops st a = .ok r) :
    holds st a r.bytes ∧ r.addr = a := by
  unfold recordStoreGet at h
  split at h
  · cases h
  split at h
  · cases h
  next bs hget =>
  split at h
  · cases h
  next q hopen =>
  split at h
  · cases h
  next haddr =>
  obtain rfl := Except.ok.inj h
  rw [recordOpen_bytes hopen]
  exact ⟨hkeeps.get_holds st a bs hget, not_not.1 haddr⟩

end Record
end Fuzznet
